import Skippr.Core.LTS
import Skippr.L1Encoding.WalSliceRef
import Skippr.L2Store.OffsetStore

/-!
# `PipelineWalHandle`: commit a row to the catalog, then publish it

`persist_segment`, `persist_s3_segment`, `persist_checkpoint` and
`persist_offset_hint` look their row up in the WAL catalog, commit it under the
next seq if it is not there, and publish the row's offsets and checkpoints one
key at a time; at startup `republish_all` publishes every live row again
(src/buffer/wal_handle.rs). The commit and each publish are separate durable
steps, any number of calls run concurrently, and a crash may fall between any
two steps.

The payload file and the slice index of a segment are left out: nothing here
reads them. The payload digest of a segment is taken as collision free, so a
row keeps what it was computed from (`Payload`).
-/
namespace Skippr.L3.Handle

open Skippr.L2

/-- mirrors crates/skippr-wal-catalog/src/row.rs:51-58 -/
structure CommittedOffset where
  ns : Text
  partition : Text
  filesize : Nat
  position : Nat
  closed : Nat
deriving DecidableEq, Repr

/-- mirrors row.rs:60-64 -/
structure CommittedCheckpoint where
  logicalKey : Text
  envelope : Bytes
deriving DecidableEq, Repr

/-- What `encode_snapshot` digests: the offsets by key and the batches. The
checkpoint updates of a segment are not part of it. -/
structure Payload where
  offsets : List ((Text × Text) × Nat)
  batches : Nat
deriving DecidableEq, Repr

structure SegmentRow where
  seq : Nat
  payload : Payload
  offsets : List CommittedOffset
  checkpoints : List CommittedCheckpoint
deriving DecidableEq, Repr

inductive ControlKey
  | checkpoint (logicalKey : Text)
  | offsetHint (ns partition : Text)
deriving DecidableEq, Repr

inductive ControlBody
  | checkpoint (logicalKey : Text) (envelope : Bytes)
  | offsetHint (position : Nat) (closed : Bool)
deriving DecidableEq, Repr

structure ControlRow where
  seq : Nat
  body : ControlBody
  version : Nat
deriving DecidableEq, Repr

structure Catalog where
  segments : Map Text SegmentRow
  controls : Map ControlKey ControlRow
  maxSeq : Nat

abbrev Entry := Text × Bytes

/-- mirrors src/helpers/offset_store.rs:40-51 -/
def CommittedOffset.entry (o : CommittedOffset) : Entry :=
  (offsetKey o.ns o.partition, le64 o.filesize ++ le64 o.position ++ le64 o.closed)

/-- mirrors offset_store.rs:52-59 -/
def CommittedCheckpoint.entry (c : CommittedCheckpoint) : Entry :=
  (checkpointKey c.logicalKey, c.envelope)

def entries (offsets : List CommittedOffset) (checkpoints : List CommittedCheckpoint) : List Entry :=
  offsets.map (·.entry) ++ checkpoints.map (·.entry)

def SegmentRow.entries (row : SegmentRow) : List Entry := Handle.entries row.offsets row.checkpoints

/-- What `republish_all` publishes for a control row.
mirrors wal_handle.rs:1315-1349 -/
def controlEntries (key : ControlKey) : ControlBody → List Entry
  | .checkpoint logicalKey envelope => entries [] [⟨logicalKey, envelope⟩]
  | .offsetHint position closed =>
    match key with
    | .offsetHint ns partition => entries [⟨ns, partition, 0, position, closed.toNat⟩] []
    | .checkpoint _ => []

/-- The filesize a published 24-byte offset value starts with.
mirrors wal_handle.rs:982-989 -/
def storedFilesize (store : OffsetStore) (ns partition : Text) : Nat :=
  match published store (offsetKey ns partition) with
  | some bytes => if bytes.length = 24 then ofLe64 (bytes.take 8) else 0
  | none => 0

def keyLe (a b : Text × Text) : Prop := a.1 < b.1 ∨ (a.1 = b.1 ∧ a.2 ≤ b.2)

instance : DecidableRel keyLe := fun a b =>
  inferInstanceAs (Decidable (a.1 < b.1 ∨ (a.1 = b.1 ∧ a.2 ≤ b.2)))

/-- mirrors wal_handle.rs:1612-1638 -/
def committedOffsetsFrom (offsets : List ((Text × Text) × Nat)) (store : OffsetStore) :
    List CommittedOffset :=
  (offsets.map fun o => ⟨o.1.1, o.1.2, storedFilesize store o.1.1 o.1.2, o.2, 1⟩).insertionSort
    fun a b => keyLe (a.ns, a.partition) (b.ns, b.partition)

/-- mirrors wal_handle.rs:1640-1653 -/
def checkpointsFrom (updates : List (Text × Bytes)) : List CommittedCheckpoint :=
  (updates.map fun u => ⟨u.1, u.2⟩).insertionSort fun a b => a.logicalKey ≤ b.logicalKey

inductive Request
  | segment (id : Text) (payload : Payload) (offsets : List CommittedOffset)
      (checkpoints : List CommittedCheckpoint)
  | control (key : ControlKey) (body : ControlBody)
deriving DecidableEq, Repr

def Request.entries : Request → List Entry
  | .segment _ _ offsets checkpoints => Handle.entries offsets checkpoints
  | .control key body => controlEntries key body

/-- Before the catalog lookup, before the commit (with the version the lookup
found), or publishing with the publishes still to do. -/
inductive Pc
  | looking
  | committing (version : Option Nat)
  | publishing (seq : Nat) (todo : List Entry)
deriving DecidableEq, Repr

/-- A call in progress. `publishes` is what it computed from its own arguments. -/
structure Call where
  request : Request
  publishes : List Entry
  pc : Pc
deriving DecidableEq, Repr

/-- The arguments of the four calls. Offsets and checkpoint updates are maps in
the source; their order does not matter. -/
inductive Op
  | segment (id : L1.SegmentId) (payload : Payload) (updates : List (Text × Bytes))
  | s3Segment (id : L1.SegmentId) (payload : Payload) (updates : List (Text × Bytes))
  | checkpoint (logicalKey : Text) (envelope : Bytes)
  | offsetHint (ns partition : Text) (position : Nat) (closed : Bool)
deriving DecidableEq

/-- The common start of `persist_segment` and `persist_s3_segment`: the
committed offsets are computed before the row is looked up. -/
def persistRow (store : OffsetStore) (id : Text) (payload : Payload)
    (updates : List (Text × Bytes)) : Call :=
  let offsets := committedOffsetsFrom payload.offsets store
  let checkpoints := checkpointsFrom updates
  ⟨.segment id payload offsets checkpoints, entries offsets checkpoints, .looking⟩

/-- mirrors wal_handle.rs:648-673 -/
def persistSegment (store : OffsetStore) (id : L1.SegmentId) (payload : Payload)
    (updates : List (Text × Bytes)) : Call :=
  persistRow store id.raw payload updates

/-- mirrors wal_handle.rs:864-886 -/
def persistS3Segment (store : OffsetStore) (id : L1.SegmentId) (payload : Payload)
    (updates : List (Text × Bytes)) : Call :=
  persistRow store id.raw payload updates

/-- mirrors wal_handle.rs:921-945 -/
def persistCheckpoint (logicalKey : Text) (envelope : Bytes) : Option Call :=
  match L1.validatePathComponent logicalKey with
  | .error _ => none
  | .ok () => some ⟨.control (.checkpoint logicalKey) (.checkpoint logicalKey envelope),
      entries [] [⟨logicalKey, envelope⟩], .looking⟩

/-- mirrors wal_handle.rs:947-981 -/
def persistOffsetHint (store : OffsetStore) (ns partition : Text) (position : Nat)
    (closed : Bool) : Option Call :=
  match L1.validatePathComponent ns, L1.validatePathComponent partition with
  | .ok (), .ok () => some ⟨.control (.offsetHint ns partition) (.offsetHint position closed),
      entries [⟨ns, partition, storedFilesize store ns partition, position, closed.toNat⟩] [],
      .looking⟩
  | _, _ => none

def Op.start (store : OffsetStore) : Op → Option Call
  | .segment id payload updates => some (persistSegment store id payload updates)
  | .s3Segment id payload updates => some (persistS3Segment store id payload updates)
  | .checkpoint logicalKey envelope => persistCheckpoint logicalKey envelope
  | .offsetHint ns partition position closed => persistOffsetHint store ns partition position closed

/-- The catalog lookup at the start of a call; `none` is an error return.
mirrors wal_handle.rs:674-680 and 999-1013 -/
def lookup (catalog : Catalog) (c : Call) : Option Pc :=
  match c.request with
  | .segment id payload _ _ =>
    match catalog.segments.get id with
    | some row => if row.payload = payload then some (.publishing row.seq c.publishes) else none
    | none => some (.committing none)
  | .control key body =>
    match catalog.controls.get key with
    | some row =>
      if row.body = body then some (.publishing row.seq c.publishes)
      else some (.committing (some row.version))
    | none => some (.committing none)

/-- mirrors wal_handle.rs:39 -/
def unpublishedCommitCeiling : Nat := 32

/-- `commit_new_segment` and `commit_control_row`: put the row under the next
seq if its condition holds; `none` is an error return.
mirrors wal_handle.rs:738-818 and 1007-1073 -/
def commit (catalog : Catalog) (request : Request) (version : Option Nat) : Option Catalog :=
  let seq := catalog.maxSeq + 1
  match request with
  | .segment id payload offsets checkpoints =>
    match catalog.segments.get id with
    | some _ => none
    | none => some { catalog with
        segments := catalog.segments.insert id ⟨seq, payload, offsets, checkpoints⟩
        maxSeq := seq }
  | .control key body =>
    if (catalog.controls.get key).map (·.version) = version then
      some { catalog with
        controls := catalog.controls.insert key ⟨seq, body, version.elim 0 (· + 1)⟩
        maxSeq := seq }
    else none

structure Row where
  seq : Nat
  entries : List Entry
deriving DecidableEq, Repr

/-- The rows `republish_all` reads, segments first, each group by seq.
mirrors wal_handle.rs:1267-1314 -/
def republishRows (catalog : Catalog) : List Row :=
  ((catalog.segments.entries.map fun e => (⟨e.2.seq, e.2.entries⟩ : Row)).insertionSort
      fun a b => a.seq ≤ b.seq) ++
    ((catalog.controls.entries.map fun e => (⟨e.2.seq, controlEntries e.1 e.2.body⟩ : Row)).insertionSort
      fun a b => a.seq ≤ b.seq)

def republishList (catalog : Catalog) : List (Nat × Entry) :=
  (republishRows catalog).flatMap fun row => row.entries.map fun e => (row.seq, e)

def epoch : Nat := 0

def publishAll (mode : PublishMode) : OffsetStore → List (Nat × Entry) →
    Except PublishError OffsetStore
  | store, [] => .ok store
  | store, (seq, sk, bytes) :: rest =>
    match publishWalCommit store sk bytes epoch seq mode with
    | .error e => .error e
    | .ok store => publishAll mode store rest

/-- mirrors wal_handle.rs:1267-1359 -/
def republishAll (catalog : Catalog) (store : OffsetStore) : Except PublishError OffsetStore :=
  publishAll .republish store (republishList catalog)

/-- The process is down, runs `republish_all` at startup, or takes calls. -/
inductive Phase
  | down
  | replaying (todo : List (Nat × Entry))
  | up
deriving DecidableEq, Repr

structure St where
  phase : Phase
  catalog : Catalog
  store : OffsetStore
  calls : Map Nat Call
  maxCommitted : Nat
  maxPublished : Nat
  history : List Row

/-- `retry` is a transient error, after which `publish_seq` starts its list
again; `fail` is an I/O error that ends a call. -/
inductive Lbl
  | start (n : Nat) (op : Op)
  | lookup (n : Nat)
  | commit (n : Nat)
  | publish (n : Nat)
  | retry (n : Nat)
  | fail (n : Nat)
  | crash
  | restart
  | replay
  | ready
deriving DecidableEq

def St.setPc (s : St) (n : Nat) (c : Call) (pc : Pc) : St :=
  { s with calls := s.calls.insert n { c with pc := pc } }

def St.endCall (s : St) (n : Nat) : St := { s with calls := s.calls.erase n }

def lookupStep (s : St) (n : Nat) (c : Call) : St :=
  match lookup s.catalog c with
  | some pc => s.setPc n c pc
  | none => s.endCall n

def commitStep (s : St) (n : Nat) (c : Call) (version : Option Nat) : St :=
  if unpublishedCommitCeiling ≤ s.maxCommitted - s.maxPublished then s.endCall n
  else
    match commit s.catalog c.request version with
    | none => s.endCall n
    | some catalog =>
      { s.setPc n c (.publishing catalog.maxSeq c.publishes) with
        catalog := catalog
        maxCommitted := catalog.maxSeq
        history := ⟨catalog.maxSeq, c.request.entries⟩ :: s.history }

def publishStep (s : St) (n : Nat) (c : Call) (seq : Nat) : List Entry → St
  | [] => { s.endCall n with maxPublished := seq }
  | (sk, bytes) :: rest =>
    match publishWalCommit s.store sk bytes epoch seq .fresh with
    | .error _ => s.endCall n
    | .ok store => { s.setPc n c (.publishing seq rest) with store := store }

def replayStep (s : St) : List (Nat × Entry) → Option St
  | [] => none
  | (seq, sk, bytes) :: rest =>
    match publishWalCommit s.store sk bytes epoch seq .republish with
    | .error _ => some { s with phase := .down }
    | .ok store => some { s with phase := .replaying rest, store := store }

def step (s : St) : Lbl → Option St
  | .start n op =>
    if s.phase = .up ∧ s.calls.get n = none then
      (op.start s.store).map fun c => { s with calls := s.calls.insert n c }
    else none
  | .lookup n =>
    match s.calls.get n with
    | some c => if c.pc = .looking then some (lookupStep s n c) else none
    | none => none
  | .commit n =>
    match s.calls.get n with
    | some c =>
      match c.pc with
      | .committing version => some (commitStep s n c version)
      | _ => none
    | none => none
  | .publish n =>
    match s.calls.get n with
    | some c =>
      match c.pc with
      | .publishing seq todo => some (publishStep s n c seq todo)
      | _ => none
    | none => none
  | .retry n =>
    match s.calls.get n with
    | some c =>
      match c.pc with
      | .publishing seq _ => some (s.setPc n c (.publishing seq c.publishes))
      | _ => none
    | none => none
  | .fail n => some (s.endCall n)
  | .crash => some { s with phase := .down, calls := ∅, maxCommitted := 0, maxPublished := 0 }
  | .restart =>
    if s.phase = .down then some { s with phase := .replaying (republishList s.catalog) } else none
  | .replay =>
    match s.phase with
    | .replaying todo => replayStep s todo
    | _ => none
  | .ready => if s.phase = .replaying [] then some { s with phase := .up } else none

/-- An empty catalog, and a store that may hold values of an earlier release but
no fence. -/
def Initial (s : St) : Prop :=
  ∃ store : OffsetStore, (∀ sk cell, store.get sk = some cell → NotFence sk) ∧
    s = ⟨.down, ⟨∅, ∅, 0⟩, store, ∅, 0, 0, []⟩

def lts : LTS St Lbl := LTS.ofFn Initial step

end Skippr.L3.Handle
