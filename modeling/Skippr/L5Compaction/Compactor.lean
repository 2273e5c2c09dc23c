import Skippr.Core.LTS
import Skippr.Core.Map
import Skippr.L2Store.SliceBitmap

/-!
# The compactor: planner, jobs, redo and restart

One process plans groups of WAL slices, writes each group to the sink under a
compaction id, and then marks the slices done in the catalog
(src/buffer/ingest_buffer.rs, wal_handle.rs, compaction_index.rs,
wal_startup.rs). The catalog and the sink survive a crash; the planner index,
the manifests, the in-flight set and the in-memory done bits do not.

`step` is one step of any of the parts: a segment commit or its registration,
a restart, the listing and the batches of the redo, a plan, the resumption of a
stored manifest, or the next action of a running job, with a crash allowed
anywhere. What a step cannot know (which slices are due, whether a write
reached the sink, whether a catalog call failed) is in its label.

The planner is kept to what it may do: `plan` takes any slices that are
`Waiting` or `Ready` (`available`), since age, size or a forced drain promote
any of them. Segment ids are never reused (they are UUIDs), and the SHA-256 of
a compaction id is taken as injective, so an id is its header and its refs.
-/
namespace Skippr.L5.Compactor

open Skippr.L2 (SliceBitmap)

structure Slice where
  segment : Nat
  ordinal : Nat
deriving DecidableEq, Repr

/-- `deterministic_compaction_id`: the header is sink ref, namespace, schema
fingerprint and write policy.
mirrors src/buffer/compaction_transaction.rs:270-291 -/
structure CompactionId where
  header : Nat
  refs : Finset Slice
deriving DecidableEq

inductive TxnState | pending | sent | acked
deriving DecidableEq, Repr

/-- `available` stands for `Waiting` and `Ready`.
mirrors src/buffer/compaction_index.rs:203-208 -/
inductive SliceState | available | reserved | fenced
deriving DecidableEq, Repr

/-- Where a job stands in `compact_grouped_work`. A planned job has no row in
the catalog before its Pending row; a resumed one has. -/
inductive Pc
  | built (planned : Bool)
  | marked (planned : Bool)
  | pending
  | sent
  | written
  | acked
  | reclaiming (left : Finset Nat)
  | deleted
deriving DecidableEq

structure Job where
  txn : CompactionId
  entries : Finset Slice
  pc : Pc
deriving DecidableEq

def Job.fresh (j : Job) : Bool :=
  match j.pc with
  | .built planned => planned
  | .marked planned => planned
  | _ => false

structure St where
  segments : Nat → Option SliceBitmap
  compactions : Map CompactionId TxnState
  /-- Ids the sink has applied. -/
  applied : List CompactionId
  /-- Number of slices of every segment ever committed. -/
  committed : Nat → Option Nat
  /-- `CompactionIndex::slices` -/
  index : Slice → Option SliceState
  /-- `ManifestIndex::records`, with their `reserved` flag. -/
  manifests : Map CompactionId Bool
  manifestsLoaded : Bool
  inMemoryDone : Slice → Bool
  /-- `COMPACTION_IN_FLIGHT` -/
  inFlight : Finset Slice
  /-- Segments this process has committed and not yet registered. -/
  unregistered : Finset Nat
  /-- Ids listed by `apply_acked_in_memory` for the redo. -/
  redo : CompactionId → Bool
  jobs : Nat → Option Job

def init : St where
  segments _ := none
  compactions := ∅
  applied := []
  committed _ := none
  index _ := none
  manifests := ∅
  manifestsLoaded := false
  inMemoryDone _ := false
  inFlight := ∅
  unregistered := ∅
  redo _ := false
  jobs _ := none

/-! ## Done bits -/

/-- The catalog's answer: the bit is set, or the segment row is gone. -/
def doneIn (segments : Nat → Option SliceBitmap) (x : Slice) : Bool :=
  match segments x.segment with
  | none => true
  | some b => b.isDone x.ordinal

/-- mirrors src/buffer/wal_handle.rs:217-240 -/
def sliceIsDone (s : St) (x : Slice) : Bool := s.inMemoryDone x || doneIn s.segments x

def ordinalsOf (refs : Finset Slice) (g : Nat) : Finset Nat :=
  (refs.filter fun x => x.segment = g).image Slice.ordinal

/-- Set the bits of `refs` in one segment row; the row goes when all its
slices are done and it may be reclaimed.
mirrors wal_handle.rs:438-478 and 1157-1192 -/
def completeIn (b : SliceBitmap) (ordinals : Finset Nat) (reclaim : Bool) : Option SliceBitmap :=
  if (b.orBits ordinals).allDone && reclaim then none else some (b.orBits ordinals)

/-- `mark_acked_ordinals_in_memory` for the segments whose row was found. -/
def markDone (s : St) (refs : Finset Slice) (x : Slice) : Bool :=
  s.inMemoryDone x ||
    match s.segments x.segment with
    | none => false
    | some b => decide (x ∈ refs) && decide (x.ordinal < b.sliceCount)

/-! ## The planner's index -/

/-- mirrors compaction_index.rs:255-257 -/
def fenced (m : Map CompactionId Bool) (x : Slice) : Bool :=
  m.keys.any fun c => decide (x ∈ c.refs)

/-- `classify_available`, or `set_fenced` if a manifest names the slice. -/
def classify (m : Map CompactionId Bool) (x : Slice) : SliceState :=
  if fenced m x then .fenced else .available

/-- mirrors compaction_index.rs:634-670 -/
def upsertManifest (s : St) (c : CompactionId) (state : TxnState) : St :=
  let reserveIfNew := decide (∃ x ∈ c.refs, s.index x = some .reserved)
  let reserved := (s.manifests.get c).getD reserveIfNew
  let m := if state = .acked then s.manifests.erase c else s.manifests.insert c reserved
  { s with
    manifests := m
    index := fun x =>
      if x ∈ c.refs then
        match s.index x with
        | none => none
        | some .reserved => some .reserved
        | some _ => some (classify m x)
      else s.index x }

/-- mirrors compaction_index.rs:672-684 -/
def removeManifest (s : St) (c : CompactionId) : St :=
  let m := s.manifests.erase c
  { s with
    manifests := m
    index := fun x =>
      if x ∈ c.refs ∧ s.index x = some .fenced then some (classify m x) else s.index x }

/-- mirrors compaction_index.rs:615-632 and 686-688 -/
def release (s : St) (c : CompactionId) : St :=
  { s with
    manifests := match s.manifests.get c with
      | none => s.manifests
      | some _ => s.manifests.insert c false
    index := fun x =>
      if x ∈ c.refs ∧ s.index x = some .reserved then some (classify s.manifests x)
      else s.index x }

def completeRefs (s : St) (refs : Finset Slice) : St :=
  { s with index := fun x => if x ∈ refs then none else s.index x }

/-! ## Steps -/

/-- `put_compaction`, then the planner's copy.
mirrors ingest_buffer.rs:2012-2036 -/
def persistCompactionRow (s : St) (c : CompactionId) (state : TxnState) : St :=
  upsertManifest { s with compactions := s.compactions.insert c state } c state

/-- mirrors ingest_buffer.rs:2038-2063 -/
def removeCompactionRow (s : St) (c : CompactionId) : St :=
  removeManifest { s with compactions := s.compactions.erase c } c

def endJob (s : St) (n : Nat) (j : Job) : St :=
  let s' := release s j.txn
  { s' with
    inFlight := s'.inFlight \ j.entries
    jobs := Function.update s'.jobs n none }

def setPc (s : St) (n : Nat) (j : Job) (pc : Pc) : St :=
  { s with jobs := Function.update s.jobs n (some { j with pc := pc }) }

/-- A restart: `hydrate_from_catalog`. Segments in `skipped` are unreadable or
belong to another storage layer. Acked rows are not installed as manifests.
mirrors ingest_buffer.rs:1800-1899 -/
def hydrate (s : St) (skipped : Finset Nat) : St :=
  let m : Map CompactionId Bool :=
    s.compactions.filterMap fun state => if state = .acked then none else some false
  { s with
    manifests := m
    manifestsLoaded := true
    index := fun x =>
      match s.committed x.segment, s.segments x.segment with
      | some n, some _ =>
        if x.ordinal < n ∧ x.segment ∉ skipped ∧ sliceIsDone s x = false then some (classify m x)
        else none
      | _, _ => none }

/-- A new segment row with no bit set.
mirrors wal_handle.rs:739-818 -/
def commitSegment (s : St) (g slices : Nat) : St :=
  { s with
    segments := Function.update s.segments g (some (SliceBitmap.new (max slices 1)))
    committed := Function.update s.committed g (some slices)
    unregistered := insert g s.unregistered }

/-- mirrors ingest_buffer.rs:1736-1786 -/
def registerSegment (s : St) (g : Nat) : St :=
  { s with
    unregistered := s.unregistered.erase g
    index := fun x =>
      if x.segment = g then
        match s.committed g with
        | some n =>
          if x.ordinal < n ∧ sliceIsDone s x = false then some (classify s.manifests x) else none
        | none => none
      else s.index x }

/-- mirrors wal_handle.rs:301-315 and 242-253 -/
def applyAckedInMemory (s : St) : St :=
  { s with
    inMemoryDone := fun x =>
      match s.segments x.segment with
      | none => false
      | some b => b.isDone x.ordinal
    redo := fun c => s.redo c ||
      match s.compactions.get c with
      | none => false
      | some state => state = .acked || decide (∀ x ∈ c.refs, doneIn s.segments x = true) }

def allRefs (batch : List CompactionId) : Finset Slice :=
  batch.foldr (fun c r => c.refs ∪ r) ∅

def eraseAll (m : Map CompactionId TxnState) (batch : List CompactionId) : Map CompactionId TxnState :=
  batch.foldl (fun m c => m.erase c) m

/-- One batch of the redo, one catalog transaction.
mirrors wal_handle.rs:415-525 -/
def flushAckedBatch (s : St) (batch : List CompactionId) : St :=
  { s with
    segments := fun g =>
      match s.segments g with
      | none => none
      | some b =>
        if ∃ x ∈ allRefs batch, x.segment = g then completeIn b (ordinalsOf (allRefs batch) g) true
        else some b
    compactions := eraseAll s.compactions batch
    inMemoryDone := markDone s (allRefs batch) }

/-- mirrors wal_handle.rs:1144-1218 -/
def completeSlicesAndReclaim (s : St) (g : Nat) (refs : Finset Slice) (allowsReclaim : Bool) : St :=
  { s with
    segments := Function.update s.segments g
      ((s.segments g).bind fun b => completeIn b (ordinalsOf refs g) allowsReclaim)
    inMemoryDone := markDone s (refs.filter fun x => x.segment = g) }

def forgetSegment (s : St) (g : Nat) : St :=
  { s with
    inMemoryDone := fun x => if x.segment = g then false else s.inMemoryDone x
    index := fun x => if x.segment = g then none else s.index x }

def crash (s : St) : St :=
  { init with
    segments := s.segments, compactions := s.compactions, applied := s.applied
    committed := s.committed }

/-- `work_from_manifest`: the refs that are already done leave the index, the
others are the entries of the job.
mirrors ingest_buffer.rs:2215-2293 -/
def resumeManifest (s : St) (n : Nat) (c : CompactionId) : St :=
  let s' := completeRefs s (c.refs.filter fun x => sliceIsDone s x = true)
  { s' with
    manifests := s'.manifests.insert c true
    jobs := Function.update s'.jobs n
      (some ⟨c, c.refs.filter fun x => sliceIsDone s x = false, .built false⟩) }

/-- `plan_ready` reserves the slices and a transaction is built over them.
mirrors ingest_buffer.rs:2122-2152 -/
def planGroup (s : St) (n header : Nat) (refs : Finset Slice) : St :=
  { s with
    index := fun x => if x ∈ refs then some .reserved else s.index x
    jobs := Function.update s.jobs n (some ⟨⟨header, refs⟩, refs, .built true⟩) }

/-- The next action of a job. `write` carries whether the sink applied the
group and whether it answered Ok; `fail` is an error or an early return. -/
inductive Act
  | mark
  | persistPending
  | persistSent
  | write (applies ok : Bool)
  | persistAcked
  | completeRefs
  | reclaim (g : Nat) (allowsReclaim : Bool)
  | deleteRow
  | removeRow
  | fail
deriving DecidableEq

/-- The sink ignores an id it has applied. -/
def sinkApply (applied : List CompactionId) (c : CompactionId) : List CompactionId :=
  if c ∈ applied then applied else applied ++ [c]

/-- mirrors ingest_buffer.rs:3483-3748 -/
def jobStep (s : St) (n : Nat) (j : Job) : Act → Option St
  | .mark =>
    match j.pc with
    | .built planned =>
      if j.entries ∩ s.inFlight = ∅ then
        some (setPc { s with inFlight := s.inFlight ∪ j.entries } n j (.marked planned))
      else
        some { release s j.txn with jobs := Function.update s.jobs n none }
    | _ => none
  | .persistPending =>
    match j.pc with
    | .marked _ => some (setPc (persistCompactionRow s j.txn .pending) n j .pending)
    | _ => none
  | .persistSent =>
    if j.pc = .pending then some (setPc (persistCompactionRow s j.txn .sent) n j .sent) else none
  | .write applies ok =>
    if j.pc = .sent ∧ (ok = true → applies = true) then
      let s' := if applies then { s with applied := sinkApply s.applied j.txn } else s
      some (if ok then setPc s' n j .written else endJob s' n j)
    else none
  | .persistAcked =>
    if j.pc = .written then some (setPc (persistCompactionRow s j.txn .acked) n j .acked) else none
  | .completeRefs =>
    if j.pc = .acked then
      some (setPc (completeRefs s j.txn.refs) n j (.reclaiming (j.entries.image Slice.segment)))
    else none
  | .reclaim g allowsReclaim =>
    match j.pc with
    | .reclaiming left =>
      if g ∈ left then
        some (setPc (completeSlicesAndReclaim s g j.entries allowsReclaim) n j
          (.reclaiming (left.erase g)))
      else none
    | _ => none
  | .deleteRow =>
    if j.pc = .reclaiming ∅ then
      match s.compactions.get j.txn with
      | some _ => some (setPc { s with compactions := s.compactions.erase j.txn } n j .deleted)
      | none => some (endJob s n j)
    else none
  | .removeRow =>
    if j.pc = .deleted then some (endJob (removeCompactionRow s j.txn) n j) else none
  | .fail =>
    match j.pc with
    | .built _ => none
    | _ => some (endJob s n j)

inductive Lbl
  | commit (g slices : Nat)
  | register (g : Nat)
  | crash
  | startup (skipped : Finset Nat)
  | listAcked
  | flushAcked (batch : List CompactionId)
  | forget (g : Nat)
  | resume (n : Nat) (c : CompactionId)
  | plan (n header : Nat) (refs : Finset Slice)
  | job (n : Nat) (a : Act)
deriving DecidableEq

/-- mirrors wal_handle.rs:27-33 -/
def redoAckedBatch : Nat := 32

def step (s : St) : Lbl → Option St
  | .commit g slices =>
    if s.committed g = none ∧ s.manifestsLoaded = true then some (commitSegment s g slices) else none
  | .register g => if g ∈ s.unregistered then some (registerSegment s g) else none
  | .crash => some (crash s)
  | .startup skipped => if s.manifestsLoaded = false then some (hydrate s skipped) else none
  | .listAcked => if s.manifestsLoaded = true then some (applyAckedInMemory s) else none
  | .flushAcked batch =>
    if batch.length ≤ redoAckedBatch ∧ ∀ c ∈ batch, s.redo c = true then
      some (flushAckedBatch s batch)
    else none
  | .forget g => if s.segments g = none ∧ s.committed g ≠ none then some (forgetSegment s g) else none
  | .resume n c =>
    if s.manifestsLoaded = true ∧ s.jobs n = none ∧ s.manifests.get c = some false ∧
        (∀ x ∈ c.refs, x ∉ s.inFlight) ∧ ∃ x ∈ c.refs, sliceIsDone s x = false then
      some (resumeManifest s n c)
    else none
  | .plan n header refs =>
    if s.manifestsLoaded = true ∧ s.jobs n = none ∧ refs ≠ ∅ ∧
        ∀ x ∈ refs, s.index x = some .available then
      some (planGroup s n header refs)
    else none
  | .job n a =>
    match s.jobs n with
    | none => none
    | some j => jobStep s n j a

def lts : LTS St Lbl := LTS.ofFn (· = init) step

end Skippr.L5.Compactor
