import Skippr.Core.Batch
import Skippr.Core.Fallible
import Skippr.L1Encoding.WalSliceRef

/-!
# The WAL catalog: conditional transactions over the Skippr store

A catalog transaction is a list of puts and deletes, each under a condition on
the stored row (crates/skippr-wal-catalog). `catalog_commit` evaluates every
condition against the store as it is, then writes all effects as one batch, on
the memory store and on the fjall store.

The stored bytes are a type of their own: a `Codec` says how a row is
serialised, how long the bytes are and what their digest is.

* `CatalogKey.encode_injective`: rows of different keys are stored apart.
-/
namespace Skippr.L2.Catalog

open Skippr.L1

/-! ## Keys -/

theorem notMem_of_valid {value : Text} (h : validatePathComponent value = .ok ()) {c : Char}
    (hc : c ∈ reservedChars) : c ∉ value :=
  SegmentId.notMem_raw ⟨value, h⟩ hc

/-- mirrors crates/skippr-wal-catalog/src/key.rs:6-18 -/
@[ext] structure CompactionId where
  raw : Text
  valid : validatePathComponent raw = .ok ()

instance : DecidableEq CompactionId := fun a b =>
  decidable_of_iff (a.raw = b.raw) CompactionId.ext_iff.symm

/-- mirrors key.rs:23-35 -/
@[ext] structure CheckpointKey where
  raw : Text
  valid : validatePathComponent raw = .ok ()

instance : DecidableEq CheckpointKey := fun a b =>
  decidable_of_iff (a.raw = b.raw) CheckpointKey.ext_iff.symm

/-- mirrors key.rs:38-65 -/
@[ext] structure OffsetHintKey where
  ns : Text
  partition : Text
  nsValid : validatePathComponent ns = .ok ()
  partitionValid : validatePathComponent partition = .ok ()

instance : DecidableEq OffsetHintKey := fun a b =>
  decidable_of_iff (a.ns = b.ns ∧ a.partition = b.partition) OffsetHintKey.ext_iff.symm

/-- mirrors key.rs:100-109 -/
inductive CatalogKey
  | segment (id : SegmentId)
  | index (id : SegmentId)
  | legacySlice (segmentId : SegmentId) (ordinal : UInt32)
  | compaction (id : CompactionId)
  | checkpoint (key : CheckpointKey)
  | offsetHint (key : OffsetHintKey)
  | seq
  | format
deriving DecidableEq

/-- `wal#` -/
def wal : Text := ['w', 'a', 'l', '#']

/-- mirrors key.rs:112-128 -/
def CatalogKey.encode : CatalogKey → Text
  | .segment id => wal ++ ['s', 'e', 'g', '#'] ++ id.raw
  | .index id => wal ++ ['i', 'd', 'x', '#'] ++ id.raw
  | .legacySlice id ordinal =>
    wal ++ ['s', 'l', 'i', 'c', 'e', '#'] ++ id.raw ++ '#' :: showNat ordinal.toNat
  | .compaction id => wal ++ ['c', 'm', 'p', '#'] ++ id.raw
  | .checkpoint key => wal ++ ['c', 'p', '#'] ++ key.raw
  | .offsetHint key => wal ++ ['h', 'i', 'n', 't', '#'] ++ key.ns ++ '#' :: key.partition
  | .seq => wal ++ ['s', 'e', 'q']
  | .format => wal ++ ['f', 'o', 'r', 'm', 'a', 't']

/-- `StoreFamily::Catalog.key`: `catalog/` before the encoded key.
mirrors crates/skippr-wal-catalog/src/kv.rs:20-37 -/
def storeKey (key : CatalogKey) : Text :=
  ['c', 'a', 't', 'a', 'l', 'o', 'g', '/'] ++ key.encode

theorem append_hash_inj {a b c d : Text} (ha : '#' ∉ a) (hc : '#' ∉ c)
    (h : a ++ '#' :: b = c ++ '#' :: d) : a = c ∧ b = d := by
  have hsplit := congrArg (splitOnce '#') h
  rw [splitOnce_append ha, splitOnce_append hc] at hsplit
  exact Prod.mk.inj (Option.some.inj hsplit)

theorem showNat_toNat_inj {a b : UInt32} (h : showNat a.toNat = showNat b.toNat) : a = b := by
  have hlt : ∀ n : UInt32, n.toNat < 2 ^ 64 := fun n => by
    have := n.toNat_lt
    omega
  have hparse := congrArg parseU64 h
  rw [parseU64_showNat (hlt a), parseU64_showNat (hlt b)] at hparse
  exact UInt32.toNat_inj.1 (Option.some.inj hparse)

theorem CatalogKey.encode_injective : Function.Injective CatalogKey.encode := by
  have hseg : ∀ id : SegmentId, '#' ∉ id.raw := fun id => id.notMem_raw (by decide)
  have hns : ∀ key : OffsetHintKey, '#' ∉ key.ns := fun key => notMem_of_valid key.nsValid (by decide)
  intro a b h
  cases a <;> cases b <;>
    simp only [CatalogKey.encode, wal, List.cons_append, List.nil_append,
      List.cons.injEq, true_and, Char.reduceEq, false_and, and_false, reduceCtorEq] at h
  case segment.segment x y => cases x; cases y; cases h; rfl
  case index.index x y => cases x; cases y; cases h; rfl
  case compaction.compaction x y => cases x; cases y; cases h; rfl
  case checkpoint.checkpoint x y => cases x; cases y; cases h; rfl
  case legacySlice.legacySlice x i y j =>
    obtain ⟨hid, hord⟩ := append_hash_inj (hseg x) (hseg y) h
    obtain rfl := showNat_toNat_inj hord
    cases x; cases y; cases hid; rfl
  case offsetHint.offsetHint x y =>
    obtain ⟨hn, hp⟩ := append_hash_inj (hns x) (hns y) h
    cases x; cases y; cases hn; cases hp; rfl
  all_goals rfl

/-! ## Rows -/

/-- A row: its version, and in `B` the rest of its fields.
mirrors crates/skippr-wal-catalog/src/row.rs:233-243 -/
inductive CatalogRow (B : Type)
  | segment (version : Nat) (body : B)
  | index (version : Nat) (body : B)
  | legacySlice (version : Nat) (body : B)
  | compaction (version : Nat) (body : B)
  | control (version : Nat) (body : B)
  | seq (maxSeq : Nat)
  | format (rowVersion : Nat) (body : B)
deriving DecidableEq, Repr

/-- mirrors row.rs:265-275 -/
def CatalogRow.version {B : Type} : CatalogRow B → Option Nat
  | .segment version _ => some version
  | .index version _ => some version
  | .legacySlice version _ => some version
  | .compaction version _ => some version
  | .control version _ => some version
  | .format rowVersion _ => some rowVersion
  | .seq _ => none

inductive CatalogError
  | txnFull
  | rowTooLarge (bytes : Nat)
  | fenced
  | conditionFailed
  | versionMustAdvance
  | legacyRowWrite
  /-- A message of bincode. -/
  | codec (message : Text)
  /-- "SeqRow has no version; use SeqAdvance" -/
  | seqRowHasNoVersion
  /-- "SeqAdvance requires SeqRow" -/
  | seqAdvanceRequiresSeqRow
  | io (message : Text)
  | seqOpOnNonSeqKey
deriving DecidableEq, Repr

/-- The serialisation of rows to stored values `V` with digests `H`. -/
structure Codec (B V H : Type) where
  serialize : CatalogRow B → V
  deserialize : V → Except Text (CatalogRow B)
  len : V → Nat
  sha256 : V → H
  roundtrip : ∀ row, deserialize (serialize row) = .ok row

/-- mirrors row.rs:11 -/
def rowMaxBytes : Nat := 4 * 1024 * 1024

section Model
variable {B V H : Type}

/-- mirrors row.rs:246-252 -/
def Codec.encode (c : Codec B V H) (row : CatalogRow B) : Except CatalogError V :=
  if c.len (c.serialize row) > rowMaxBytes then .error (.rowTooLarge (c.len (c.serialize row)))
  else .ok (c.serialize row)

/-- mirrors row.rs:254-259 -/
def Codec.decode (c : Codec B V H) (bytes : V) : Except CatalogError (CatalogRow B) :=
  if c.len bytes > rowMaxBytes then .error (.rowTooLarge (c.len bytes))
  else (c.deserialize bytes).mapError .codec

/-! ## Operations and transactions -/

inductive PutCond
  | notExists
  | sameSha
  | version (expected : Nat)
  | seqAdvance
deriving DecidableEq, Repr

inductive DeleteCond
  | exists
  | version (expected : Nat)
deriving DecidableEq, Repr

/-- mirrors row.rs:292-303 -/
inductive CatalogOp (B : Type)
  | put (key : CatalogKey) (row : CatalogRow B) (cond : PutCond)
  | delete (key : CatalogKey) (cond : DeleteCond)
deriving DecidableEq

def CatalogOp.key : CatalogOp B → CatalogKey
  | .put key _ _ => key
  | .delete key _ => key

def CatalogOp.row : CatalogOp B → Option (CatalogRow B)
  | .put _ row _ => some row
  | .delete _ _ => none

/-- mirrors crates/skippr-wal-catalog/src/txn.rs:5 -/
def txnMaxOps : Nat := 99

/-- The operations `push` lets into a transaction.
mirrors txn.rs:21-39 -/
def Pushable (c : Codec B V H) : CatalogOp B → Prop
  | .put key row cond =>
    (cond = .seqAdvance → key = .seq) ∧ c.len (c.serialize row) ≤ rowMaxBytes
  | .delete _ _ => True

/-- mirrors txn.rs:7-15 -/
structure CatalogTxn (c : Codec B V H) where
  ops : List (CatalogOp B)
  bounded : ops.length ≤ txnMaxOps
  pushable : ∀ op ∈ ops, Pushable c op

def CatalogTxn.new (c : Codec B V H) : CatalogTxn c := ⟨[], Nat.zero_le _, fun _ h => by cases h⟩

def CatalogTxn.append {c : Codec B V H} (txn : CatalogTxn c) (op : CatalogOp B)
    (hlen : txn.ops.length < txnMaxOps) (hop : Pushable c op) : CatalogTxn c where
  ops := txn.ops ++ [op]
  bounded := by rw [List.length_append, List.length_singleton]; exact hlen
  pushable o ho := by
    cases List.mem_append.1 ho with
    | inl h => exact txn.pushable o h
    | inr h => exact List.mem_singleton.1 h ▸ hop

/-- mirrors txn.rs:17-42 -/
def CatalogTxn.push {c : Codec B V H} (txn : CatalogTxn c) :
    CatalogOp B → Except CatalogError (CatalogTxn c)
  | op =>
    if hlen : txnMaxOps ≤ txn.ops.length then .error .txnFull
    else
      match op with
      | .put key row cond =>
        if hseq : cond = .seqAdvance ∧ key ≠ .seq then .error .seqOpOnNonSeqKey
        else if hsize : rowMaxBytes < c.len (c.serialize row) then
          .error (.rowTooLarge (c.len (c.serialize row)))
        else .ok (txn.append (.put key row cond) (Nat.lt_of_not_le hlen)
          ⟨fun h => not_not.1 fun hk => hseq ⟨h, hk⟩, Nat.le_of_not_lt hsize⟩)
      | .delete key cond => .ok (txn.append (.delete key cond) (Nat.lt_of_not_le hlen) trivial)

/-- mirrors crates/skippr-wal-catalog/src/apply.rs:6-23 -/
def validatePut : CatalogOp B → Except CatalogError Unit
  | .put _ row cond =>
    match row with
    | .legacySlice _ _ => .error .legacyRowWrite
    | _ =>
      match cond with
      | .version expected =>
        if expected + 1 < 2 ^ 64 ∧ row.version = some (expected + 1) then .ok ()
        else .error .versionMustAdvance
      | _ => .ok ()
  | .delete _ _ => .ok ()

/-- mirrors apply.rs:109-113 -/
def rowVersion (c : Codec B V H) (bytes : V) : Except CatalogError Nat := do
  let row ← c.decode bytes
  match row.version with
  | some version => .ok version
  | none => .error .seqRowHasNoVersion

/-- `if row_version(existing)? != expected` -/
def checkVersion (c : Codec B V H) (expected : Nat) : Option V → Except CatalogError Unit
  | none => .error .conditionFailed
  | some existing => do
    let version ← rowVersion c existing
    if version = expected then .ok () else .error .conditionFailed

/-- mirrors apply.rs:58-73 -/
def checkSeqAdvance (c : Codec B V H) (key : CatalogKey) (row : CatalogRow B) (existing : Option V) :
    Except CatalogError Unit :=
  if key ≠ .seq then .error .seqOpOnNonSeqKey
  else
    match row, existing with
    | .seq _, none => .ok ()
    | .seq maxSeq, some bytes => do
      match ← c.decode bytes with
      | .seq old => if old < maxSeq then .ok () else .error .conditionFailed
      | _ => .error .conditionFailed
    | _, _ => .error .seqAdvanceRequiresSeqRow

/-- mirrors apply.rs:36-74 -/
def checkPut [DecidableEq H] (c : Codec B V H) (key : CatalogKey) (row : CatalogRow B) (incoming : V)
    (existing : Option V) : PutCond → Except CatalogError Unit
  | .notExists => if existing.isSome then .error .conditionFailed else .ok ()
  | .sameSha =>
    match existing with
    | none => .error .conditionFailed
    | some bytes => if c.sha256 bytes = c.sha256 incoming then .ok () else .error .conditionFailed
  | .version expected => checkVersion c expected existing
  | .seqAdvance => checkSeqAdvance c key row existing

/-- mirrors apply.rs:82-96 -/
def checkDelete (c : Codec B V H) (existing : Option V) : DeleteCond → Except CatalogError Unit
  | .exists => if existing.isSome then .ok () else .error .conditionFailed
  | .version expected => checkVersion c expected existing

/-- mirrors apply.rs:104-107 -/
inductive Applied (V : Type)
  | put (key : CatalogKey) (bytes : V)
  | delete (key : CatalogKey)

/-- One turn of the loop of `eval_ops`.
mirrors apply.rs:30-100 -/
def evalOp [DecidableEq H] (c : Codec B V H) (get : CatalogKey → Except CatalogError (Option V)) :
    CatalogOp B → Except CatalogError (Applied V)
  | .put key row cond => do
    validatePut (.put key row cond)
    let incoming ← c.encode row
    let existing ← get key
    checkPut c key row incoming existing cond
    return .put key incoming
  | .delete key cond => do
    let existing ← get key
    checkDelete c existing cond
    return .delete key

/-- mirrors apply.rs:25-102 -/
def evalOps [DecidableEq H] (c : Codec B V H) (txn : CatalogTxn c)
    (get : CatalogKey → Except CatalogError (Option V)) : Except CatalogError (List (Applied V)) :=
  txn.ops.mapM (evalOp c get)

/-! ## The two stores -/

structure CatalogFence where
  owner : Text
  epoch : Nat
deriving DecidableEq, Repr

abbrev KvOp (V : Type) := Write Text V

/-- mirrors crates/skippr-wal-catalog/src/memory_kv.rs:14-18 -/
structure MemorySkipprStore (V : Type) where
  rows : Map Text V
  fence : Option CatalogFence
  released : Bool

/-- mirrors crates/skippr-wal-catalog/src/fjall_kv.rs:18-24 -/
structure FjallSkipprStore (V : Type) where
  rows : Map Text V
  fence : CatalogFence

/-- `&dyn SkipprStore` -/
inductive SkipprStore (V : Type)
  | memory (inner : MemorySkipprStore V)
  | fjall (inner : FjallSkipprStore V)

/-- I/O errors of the fjall store: reading a key, writing a batch. -/
structure Faults where
  get : Text → Option Text
  batch : Option Text

def SkipprStore.rows : SkipprStore V → Map Text V
  | .memory inner => inner.rows
  | .fjall inner => inner.rows

/-- mirrors memory_kv.rs:105-107, fjall_kv.rs:238-246 -/
def SkipprStore.get (faults : Faults) (key : Text) : SkipprStore V → Except CatalogError (Option V)
  | .memory inner => .ok (inner.rows.get key)
  | .fjall inner =>
    match faults.get key with
    | some err => .error (.io err)
    | none => .ok (inner.rows.get key)

/-- mirrors memory_kv.rs:67-76 -/
def MemorySkipprStore.checkFence (inner : MemorySkipprStore V) (fence : CatalogFence) :
    Except CatalogError Unit :=
  match inner.fence with
  | some owned =>
    if owned.owner = fence.owner ∧ owned.epoch = fence.epoch ∧ inner.released = false then .ok ()
    else .error .fenced
  | none => .error .fenced

/-- mirrors fjall_kv.rs:70-77 -/
def FjallSkipprStore.checkFence (inner : FjallSkipprStore V) (fence : CatalogFence) :
    Except CatalogError Unit :=
  if inner.fence.owner = fence.owner ∧ inner.fence.epoch = fence.epoch then .ok ()
  else .error .fenced

/-- mirrors memory_kv.rs:120-134 -/
def MemorySkipprStore.commit (inner : MemorySkipprStore V) (ops : List (KvOp V))
    (fence : CatalogFence) : Except CatalogError Unit × MemorySkipprStore V :=
  match inner.checkFence fence with
  | .error e => (.error e, inner)
  | .ok () => (.ok (), { inner with rows := applyWrites inner.rows ops })

/-- mirrors fjall_kv.rs:181-194 -/
def FjallSkipprStore.commit (faults : Faults) (inner : FjallSkipprStore V) (ops : List (KvOp V))
    (fence : CatalogFence) : Except CatalogError Unit × FjallSkipprStore V :=
  match inner.checkFence fence with
  | .error e => (.error e, inner)
  | .ok () =>
    match faults.batch with
    | some err => (.error (.io err), inner)
    | none => (.ok (), { inner with rows := applyWrites inner.rows ops })

def SkipprStore.commit (faults : Faults) (ops : List (KvOp V)) (fence : CatalogFence) :
    SkipprStore V → Except CatalogError Unit × SkipprStore V
  | .memory inner => (inner.commit ops fence).map id .memory
  | .fjall inner => (inner.commit faults ops fence).map id .fjall

def Applied.kvOp : Applied V → KvOp V
  | .put key bytes => .put (storeKey key) bytes
  | .delete key => .delete (storeKey key)

/-- mirrors memory_kv.rs:233-254 -/
def catalogCommit [DecidableEq H] (c : Codec B V H) (faults : Faults) (store : SkipprStore V)
    (txn : CatalogTxn c) (fence : CatalogFence) : Except CatalogError Unit × SkipprStore V :=
  match evalOps c txn fun key => store.get faults (storeKey key) with
  | .error e => (.error e, store)
  | .ok planned => store.commit faults (planned.map (·.kvOp)) fence

/-! ## What the conditions mean -/

def HasVersion (c : Codec B V H) (existing : Option V) (version : Nat) : Prop :=
  ∃ bytes row, existing = some bytes ∧ c.decode bytes = .ok row ∧ row.version = some version

/-- The condition of an operation, read on what is stored under its key. -/
def CondHolds (c : Codec B V H) (existing : Option V) : CatalogOp B → Prop
  | .put _ _ .notExists => existing = none
  | .put _ row .sameSha =>
    ∃ bytes, existing = some bytes ∧ c.sha256 bytes = c.sha256 (c.serialize row)
  | .put _ _ (.version expected) => HasVersion c existing expected
  | .put key row .seqAdvance => key = .seq ∧ ∃ maxSeq, row = .seq maxSeq ∧
    ∀ bytes, existing = some bytes → ∃ old, c.decode bytes = .ok (.seq old) ∧ old < maxSeq
  | .delete _ .exists => existing ≠ none
  | .delete _ (.version expected) => HasVersion c existing expected

/-- What an operation must be, whatever the store holds. -/
def Valid (c : Codec B V H) : CatalogOp B → Prop
  | .put _ row cond =>
    (∀ version body, row ≠ .legacySlice version body) ∧
      c.len (c.serialize row) ≤ rowMaxBytes ∧
      ∀ expected, cond = .version expected →
        expected + 1 < 2 ^ 64 ∧ row.version = some (expected + 1)
  | .delete _ _ => True

namespace SkipprStore

def Owns (fence : CatalogFence) : SkipprStore V → Prop
  | .memory inner => inner.fence = some fence ∧ inner.released = false
  | .fjall inner => inner.fence = fence

def Readable (faults : Faults) (key : Text) : SkipprStore V → Prop
  | .memory _ => True
  | .fjall _ => faults.get key = none

def Writable (faults : Faults) : SkipprStore V → Prop
  | .memory _ => True
  | .fjall _ => faults.batch = none

end SkipprStore

structure Accepts (c : Codec B V H) (faults : Faults) (store : SkipprStore V)
    (ops : List (CatalogOp B)) (fence : CatalogFence) : Prop where
  owns : store.Owns fence
  writable : store.Writable faults
  readable : ∀ op ∈ ops, store.Readable faults (storeKey op.key)
  valid : ∀ op ∈ ops, Valid c op
  holds : ∀ op ∈ ops, CondHolds c (store.rows.get (storeKey op.key)) op

/-- Operations that name the same key put the same row or all delete it. -/
def Agree (ops : List (CatalogOp B)) : Prop :=
  ∀ a ∈ ops, ∀ b ∈ ops, a.key = b.key → a.row = b.row

/-- What a transaction is to do to the content of a store. -/
structure Done (c : Codec B V H) (pre post : Text → Option V) (ops : List (CatalogOp B)) : Prop where
  held : ∀ op ∈ ops, CondHolds c (pre (storeKey op.key)) op
  stored : ∀ op ∈ ops, post (storeKey op.key) = op.row.map c.serialize
  unnamed : ∀ k, (∀ op ∈ ops, storeKey op.key ≠ k) → post k = pre k
  versions : ∀ key row version, .put key row (.version version) ∈ ops →
    HasVersion c (pre (storeKey key)) version ∧ HasVersion c (post (storeKey key)) (version + 1)

/-! ## One operation -/

variable {c : Codec B V H} {row : CatalogRow B}

theorem encode_ok_iff {bytes : V} :
    c.encode row = .ok bytes ↔ c.len (c.serialize row) ≤ rowMaxBytes ∧ bytes = c.serialize row := by
  unfold Codec.encode
  split
  · rename_i h
    constructor
    · intro he
      cases he
    · intro he
      omega
  · rename_i h
    constructor
    · intro he
      cases he
      exact ⟨by omega, rfl⟩
    · intro he
      rw [he.2]

theorem validatePut_ok_iff {key : CatalogKey} {cond : PutCond} :
    validatePut (.put key row cond) = .ok () ↔ (∀ version body, row ≠ .legacySlice version body) ∧
      ∀ expected, cond = .version expected →
        expected + 1 < 2 ^ 64 ∧ row.version = some (expected + 1) := by
  have hlegacy : (∀ version body, row ≠ .legacySlice version body) ∨
      ∃ version body, row = .legacySlice version body := by
    cases row <;> simp
  cases hlegacy with
  | inr h =>
    obtain ⟨version, body, rfl⟩ := h
    simp [validatePut]
  | inl h =>
    have hcond : validatePut (.put key row cond) = .ok () ↔ ∀ expected, cond = .version expected →
        expected + 1 < 2 ^ 64 ∧ row.version = some (expected + 1) := by
      cases cond <;> simp [validatePut]
    rw [hcond, and_iff_right h]

theorem rowVersion_ok_iff {bytes : V} {version : Nat} :
    rowVersion c bytes = .ok version ↔
      ∃ row, c.decode bytes = .ok row ∧ row.version = some version := by
  simp only [rowVersion, bind_eq_ok]
  constructor
  · intro h
    obtain ⟨row, hrow, hv⟩ := h
    refine ⟨row, hrow, ?_⟩
    split at hv
    · rename_i v hv'
      cases hv
      exact hv'
    · cases hv
  · intro h
    obtain ⟨row, hrow, hv⟩ := h
    exact ⟨row, hrow, by rw [hv]⟩

theorem checkVersion_ok_iff {expected : Nat} {existing : Option V} :
    checkVersion c expected existing = .ok () ↔ HasVersion c existing expected := by
  unfold HasVersion
  cases existing with
  | none => simp [checkVersion]
  | some bytes =>
    have hguard : ∀ version : Nat, (if version = expected then Except.ok ()
        else Except.error CatalogError.conditionFailed : Except CatalogError Unit) = .ok () ↔
          version = expected := fun version => by
      split <;> simp_all
    simp only [checkVersion, bind_eq_ok, hguard, exists_eq_right, rowVersion_ok_iff]
    simp

theorem checkSeqAdvance_ok_iff {key : CatalogKey} {existing : Option V} :
    checkSeqAdvance c key row existing = .ok () ↔ key = .seq ∧ ∃ maxSeq, row = .seq maxSeq ∧
      ∀ bytes, existing = some bytes → ∃ old, c.decode bytes = .ok (.seq old) ∧ old < maxSeq := by
  unfold checkSeqAdvance
  split
  · rename_i hkey
    simp [hkey]
  · rename_i hkey
    rw [and_iff_right (not_not.1 hkey)]
    cases row with
    | seq maxSeq =>
      cases existing with
      | none => simp
      | some bytes =>
        cases hrow : c.decode bytes with
        | error e => simp [hrow, bind, Except.bind]
        | ok row =>
          cases row with
          | seq old =>
            by_cases hlt : old < maxSeq <;> simp [hrow, hlt, bind, Except.bind]
          | _ => simp [hrow, bind, Except.bind]
    | _ => cases existing <;> simp

def CatalogOp.applied (c : Codec B V H) : CatalogOp B → Applied V
  | .put key row _ => .put key (c.serialize row)
  | .delete key _ => .delete key

section Commit
variable [DecidableEq H] {c : Codec B V H}

variable {existing : Option V} {faults : Faults} {store : SkipprStore V} {ops : List (CatalogOp B)}

theorem checkPut_ok_iff {key : CatalogKey} {row : CatalogRow B} {cond : PutCond} :
    checkPut c key row (c.serialize row) existing cond = .ok () ↔
      CondHolds c existing (.put key row cond) := by
  cases cond with
  | notExists => cases existing <;> simp [checkPut, CondHolds]
  | sameSha =>
    cases existing with
    | none => simp [checkPut, CondHolds]
    | some bytes =>
      by_cases hsha : c.sha256 bytes = c.sha256 (c.serialize row) <;> simp [checkPut, CondHolds, hsha]
  | version expected => exact checkVersion_ok_iff
  | seqAdvance => exact checkSeqAdvance_ok_iff

omit [DecidableEq H] in
theorem checkDelete_ok_iff (key : CatalogKey) {cond : DeleteCond} :
    checkDelete c existing cond = .ok () ↔
      CondHolds c existing (.delete key cond : CatalogOp B) := by
  cases cond with
  | «exists» => cases existing <;> simp [checkDelete, CondHolds]
  | version expected => exact checkVersion_ok_iff

/-- **One operation.** It passes if its key can be read, it is well formed and
its condition holds of what is stored. -/
theorem evalOp_ok_iff {get : CatalogKey → Except CatalogError (Option V)} {op : CatalogOp B}
    {applied : Applied V} :
    evalOp c get op = .ok applied ↔
      (∃ existing, get op.key = .ok existing ∧ Valid c op ∧ CondHolds c existing op) ∧
        applied = op.applied c := by
  cases op with
  | put key row cond =>
    simp only [evalOp, bind_eq_ok, encode_ok_iff]
    constructor
    · intro h
      obtain ⟨_, hvalid, incoming, ⟨hsize, rfl⟩, existing, hget, _, hcheck, happlied⟩ := h
      cases happlied
      obtain ⟨hrow, hversion⟩ := validatePut_ok_iff.1 hvalid
      exact ⟨⟨existing, hget, ⟨hrow, hsize, hversion⟩, checkPut_ok_iff.1 hcheck⟩, rfl⟩
    · intro h
      obtain ⟨⟨existing, hget, ⟨hrow, hsize, hversion⟩, hcond⟩, rfl⟩ := h
      exact ⟨(), validatePut_ok_iff.2 ⟨hrow, hversion⟩, _, ⟨hsize, rfl⟩, existing, hget, (),
        checkPut_ok_iff.2 hcond, rfl⟩
  | delete key cond =>
    simp only [evalOp, bind_eq_ok]
    constructor
    · intro h
      obtain ⟨existing, hget, _, hcheck, happlied⟩ := h
      cases happlied
      exact ⟨⟨existing, hget, trivial, (checkDelete_ok_iff key).1 hcheck⟩, rfl⟩
    · intro h
      obtain ⟨⟨existing, hget, -, hcond⟩, rfl⟩ := h
      exact ⟨existing, hget, (), (checkDelete_ok_iff key).2 hcond, rfl⟩

/-! ## The whole transaction -/

def CatalogOp.write (c : Codec B V H) (op : CatalogOp B) : KvOp V := (op.applied c).kvOp

omit [DecidableEq H] in
@[simp] theorem CatalogOp.write_key (op : CatalogOp B) : (op.write c).key = storeKey op.key := by
  cases op <;> rfl

omit [DecidableEq H] in
@[simp] theorem CatalogOp.write_effect (op : CatalogOp B) :
    (op.write c).effect = op.row.map c.serialize := by
  cases op <;> rfl

theorem get_ok_iff {key : Text} :
    store.get faults key = .ok existing ↔
      store.Readable faults key ∧ existing = store.rows.get key := by
  cases store with
  | memory inner => simp [SkipprStore.get, SkipprStore.Readable, SkipprStore.rows, eq_comm]
  | fjall inner =>
    cases hfault : faults.get key <;>
      simp [SkipprStore.get, SkipprStore.Readable, SkipprStore.rows, hfault, eq_comm]

theorem evalOps_ok_iff {txn : CatalogTxn c} {planned : List (Applied V)} :
    (evalOps c txn fun key => store.get faults (storeKey key)) = .ok planned ↔
      (∀ op ∈ txn.ops, store.Readable faults (storeKey op.key) ∧ Valid c op ∧
        CondHolds c (store.rows.get (storeKey op.key)) op) ∧
      planned = txn.ops.map (·.applied c) := by
  apply mapM_eq_ok
  intro op applied
  rw [evalOp_ok_iff]
  simp only [get_ok_iff]
  constructor
  · intro h
    obtain ⟨⟨existing, ⟨hread, rfl⟩, hrest⟩, happlied⟩ := h
    exact ⟨⟨hread, hrest⟩, happlied⟩
  · intro h
    obtain ⟨⟨hread, hrest⟩, happlied⟩ := h
    exact ⟨⟨_, ⟨hread, rfl⟩, hrest⟩, happlied⟩

theorem commit_cases (faults : Faults) (store : SkipprStore V) (ops : List (KvOp V))
    (fence : CatalogFence) :
    (store.Owns fence ∧ store.Writable faults ∧ (store.commit faults ops fence).1 = .ok () ∧
        (store.commit faults ops fence).2.rows = applyWrites store.rows ops) ∨
      (¬ (store.Owns fence ∧ store.Writable faults) ∧
        ∃ e, store.commit faults ops fence = (.error e, store)) := by
  cases store with
  | memory inner =>
    by_cases howns : inner.fence = some fence ∧ inner.released = false
    · left
      simp [SkipprStore.Owns, SkipprStore.Writable, SkipprStore.commit, MemorySkipprStore.commit,
        MemorySkipprStore.checkFence, howns, SkipprStore.rows]
    · right
      refine ⟨fun h => howns h.1, .fenced, ?_⟩
      have hfence : inner.checkFence fence = .error .fenced := by
        unfold MemorySkipprStore.checkFence
        split
        · rename_i owned howned
          rw [if_neg]
          intro hsame
          apply howns
          obtain ⟨howner, hepoch, hreleased⟩ := hsame
          cases owned
          cases fence
          simp_all
        · rfl
      simp [SkipprStore.commit, MemorySkipprStore.commit, hfence]
  | fjall inner =>
    by_cases howns : inner.fence = fence
    · subst howns
      have hfence : inner.checkFence inner.fence = .ok () := by simp [FjallSkipprStore.checkFence]
      cases hbatch : faults.batch with
      | none =>
        left
        simp [SkipprStore.Owns, SkipprStore.Writable, SkipprStore.commit, FjallSkipprStore.commit,
          hfence, hbatch, SkipprStore.rows]
      | some err =>
        right
        refine ⟨fun h => ?_, .io err, ?_⟩
        · have := h.2
          simp [SkipprStore.Writable, hbatch] at this
        · simp [SkipprStore.commit, FjallSkipprStore.commit, hfence, hbatch]
    · right
      refine ⟨fun h => howns h.1, .fenced, ?_⟩
      have hfence : inner.checkFence fence = .error .fenced := by
        unfold FjallSkipprStore.checkFence
        rw [if_neg]
        intro hsame
        apply howns
        obtain ⟨howner, hepoch⟩ := hsame
        cases hf : inner.fence
        cases fence
        simp_all
      simp [SkipprStore.commit, FjallSkipprStore.commit, hfence]

/-- **A commit.** An accepted transaction returns Ok and its writes are applied
in order; any other returns an error and leaves the store as it was. -/
theorem catalogCommit_cases (faults : Faults) (store : SkipprStore V) (txn : CatalogTxn c)
    (fence : CatalogFence) :
    (Accepts c faults store txn.ops fence ∧ (catalogCommit c faults store txn fence).1 = .ok () ∧
        (catalogCommit c faults store txn fence).2.rows =
          applyWrites store.rows (txn.ops.map (·.write c))) ∨
      (¬ Accepts c faults store txn.ops fence ∧
        ∃ e, catalogCommit c faults store txn fence = (.error e, store)) := by
  cases heval : evalOps c txn fun key => store.get faults (storeKey key) with
  | error e =>
    right
    refine ⟨fun h => ?_, e, by simp [catalogCommit, heval]⟩
    have hok := evalOps_ok_iff.2 ⟨fun op hop => ⟨h.readable op hop, h.valid op hop, h.holds op hop⟩, rfl⟩
    rw [heval] at hok
    cases hok
  | ok planned =>
    obtain ⟨hops, rfl⟩ := evalOps_ok_iff.1 heval
    have hcommit : catalogCommit c faults store txn fence =
        store.commit faults (txn.ops.map (·.write c)) fence := by
      simp [catalogCommit, heval, CatalogOp.write, Function.comp_def]
    rw [hcommit]
    cases commit_cases faults store (txn.ops.map (·.write c)) fence with
    | inl h =>
      obtain ⟨howns, hwritable, hok, hrows⟩ := h
      exact .inl ⟨⟨howns, hwritable, fun op hop => (hops op hop).1, fun op hop => (hops op hop).2.1,
        fun op hop => (hops op hop).2.2⟩, hok, hrows⟩
    | inr h =>
      obtain ⟨hnot, herror⟩ := h
      exact .inr ⟨fun hacc => hnot ⟨hacc.owns, hacc.writable⟩, herror⟩

omit [DecidableEq H] in
theorem stored_of_agree (rows : Map Text V) (hagree : Agree ops) {op : CatalogOp B} (hop : op ∈ ops) :
    (applyWrites rows (ops.map (·.write c))).get (storeKey op.key) = op.row.map c.serialize := by
  rw [← CatalogOp.write_key, ← CatalogOp.write_effect]
  apply get_applyWrites_of_agree _ (List.mem_map_of_mem hop)
  intro w hw hkey
  obtain ⟨other, hother, rfl⟩ := List.mem_map.1 hw
  rw [CatalogOp.write_key, CatalogOp.write_key] at hkey
  have hsame := CatalogKey.encode_injective (List.append_cancel_left hkey)
  rw [CatalogOp.write_effect, CatalogOp.write_effect, hagree other hother op hop hsame]

omit [DecidableEq H] in
theorem done_of_agree {fence : CatalogFence} (hacc : Accepts c faults store ops fence)
    (hagree : Agree ops) :
    Done c store.rows.get (applyWrites store.rows (ops.map (·.write c))).get ops := by
  have hstored : ∀ op ∈ ops, (applyWrites store.rows (ops.map (·.write c))).get (storeKey op.key) =
      op.row.map c.serialize := fun op hop => stored_of_agree store.rows hagree hop
  constructor
  · exact hacc.holds
  · exact hstored
  · intro k hk
    apply get_applyWrites_of_unnamed
    refine List.forall_mem_map.2 fun op hop => ?_
    rw [CatalogOp.write_key]
    exact hk op hop
  · intro key row version hop
    obtain ⟨-, hsize, hversion⟩ := hacc.valid _ hop
    refine ⟨hacc.holds _ hop, c.serialize row, row, hstored _ hop, ?_, (hversion version rfl).2⟩
    rw [Codec.decode, if_neg (Nat.not_lt.2 hsize), c.roundtrip]
    rfl

omit [DecidableEq H] in
theorem serialize_injective (c : Codec B V H) : Function.Injective c.serialize := by
  intro a b h
  have hrow := congrArg c.deserialize h
  rw [c.roundtrip, c.roundtrip] at hrow
  exact Except.ok.inj hrow

omit [DecidableEq H] in
theorem Done.agree {pre post : Text → Option V} (h : Done c pre post ops) : Agree ops := by
  intro a ha b hb hkey
  have ha' := h.stored a ha
  rw [hkey, h.stored b hb] at ha'
  exact (Option.map_injective (serialize_injective c) ha').symm

/-- **What a commit guarantees.** On either store, a commit leaves the store as
it was and returns an error, or returns Ok and does what each operation says,
exactly if the operations of an accepted transaction that name the same key
agree. -/
theorem commit_sound_iff (c : Codec B V H) (faults : Faults) (store : SkipprStore V)
    (txn : CatalogTxn c) (fence : CatalogFence) :
    ((∃ e, (catalogCommit c faults store txn fence).1 = .error e ∧
        ∀ k, (catalogCommit c faults store txn fence).2.rows.get k = store.rows.get k) ∨
      ((catalogCommit c faults store txn fence).1 = .ok () ∧
        Done c store.rows.get (catalogCommit c faults store txn fence).2.rows.get txn.ops)) ↔
      (Accepts c faults store txn.ops fence → Agree txn.ops) := by
  cases catalogCommit_cases faults store txn fence with
  | inl h =>
    obtain ⟨hacc, hok, hrows⟩ := h
    rw [hok, hrows]
    constructor
    · intro h _
      cases h with
      | inl h =>
        obtain ⟨e, he, -⟩ := h
        cases he
      | inr h => exact h.2.agree
    · intro hagree
      exact .inr ⟨rfl, done_of_agree hacc (hagree hacc)⟩
  | inr h =>
    obtain ⟨hnot, e, he⟩ := h
    rw [he]
    constructor
    · intro _ hacc
      exact absurd hacc hnot
    · intro _
      exact .inl ⟨e, rfl, fun _ => rfl⟩

end Commit

end Model

/-! ## A put and a delete of one row -/

def plain : Codec Nat (CatalogRow Nat) (CatalogRow Nat) where
  serialize := id
  deserialize := .ok
  len _ := 1
  sha256 := id
  roundtrip _ := rfl

def node : CatalogFence := ⟨['n'], 1⟩

def segmentKey : CatalogKey := .segment ⟨['s'], rfl⟩

def content : Map Text (CatalogRow Nat) :=
  (∅ : Map Text (CatalogRow Nat)).insert (storeKey segmentKey) (.segment 3 0)

def inMemory : SkipprStore (CatalogRow Nat) := .memory ⟨content, some node, false⟩

def onFjall : SkipprStore (CatalogRow Nat) := .fjall ⟨content, node⟩

def noFaults : Faults := ⟨fun _ => none, none⟩

def put4 : CatalogOp Nat := .put segmentKey (.segment 4 0) (.version 3)

def advanceSeq : CatalogOp Nat := .put .seq (.seq 1) .seqAdvance

def deleteSegment : CatalogOp Nat := .delete segmentKey (.version 3)

def update : CatalogTxn plain where
  ops := [put4, advanceSeq]
  bounded := by decide
  pushable := List.forall_mem_cons.2 ⟨⟨fun h => (by cases h), by decide⟩,
    List.forall_mem_singleton.2 ⟨fun _ => rfl, by decide⟩⟩

def putThenDelete : CatalogTxn plain where
  ops := [put4, deleteSegment]
  bounded := by decide
  pushable := List.forall_mem_cons.2 ⟨⟨fun h => (by cases h), by decide⟩,
    List.forall_mem_singleton.2 trivial⟩

/-- A row goes from version 3 to 4 while the seq advances. -/
theorem commit_sound_update :
    (catalogCommit plain noFaults onFjall update node).1 = .ok () ∧
      Done plain onFjall.rows.get (catalogCommit plain noFaults onFjall update node).2.rows.get
        update.ops := by
  have hok : (catalogCommit plain noFaults onFjall update node).1 = .ok () := by decide +kernel
  have hagree : Agree update.ops := by
    unfold Agree
    decide +kernel
  cases (commit_sound_iff plain noFaults onFjall update node).2 fun _ => hagree with
  | inl h =>
    obtain ⟨e, he, -⟩ := h
    rw [hok] at he
    cases he
  | inr h => exact h

/-- Both operations pass on the stored version 3; the delete is applied after
the put, so a put that was answered with Ok is not in the store. -/
theorem put_then_delete_loses_put :
    ((CatalogTxn.new plain).push put4 >>= fun txn => txn.push deleteSegment) = .ok putThenDelete ∧
      ∀ store ∈ [inMemory, onFjall],
        (catalogCommit plain noFaults store putThenDelete node).1 = .ok () ∧
        (catalogCommit plain noFaults store putThenDelete node).2.rows.get (storeKey segmentKey) = none ∧
        ¬ Done plain store.rows.get
          (catalogCommit plain noFaults store putThenDelete node).2.rows.get putThenDelete.ops := by
  refine ⟨rfl, fun store hstore => ?_⟩
  have hresult : (catalogCommit plain noFaults store putThenDelete node).1 = .ok () ∧
      (catalogCommit plain noFaults store putThenDelete node).2.rows.get (storeKey segmentKey) =
        none := by
    simp only [List.mem_cons, List.not_mem_nil, or_false] at hstore
    cases hstore with
    | inl h | inr h => subst h; decide +kernel
  refine ⟨hresult.1, hresult.2, fun h => ?_⟩
  have hput := h.stored put4 List.mem_cons_self
  have hkey : storeKey put4.key = storeKey segmentKey := rfl
  rw [hkey, hresult.2] at hput
  cases hput

end Skippr.L2.Catalog
