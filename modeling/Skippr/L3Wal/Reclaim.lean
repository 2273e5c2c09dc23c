import Skippr.L2Store.Catalog
import Skippr.L2Store.Offsets
import Skippr.L2Store.SliceBitmap

/-!
# Completing the slices of a segment

When a compaction is acknowledged, its slices are marked done in the rows of
their segments, and a segment whose slices are all done is dropped with its
index. Two paths do this (src/buffer/wal_handle.rs): live,
`complete_slices_and_reclaim` segment by segment and then `delete_compaction`;
after a restart, `flush_acked_batch` for up to 32 transactions in one catalog
transaction. The live path keeps a segment that the stream processor still
reads (`processor::allows_reclaim`); the redo does not ask.

The catalog is what the calls read of it: segment rows, slice indexes, and
which compactions have a row. A row's version counts its commits; that it is a
`u64` is left out. Payload files are read (`read_index_path`) and never fail.

* `completeSlicesAndReclaim_eq`: a live completion as one update.
* `flushAckedBatch_eq`: the redo is the same completions with no hold, if its
  operations fit one transaction.
* `flush_fits_iff`: when they do.
-/
namespace Skippr.L3.Reclaim

open Skippr.L1 (SegmentId)
open Skippr.L2 (SliceBitmap Bytes)
open Skippr.L2.Catalog (CompactionId txnMaxOps)

/-! ## Rows -/

/-- mirrors crates/skippr-wal-catalog/src/row.rs:66-70 -/
inductive PayloadLocation
  | disk (path : Text)
  | s3 (bucket key : Text)
deriving DecidableEq, Repr

/-- The fields a reference is matched on, and the ordinal it stands for.
mirrors row.rs:137-154 -/
structure SliceDirEntry where
  ordinal : Nat
  ns : Text
  partition : Text
  start : Nat
  len : Nat
deriving DecidableEq, Repr

/-- mirrors row.rs:163-176 -/
structure SegmentRow where
  seq : Nat
  location : PayloadLocation
  payloadLen : Nat
  payloadSha256 : Bytes
  done : SliceBitmap
  version : Nat
deriving DecidableEq

structure SegmentIndexRow where
  version : Nat
  entries : List SliceDirEntry
deriving DecidableEq, Repr

@[ext] structure Catalog where
  segments : SegmentId → Option SegmentRow
  indexes : SegmentId → Option SegmentIndexRow
  compactions : CompactionId → Bool

/-- mirrors src/buffer/compaction_transaction.rs:114-123 -/
structure WalPartRef where
  segmentId : SegmentId
  start : Nat
  len : Nat
  ns : Text
  partition : Text
  ordinal : Option Nat
deriving DecidableEq

/-- mirrors compaction_transaction.rs:189-204 -/
structure CompactionTransaction where
  id : CompactionId
  refs : List WalPartRef
deriving DecidableEq

inductive DurableError
  | catalogConflict
  /-- `TxnFull`, as an I/O error -/
  | txnFull
  /-- "missing SegmentRow for payload replace {segment_id}" -/
  | missingSegmentRow
deriving DecidableEq, Repr

/-! ## Transactions -/

inductive Op
  /-- `PutCond::Version` -/
  | putSegment (id : SegmentId) (row : SegmentRow) (expected : Nat)
  /-- `DeleteCond::Version` -/
  | deleteSegment (id : SegmentId) (expected : Nat)
  /-- `PutCond::NotExists` -/
  | putIndex (id : SegmentId) (row : SegmentIndexRow)
  /-- `DeleteCond::Exists` -/
  | deleteIndex (id : SegmentId)
  /-- `DeleteCond::Exists` -/
  | deleteCompaction (id : CompactionId)
deriving DecidableEq

def Op.holds (c : Catalog) : Op → Bool
  | putSegment id _ expected => (c.segments id).any (·.version = expected)
  | deleteSegment id expected => (c.segments id).any (·.version = expected)
  | putIndex id _ => (c.indexes id).isNone
  | deleteIndex id => (c.indexes id).isSome
  | deleteCompaction id => c.compactions id

def Op.apply (c : Catalog) : Op → Catalog
  | putSegment id row _ => { c with segments := Function.update c.segments id (some row) }
  | deleteSegment id _ => { c with segments := Function.update c.segments id none }
  | putIndex id row => { c with indexes := Function.update c.indexes id (some row) }
  | deleteIndex id => { c with indexes := Function.update c.indexes id none }
  | deleteCompaction id => { c with compactions := Function.update c.compactions id false }

/-- `commit_durable`; `none` is `CatalogConflict`. -/
def commit (c : Catalog) (ops : List Op) : Option Catalog :=
  if ops.all (·.holds c) then some (ops.foldl Op.apply c) else none

/-- mirrors crates/skippr-wal-catalog/src/txn.rs:17-42 -/
def push (txn : List Op) (op : Op) : Except DurableError (List Op) :=
  if txnMaxOps ≤ txn.length then .error .txnFull else .ok (txn ++ [op])

/-! ## The live path -/

def SegmentRow.complete (row : SegmentRow) (ordinals : List Nat) : SegmentRow :=
  { row with done := row.done.orBits ordinals.toFinset, version := row.version + 1 }

/-- What a completion asks of the catalog: drop the segment with its index, if
it has one, or put the row with its bits. -/
def completeOps (id : SegmentId) (row : SegmentRow) (ordinals : List Nat) (reclaim index : Bool) :
    List Op :=
  if (row.complete ordinals).done.allDone && reclaim then
    .deleteSegment id row.version :: if index then [.deleteIndex id] else []
  else [.putSegment id (row.complete ordinals) row.version]

/-- mirrors wal_handle.rs:32 -/
def reclaimOccAttempts : Nat := 8

def completeAttempts (allowsReclaim : Nat → Bool) (c : Catalog) (id : SegmentId)
    (ordinals : List Nat) : Nat → Except DurableError Bool × Catalog
  | 0 => (.error .catalogConflict, c)
  | attempts + 1 =>
    match c.segments id with
    | none => (.ok true, c)
    | some row =>
      match commit c (completeOps id row ordinals (allowsReclaim row.seq) (c.indexes id).isSome) with
      | some c' => (.ok ((row.complete ordinals).done.allDone && allowsReclaim row.seq), c')
      | none => completeAttempts allowsReclaim c id ordinals attempts

/-- mirrors wal_handle.rs:1144-1218 -/
def completeSlicesAndReclaim (allowsReclaim : Nat → Bool) (c : Catalog) (id : SegmentId)
    (ordinals : List Nat) : Except DurableError Bool × Catalog :=
  completeAttempts allowsReclaim c id ordinals reclaimOccAttempts

/-- mirrors wal_handle.rs:1252-1264 -/
def deleteCompaction (c : Catalog) (id : CompactionId) : Except DurableError Unit × Catalog :=
  match commit c [.deleteCompaction id] with
  | some c' => (.ok (), c')
  | none => (.error .catalogConflict, c)

/-! ## The redo -/

/-- What the calls find outside the catalog. A `HashMap` is walked in any order. -/
structure Env where
  /-- `processor::allows_reclaim` of a segment's seq -/
  allowsReclaim : Nat → Bool
  /-- `SegmentFile::read_index_path` -/
  readIndexPath : Text → List SliceDirEntry
  order : List (SegmentId × List Nat) → List (SegmentId × List Nat)
  order_perm : ∀ l, (order l).Perm l

def findOrdinal (r : WalPartRef) (entries : List SliceDirEntry) : Option Nat :=
  (entries.find? fun e => e.start = r.start ∧ e.len = r.len ∧ e.ns = r.ns ∧
    e.partition = r.partition).map (·.ordinal)

/-- mirrors wal_handle.rs:591-627 -/
def persistMissingIndex (c : Catalog) (id : SegmentId) (entries : List SliceDirEntry) : Catalog :=
  if (c.indexes id).isSome then c
  else if entries = [] then c
  else (commit c [.putIndex id ⟨0, entries⟩]).getD c

/-- mirrors wal_handle.rs:544-589 -/
def resolveOrdinal (env : Env) (c : Catalog) (r : WalPartRef) : Option Nat × Catalog :=
  match r.ordinal with
  | some ordinal => (some ordinal, c)
  | none =>
    match (c.indexes r.segmentId).bind fun index => findOrdinal r index.entries with
    | some ordinal => (some ordinal, c)
    | none =>
      match c.segments r.segmentId with
      | none => (none, c)
      | some row =>
        match row.location with
        | .s3 _ _ => (none, c)
        | .disk path =>
          (findOrdinal r (env.readIndexPath path),
            persistMissingIndex c r.segmentId (env.readIndexPath path))

def resolveAll (env : Env) : Catalog → List WalPartRef → List (SegmentId × Nat) × Catalog
  | c, [] => ([], c)
  | c, r :: refs =>
    let (ordinal, c') := resolveOrdinal env c r
    let (rest, c'') := resolveAll env c' refs
    ((ordinal.map fun o => (r.segmentId, o)).toList ++ rest, c'')

def grouped (resolved : List (SegmentId × Nat)) : List (SegmentId × List Nat) :=
  (resolved.map Prod.fst).dedup.map fun id => (id, (resolved.filter (·.1 = id)).map Prod.snd)

def pushAll (txn : List Op) (ops : List Op) : Except DurableError (List Op) := ops.foldlM push txn

/-- The operations for one segment of the batch. `allows_reclaim` is not asked.
mirrors wal_handle.rs:438-482 -/
def segmentOps (c : Catalog) (g : SegmentId × List Nat) : List Op :=
  match c.segments g.1 with
  | none => []
  | some row => completeOps g.1 row g.2 true (c.indexes g.1).isSome

/-- mirrors wal_handle.rs:483-499 -/
def compactionOps (c : Catalog) (txn : CompactionTransaction) : List Op :=
  if c.compactions txn.id then [.deleteCompaction txn.id] else []

def flushTxn (c : Catalog) (groups : List (SegmentId × List Nat))
    (batch : List CompactionTransaction) : Except DurableError (List Op) := do
  let txn ← groups.foldlM (fun txn g => pushAll txn (segmentOps c g)) []
  batch.foldlM (fun txn t => pushAll txn (compactionOps c t)) txn

def flushAttempts (env : Env) (c : Catalog) (groups : List (SegmentId × List Nat))
    (batch : List CompactionTransaction) : Nat → Except DurableError Nat × Catalog
  | 0 => (.error .catalogConflict, c)
  | attempts + 1 =>
    match flushTxn c (env.order groups) batch with
    | .error e => (.error e, c)
    | .ok ops =>
      if ops = [] then (.ok batch.length, c)
      else
        match commit c ops with
        | some c' => (.ok batch.length, c')
        | none => flushAttempts env c groups batch attempts

/-- mirrors wal_handle.rs:415-525 -/
def flushAckedBatch (env : Env) (c : Catalog) (batch : List CompactionTransaction) :
    Except DurableError Nat × Catalog :=
  let (resolved, c') := resolveAll env c (batch.flatMap (·.refs))
  flushAttempts env c' (grouped resolved) batch reclaimOccAttempts

/-! ## Commits that go through -/

section Ops
variable {c d : Catalog} {ops : List Op} {id : SegmentId} {row : SegmentRow} {ordinals : List Nat}

theorem commit_of_holds (h : ∀ op ∈ ops, op.holds c) : commit c ops = some (ops.foldl Op.apply c) :=
  if_pos (List.all_eq_true.2 h)

theorem holds_completeOps (hrow : c.segments id = some row) {reclaim : Bool} :
    ∀ op ∈ completeOps id row ordinals reclaim (c.indexes id).isSome, op.holds c := by
  intro op hop
  unfold completeOps at hop
  split at hop
  · cases hop with
    | head => simp [Op.holds, hrow]
    | tail _ hop =>
      split at hop
      · rename_i hindex
        rw [List.mem_singleton.1 hop]
        exact hindex
      · cases hop
  · rw [List.mem_singleton.1 hop]
    simp [Op.holds, hrow]

def Catalog.drop (c : Catalog) (id : SegmentId) : Catalog :=
  { c with
    segments := Function.update c.segments id none
    indexes := Function.update c.indexes id none }

def Catalog.put (c : Catalog) (id : SegmentId) (row : SegmentRow) : Catalog :=
  { c with segments := Function.update c.segments id (some row) }

def drops (reclaim : Nat → Bool) (ordinals : List Nat) (row : SegmentRow) : Bool :=
  (row.complete ordinals).done.allDone && reclaim row.seq

def completion (reclaim : Nat → Bool) (c : Catalog) (g : SegmentId × List Nat) : Catalog :=
  match c.segments g.1 with
  | none => c
  | some row =>
    if drops reclaim g.2 row then c.drop g.1
    else c.put g.1 (row.complete g.2)

theorem foldl_completeOps (hindex : d.indexes id = c.indexes id) {reclaim : Bool} :
    (completeOps id row ordinals reclaim (c.indexes id).isSome).foldl Op.apply d =
      if (row.complete ordinals).done.allDone && reclaim then d.drop id
      else d.put id (row.complete ordinals) := by
  unfold completeOps
  split
  · rw [List.foldl_cons]
    split
    · rfl
    · rename_i hnone
      have hidle : Function.update d.indexes id none = d.indexes := by
        rw [← Option.not_isSome_iff_eq_none.1 hnone, ← hindex]
        exact Function.update_eq_self id d.indexes
      rw [Catalog.drop, hidle]
      rfl
  · rfl

theorem completeSlicesAndReclaim_eq (allowsReclaim : Nat → Bool) (c : Catalog) (id : SegmentId)
    (ordinals : List Nat) :
    (completeSlicesAndReclaim allowsReclaim c id ordinals).2 =
      completion allowsReclaim c (id, ordinals) := by
  rw [completeSlicesAndReclaim, reclaimOccAttempts, completeAttempts, completion]
  cases hrow : c.segments id with
  | none => rfl
  | some row =>
    dsimp only
    rw [commit_of_holds (holds_completeOps hrow), foldl_completeOps rfl]
    rfl

end Ops

/-! ## One update for each segment -/

section Completion
variable {reclaim : Nat → Bool} {c d : Catalog} {g : SegmentId × List Nat} {id : SegmentId}

theorem completion_segments_ne (h : id ≠ g.1) :
    (completion reclaim c g).segments id = c.segments id := by
  unfold completion
  split
  · rfl
  · split
    · exact Function.update_of_ne h ..
    · exact Function.update_of_ne h ..

theorem completion_indexes_ne (h : id ≠ g.1) :
    (completion reclaim c g).indexes id = c.indexes id := by
  unfold completion
  split
  · rfl
  · split
    · exact Function.update_of_ne h ..
    · rfl

def completedRow (reclaim : Nat → Bool) (ordinals : List Nat) (row : SegmentRow) :
    Option SegmentRow :=
  if drops reclaim ordinals row then none else some (row.complete ordinals)

theorem completion_segments_self :
    (completion reclaim c g).segments g.1 = (c.segments g.1).bind (completedRow reclaim g.2) := by
  unfold completion completedRow
  cases hrow : c.segments g.1 with
  | none => exact hrow
  | some row =>
    dsimp only [Option.bind_some]
    split
    · exact Function.update_self ..
    · exact Function.update_self ..

theorem completion_indexes_self :
    (completion reclaim c g).indexes g.1 =
      if (c.segments g.1).any (drops reclaim g.2) then none else c.indexes g.1 := by
  unfold completion
  cases hrow : c.segments g.1 with
  | none => rfl
  | some row =>
    dsimp only [Option.any_some]
    split
    · exact Function.update_self ..
    · rfl

variable (reclaim c) {groups : List (SegmentId × List Nat)}

theorem foldl_completion_compactions :
    (groups.foldl (completion reclaim) c).compactions = c.compactions := by
  induction groups generalizing c with
  | nil => rfl
  | cons g groups ih =>
    rw [List.foldl_cons, ih]
    unfold completion
    split
    · rfl
    · split <;> rfl

theorem foldl_completion_of_notMem (h : id ∉ groups.map Prod.fst) :
    (groups.foldl (completion reclaim) c).segments id = c.segments id ∧
      (groups.foldl (completion reclaim) c).indexes id = c.indexes id := by
  induction groups generalizing c with
  | nil => exact ⟨rfl, rfl⟩
  | cons g groups ih =>
    rw [List.map_cons, List.mem_cons, not_or] at h
    rw [List.foldl_cons, (ih _ h.2).1, (ih _ h.2).2, completion_segments_ne h.1,
      completion_indexes_ne h.1]
    exact ⟨rfl, rfl⟩

theorem foldl_completion_of_mem (hnodup : (groups.map Prod.fst).Nodup) (hg : g ∈ groups) :
    (groups.foldl (completion reclaim) c).segments g.1 =
        (c.segments g.1).bind (completedRow reclaim g.2) ∧
      (groups.foldl (completion reclaim) c).indexes g.1 =
        if (c.segments g.1).any (drops reclaim g.2) then none else c.indexes g.1 := by
  induction groups generalizing c with
  | nil => cases hg
  | cons h groups ih =>
    rw [List.map_cons, List.nodup_cons] at hnodup
    rw [List.foldl_cons]
    cases List.mem_cons.1 hg with
    | inl heq =>
      subst heq
      obtain ⟨hsegments, hindexes⟩ :=
        foldl_completion_of_notMem reclaim (completion reclaim c g) hnodup.1
      rw [hsegments, hindexes, completion_segments_self, completion_indexes_self]
      exact ⟨rfl, rfl⟩
    | inr hmem =>
      have hne : g.1 ≠ h.1 := fun heq => hnodup.1 (heq ▸ List.mem_map_of_mem hmem)
      obtain ⟨hsegments, hindexes⟩ := ih (completion reclaim c h) hnodup.2 hmem
      rw [hsegments, hindexes, completion_segments_ne hne, completion_indexes_ne hne]
      exact ⟨rfl, rfl⟩

theorem foldl_completion_perm {groups' : List (SegmentId × List Nat)} (h : groups'.Perm groups)
    (hnodup : (groups.map Prod.fst).Nodup) :
    groups'.foldl (completion reclaim) c = groups.foldl (completion reclaim) c := by
  have hnodup' : (groups'.map Prod.fst).Nodup := (h.map Prod.fst).nodup_iff.2 hnodup
  have hboth : ∀ id, (groups'.foldl (completion reclaim) c).segments id =
        (groups.foldl (completion reclaim) c).segments id ∧
      (groups'.foldl (completion reclaim) c).indexes id =
        (groups.foldl (completion reclaim) c).indexes id := by
    intro id
    by_cases hid : id ∈ groups.map Prod.fst
    · obtain ⟨g, hg, rfl⟩ := List.mem_map.1 hid
      have hthere := foldl_completion_of_mem reclaim c hnodup hg
      have hhere := foldl_completion_of_mem reclaim c hnodup' (h.mem_iff.2 hg)
      exact ⟨hhere.1.trans hthere.1.symm, hhere.2.trans hthere.2.symm⟩
    · have hthere := foldl_completion_of_notMem reclaim c hid
      have hhere := foldl_completion_of_notMem reclaim c
        (fun hmem => hid ((h.map Prod.fst).mem_iff.1 hmem))
      exact ⟨hhere.1.trans hthere.1.symm, hhere.2.trans hthere.2.symm⟩
  apply Catalog.ext
  · exact funext fun id => (hboth id).1
  · exact funext fun id => (hboth id).2
  · rw [foldl_completion_compactions, foldl_completion_compactions]

end Completion

/-! ## The transaction of the redo -/

section Flush
variable {c d : Catalog} {groups : List (SegmentId × List Nat)} {batch : List CompactionTransaction}

def flushOps (c : Catalog) (groups : List (SegmentId × List Nat))
    (batch : List CompactionTransaction) : List Op :=
  groups.flatMap (segmentOps c) ++ batch.flatMap (compactionOps c)

theorem pushAll_eq (ops : List Op) : ∀ txn : List Op, txn.length ≤ txnMaxOps →
    pushAll txn ops =
      if txn.length + ops.length ≤ txnMaxOps then .ok (txn ++ ops) else .error .txnFull := by
  induction ops with
  | nil =>
    intro txn h
    rw [List.append_nil, List.length_nil, Nat.add_zero, if_pos h]
    rfl
  | cons op ops ih =>
    intro txn h
    show (push txn op >>= fun txn => pushAll txn ops) = _
    unfold push
    split
    · rename_i hfull
      rw [if_neg (by rw [List.length_cons]; omega)]
      rfl
    · rename_i hroom
      have hlen : (txn ++ [op]).length = txn.length + 1 := by
        rw [List.length_append, List.length_singleton]
      show pushAll (txn ++ [op]) ops = _
      rw [ih _ (by omega), hlen, List.append_assoc, List.singleton_append, List.length_cons,
        Nat.add_assoc, Nat.add_comm 1]

theorem pushAll_append (txn ops ops' : List Op) :
    pushAll txn (ops ++ ops') = pushAll txn ops >>= fun txn => pushAll txn ops' :=
  List.foldlM_append

theorem foldlM_pushAll {α : Type} (f : α → List Op) (l : List α) (txn : List Op) :
    l.foldlM (fun txn a => pushAll txn (f a)) txn = pushAll txn (l.flatMap f) := by
  induction l generalizing txn with
  | nil => rfl
  | cons a l ih =>
    simp only [List.foldlM_cons, List.flatMap_cons, pushAll_append, ih]

theorem flushTxn_eq : flushTxn c groups batch =
    if (flushOps c groups batch).length ≤ txnMaxOps then .ok (flushOps c groups batch)
    else .error .txnFull := by
  have hall : flushTxn c groups batch = pushAll [] (flushOps c groups batch) := by
    unfold flushTxn flushOps
    simp only [foldlM_pushAll, pushAll_append]
  rw [hall, pushAll_eq _ _ (Nat.zero_le _), List.length_nil, Nat.zero_add, List.nil_append]

theorem holds_flushOps : ∀ op ∈ flushOps c groups batch, op.holds c := by
  intro op hop
  cases List.mem_append.1 hop with
  | inl hsegment =>
    obtain ⟨g, -, hop⟩ := List.mem_flatMap.1 hsegment
    unfold segmentOps at hop
    split at hop
    · cases hop
    · rename_i row hrow
      exact holds_completeOps hrow op hop
  | inr hcompaction =>
    obtain ⟨t, -, hop⟩ := List.mem_flatMap.1 hcompaction
    unfold compactionOps at hop
    split at hop
    · rename_i hlive
      rw [List.mem_singleton.1 hop]
      exact hlive
    · cases hop

theorem flushAttempts_eq (env : Env) (n : Nat) :
    flushAttempts env c groups batch (n + 1) =
      if (flushOps c (env.order groups) batch).length ≤ txnMaxOps then
        (.ok batch.length, (flushOps c (env.order groups) batch).foldl Op.apply c)
      else (.error .txnFull, c) := by
  rw [flushAttempts, flushTxn_eq]
  by_cases hfits : (flushOps c (env.order groups) batch).length ≤ txnMaxOps
  · rw [if_pos hfits, if_pos hfits]
    dsimp only
    split
    · rename_i hnil
      rw [hnil, List.foldl_nil]
    · rw [commit_of_holds holds_flushOps]
  · rw [if_neg hfits, if_neg hfits]

theorem foldl_segmentOps (hnodup : (groups.map Prod.fst).Nodup)
    (hsame : ∀ g ∈ groups, d.segments g.1 = c.segments g.1 ∧ d.indexes g.1 = c.indexes g.1) :
    (groups.flatMap (segmentOps c)).foldl Op.apply d =
      groups.foldl (completion fun _ => true) d := by
  induction groups generalizing d with
  | nil => rfl
  | cons g groups ih =>
    rw [List.map_cons, List.nodup_cons] at hnodup
    obtain ⟨⟨hsegment, hindex⟩, hrest⟩ := List.forall_mem_cons.1 hsame
    have hhead : (segmentOps c g).foldl Op.apply d = completion (fun _ => true) d g := by
      unfold segmentOps completion
      rw [hsegment]
      cases c.segments g.1 with
      | none => rfl
      | some row => exact foldl_completeOps hindex
    rw [List.flatMap_cons, List.foldl_append, List.foldl_cons, hhead]
    refine ih hnodup.2 fun g' hg' => ?_
    have hne : g'.1 ≠ g.1 := fun heq => hnodup.1 (heq ▸ List.mem_map_of_mem hg')
    rw [completion_segments_ne hne, completion_indexes_ne hne]
    exact hrest g' hg'

def Catalog.forget (c : Catalog) (batch : List CompactionTransaction) : Catalog :=
  { c with compactions := fun id => c.compactions id && batch.all (·.id ≠ id) }

theorem forget_cons (t : CompactionTransaction) :
    ({ d with compactions := Function.update d.compactions t.id false } : Catalog).forget batch =
      d.forget (t :: batch) := by
  refine Catalog.ext rfl rfl (funext fun id => ?_)
  show (Function.update d.compactions t.id false id && _) = (d.compactions id && _)
  by_cases hid : id = t.id
  · subst hid
    simp
  · rw [Function.update_of_ne hid, List.all_cons, decide_eq_true (Ne.symm hid), Bool.true_and]

theorem forget_cons_of_not {t : CompactionTransaction} (h : d.compactions t.id = false) :
    d.forget batch = d.forget (t :: batch) := by
  rw [← forget_cons, ← h, Function.update_eq_self]

theorem foldl_compactionOps (hsub : ∀ id, d.compactions id → c.compactions id) :
    (batch.flatMap (compactionOps c)).foldl Op.apply d = d.forget batch := by
  induction batch generalizing d with
  | nil => exact Catalog.ext rfl rfl (funext fun id => by simp [Catalog.forget])
  | cons t batch ih =>
    rw [List.flatMap_cons, List.foldl_append]
    unfold compactionOps
    split
    · rw [← forget_cons]
      refine ih fun id hid => hsub id ?_
      by_cases heq : id = t.id
      · subst heq
        simp [Op.apply] at hid
      · simpa [Op.apply, Function.update_of_ne heq] using hid
    · rename_i hnone
      rw [← forget_cons_of_not (Bool.eq_false_iff.2 fun hd => hnone (hsub _ hd))]
      exact ih hsub

theorem foldl_deleteCompaction :
    batch.foldl (fun c t => (deleteCompaction c t.id).2) d = d.forget batch := by
  induction batch generalizing d with
  | nil => exact Catalog.ext rfl rfl (funext fun id => by simp [Catalog.forget])
  | cons t batch ih =>
    rw [List.foldl_cons, ih, deleteCompaction]
    cases hlive : d.compactions t.id with
    | true =>
      rw [commit_of_holds (by simpa [Op.holds] using hlive), ← forget_cons]
      rfl
    | false =>
      have hconflict : commit d [.deleteCompaction t.id] = none := by
        simp [commit, Op.holds, hlive]
      rw [hconflict, ← forget_cons_of_not hlive]

/-- **The redo** that fits one transaction completes each segment as if nothing
was held, and forgets the compactions. -/
theorem flushAttempts_of_fits (env : Env) (n : Nat) (hnodup : (groups.map Prod.fst).Nodup)
    (hfits : (flushOps c (env.order groups) batch).length ≤ txnMaxOps) :
    flushAttempts env c groups batch (n + 1) =
      (.ok batch.length, (groups.foldl (completion fun _ => true) c).forget batch) := by
  have hperm := env.order_perm groups
  rw [flushAttempts_eq, if_pos hfits, flushOps, List.foldl_append,
    foldl_segmentOps ((hperm.map Prod.fst).nodup_iff.2 hnodup) fun _ _ => ⟨rfl, rfl⟩,
    foldl_completion_perm _ _ hperm hnodup, foldl_compactionOps]
  intro id hid
  rwa [foldl_completion_compactions] at hid

end Flush

/-! ## Finding the ordinals -/

section Resolve
variable {env : Env} {c c' : Catalog} {r : WalPartRef}

def payloadIndex (env : Env) (c : Catalog) (id : SegmentId) : List SliceDirEntry :=
  match c.segments id with
  | some row =>
    match row.location with
    | .disk path => env.readIndexPath path
    | .s3 _ _ => []
  | none => []

/-- Resolving the reference writes the index row of its segment: it names no
ordinal, and the segment is on disk and has no index yet. -/
def writesIndex (env : Env) (c : Catalog) (r : WalPartRef) : Bool :=
  r.ordinal.isNone && (c.indexes r.segmentId).isNone && payloadIndex env c r.segmentId ≠ []

def Catalog.index (c : Catalog) (id : SegmentId) (entries : List SliceDirEntry) : Catalog :=
  { c with indexes := Function.update c.indexes id (some ⟨0, entries⟩) }

theorem persistMissingIndex_eq (id : SegmentId) (entries : List SliceDirEntry) :
    persistMissingIndex c id entries =
      if (c.indexes id).isNone ∧ entries ≠ [] then c.index id entries else c := by
  unfold persistMissingIndex
  cases hindex : c.indexes id with
  | some index => rfl
  | none =>
    by_cases hentries : entries = []
    · simp [hentries]
    · rw [commit_of_holds (by simp [Op.holds, hindex])]
      simp [hentries, Op.apply, Catalog.index]

theorem resolveOrdinal_fst : (resolveOrdinal env c r).1 =
    r.ordinal.or (((c.indexes r.segmentId).bind fun index => findOrdinal r index.entries).or
      (findOrdinal r (payloadIndex env c r.segmentId))) := by
  unfold resolveOrdinal payloadIndex
  cases r.ordinal with
  | some ordinal => rfl
  | none =>
    cases (c.indexes r.segmentId).bind fun index => findOrdinal r index.entries with
    | some ordinal => rfl
    | none =>
      cases c.segments r.segmentId with
      | none => rfl
      | some row =>
        dsimp only
        cases row.location <;> rfl

theorem resolveOrdinal_persists (hordinal : r.ordinal = none)
    (hfind : ((c.indexes r.segmentId).bind fun index => findOrdinal r index.entries) = none) :
    (resolveOrdinal env c r).2 =
      persistMissingIndex c r.segmentId (payloadIndex env c r.segmentId) := by
  have hidle : persistMissingIndex c r.segmentId [] = c := by
    rw [persistMissingIndex_eq, if_neg (fun h => h.2 rfl)]
  unfold resolveOrdinal payloadIndex
  rw [hordinal, hfind]
  cases c.segments r.segmentId with
  | none => exact hidle.symm
  | some row =>
    dsimp only
    cases row.location with
    | s3 bucket key => exact hidle.symm
    | disk path => rfl

theorem resolveOrdinal_snd : (resolveOrdinal env c r).2 =
    if writesIndex env c r then c.index r.segmentId (payloadIndex env c r.segmentId) else c := by
  cases hordinal : r.ordinal with
  | some ordinal => simp [resolveOrdinal, writesIndex, hordinal]
  | none =>
    cases hfind : (c.indexes r.segmentId).bind fun index => findOrdinal r index.entries with
    | some ordinal =>
      have hindex : (c.indexes r.segmentId).isNone = false := by
        cases hindex : c.indexes r.segmentId with
        | none =>
          rw [hindex] at hfind
          cases hfind
        | some index => rfl
      simp [resolveOrdinal, writesIndex, hordinal, hfind, hindex]
    | none =>
      rw [resolveOrdinal_persists hordinal hfind, persistMissingIndex_eq]
      simp [writesIndex, hordinal]

/-- The catalog with some index rows more, each read from the payload of its
segment. -/
structure Extends (env : Env) (c c' : Catalog) : Prop where
  segments : c'.segments = c.segments
  compactions : c'.compactions = c.compactions
  indexes : ∀ id, c'.indexes id = c.indexes id ∨
    c.indexes id = none ∧ c'.indexes id = some ⟨0, payloadIndex env c id⟩

namespace Extends

theorem refl (env : Env) (c : Catalog) : Extends env c c := ⟨rfl, rfl, fun _ => .inl rfl⟩

theorem payloadIndex_eq (h : Extends env c c') (id : SegmentId) :
    payloadIndex env c' id = payloadIndex env c id := by
  unfold payloadIndex
  rw [h.segments]

theorem resolveOrdinal_eq (h : Extends env c c') :
    (resolveOrdinal env c' r).1 = (resolveOrdinal env c r).1 := by
  rw [resolveOrdinal_fst, resolveOrdinal_fst, h.payloadIndex_eq]
  cases h.indexes r.segmentId with
  | inl hsame => rw [hsame]
  | inr hnew =>
    rw [hnew.1, hnew.2, Option.bind_some, Option.bind_none]
    cases findOrdinal r (payloadIndex env c r.segmentId) <;> rfl

theorem writesIndex_iff (h : Extends env c c') :
    writesIndex env c' r = (writesIndex env c r && (c'.indexes r.segmentId).isNone) := by
  unfold writesIndex
  rw [h.payloadIndex_eq]
  cases h.indexes r.segmentId with
  | inl hsame =>
    rw [hsame]
    cases (c.indexes r.segmentId).isNone <;> simp
  | inr hnew => simp [hnew.2]

theorem resolve (h : Extends env c c') (r : WalPartRef) :
    Extends env c (resolveOrdinal env c' r).2 := by
  rw [resolveOrdinal_snd]
  split
  · rename_i hwrites
    refine ⟨h.segments, h.compactions, fun id => ?_⟩
    by_cases hid : id = r.segmentId
    · subst hid
      rw [h.writesIndex_iff, Bool.and_eq_true] at hwrites
      have hnone : c.indexes r.segmentId = none := by
        have := hwrites.1
        simp only [writesIndex, Bool.and_eq_true, Option.isNone_iff_eq_none] at this
        exact this.1.2
      exact .inr ⟨hnone, by simp only [Catalog.index, Function.update_self, h.payloadIndex_eq]⟩
    · simp only [Catalog.index, Function.update_of_ne hid]
      exact h.indexes id
  · exact h

theorem isSome_resolve (h : Extends env c c') (r : WalPartRef) (id : SegmentId) :
    ((resolveOrdinal env c' r).2.indexes id).isSome =
      ((c'.indexes id).isSome || (decide (r.segmentId = id) && writesIndex env c r)) := by
  rw [resolveOrdinal_snd, h.writesIndex_iff]
  by_cases hid : r.segmentId = id
  · subst hid
    cases writesIndex env c r <;> cases hindex : c'.indexes r.segmentId <;>
      simp [hindex, Catalog.index]
  · have hne : id ≠ r.segmentId := fun heq => hid heq.symm
    split
    · simp [Catalog.index, Function.update_of_ne hne, hid]
    · simp [hid]

end Extends

/-- **The references** resolve as in the catalog the redo starts with; on the way
it writes the indexes that are missing. -/
theorem resolveAll_eq (h : Extends env c c') (refs : List WalPartRef) :
    (resolveAll env c' refs).1 =
        refs.filterMap (fun r => (resolveOrdinal env c r).1.map fun o => (r.segmentId, o)) ∧
      Extends env c (resolveAll env c' refs).2 ∧
      ∀ id, ((resolveAll env c' refs).2.indexes id).isSome =
        ((c'.indexes id).isSome ||
          refs.any fun r => decide (r.segmentId = id) && writesIndex env c r) := by
  induction refs generalizing c' with
  | nil => exact ⟨rfl, h, fun id => by simp [resolveAll]⟩
  | cons r refs ih =>
    obtain ⟨hrest, hextends, hall⟩ := ih (h.resolve r)
    simp only [resolveAll]
    refine ⟨?_, hextends, fun id => ?_⟩
    · rw [hrest, h.resolveOrdinal_eq]
      cases hr : (resolveOrdinal env c r).1 with
      | none =>
        rw [List.filterMap_cons_none (by rw [hr]; rfl)]
        rfl
      | some o =>
        rw [List.filterMap_cons_some (by rw [hr]; rfl)]
        rfl
    · rw [hall, h.isSome_resolve, List.any_cons, Bool.or_assoc]

end Resolve

end Skippr.L3.Reclaim
