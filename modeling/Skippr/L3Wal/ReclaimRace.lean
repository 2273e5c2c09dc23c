import Skippr.Core.LTS
import Skippr.L3Wal.RedoBatch

/-!
# Concurrent completions of one segment

`complete_slices_and_reclaim`, `flush_acked_batch` and
`replace_payload_location` read a segment row, change it and commit it under the
condition that its version is still the one they read; the first two start again
on a conflict, up to eight times (src/buffer/wal_handle.rs). Here any number of
these calls run against one catalog. A step is one `get` or one commit of one
call; what a call computes in between belongs to the step before.

Nothing creates a segment row in these runs, and every commit of a row raises
its version, so a version that still stands is the row that was read.
-/
namespace Skippr.L3.Reclaim

open Skippr.L1 (SegmentId)
open Skippr.L2 (Bytes)
open Skippr.L2.Catalog (CompactionId txnMaxOps)

/-! ## Calls -/

/-- A completion: its segments with their ordinals, and the transactions whose
rows go with them. -/
structure Job where
  groups : List (SegmentId × List Nat)
  batch : List CompactionTransaction
  /-- `allows_reclaim` is asked. -/
  asks : Bool
deriving DecidableEq

/-- A segment row that an attempt has read, and what it is to do with it. -/
structure Planned where
  id : SegmentId
  row : SegmentRow
  ordinals : List Nat
  reclaim : Bool
  index : Bool
deriving DecidableEq

def Planned.drops (p : Planned) : Bool := (p.row.complete p.ordinals).done.allDone && p.reclaim

def Planned.ops (p : Planned) : List Op := completeOps p.id p.row p.ordinals p.reclaim p.index

/-- Where `resolve_ordinal` is with a reference: before its `get` of the index,
of the segment, then in `persist_missing_index` before its `get`, its commit,
and its second `get`. -/
inductive Stage
  | index
  | segment
  | probe (entries : List SliceDirEntry)
  | persist (entries : List SliceDirEntry)
  | recheck (entries : List SliceDirEntry)
deriving DecidableEq

/-- `attempts` counts those that are left after the one that runs. -/
inductive Pc
  | resolving (batch : List CompactionTransaction) (stage : Stage) (todo : List WalPartRef)
      (found : List (SegmentId × Nat))
  /-- Before the `get` of the next segment. -/
  | reading (job : Job) (attempts : Nat) (todo : List (SegmentId × List Nat)) (planned : List Planned)
  /-- Before the `get` of the index of a segment to drop. -/
  | probing (job : Job) (attempts : Nat) (p : Planned) (todo : List (SegmentId × List Nat))
      (planned : List Planned)
  /-- Before the `get` of the next compaction, or the commit. -/
  | listing (job : Job) (attempts : Nat) (todo : List CompactionTransaction) (planned : List Planned)
      (rows : List CompactionId)
  | returned (job : Job) (result : Except DurableError Unit)
  /-- `flush_acked_batch` failed before it had its ordinals. -/
  | unresolved (error : DurableError)
  /-- `replace_payload_location` before its `get`. -/
  | replacing (id : SegmentId) (location : PayloadLocation) (payloadLen : Nat) (payloadSha256 : Bytes)
  /-- Before its commit, with the row it read. -/
  | replacingRow (id : SegmentId) (location : PayloadLocation) (payloadLen : Nat)
      (payloadSha256 : Bytes) (row : SegmentRow)
  | replaced (result : Except DurableError Unit)
deriving DecidableEq

inductive CallKind
  | completeSlicesAndReclaim (id : SegmentId) (ordinals : List Nat)
  | flushAckedBatch (batch : List CompactionTransaction)
  | replacePayloadLocation (id : SegmentId) (location : PayloadLocation) (payloadLen : Nat)
      (payloadSha256 : Bytes)

/-- mirrors wal_handle.rs:1144-1152, 415-433 and 1075-1083 -/
def CallKind.start : CallKind → Pc
  | completeSlicesAndReclaim id ordinals =>
    .reading ⟨[(id, ordinals)], [], true⟩ (reclaimOccAttempts - 1) [(id, ordinals)] []
  | flushAckedBatch batch => .resolving batch .index (batch.flatMap (·.refs)) []
  | replacePayloadLocation id location payloadLen payloadSha256 =>
    .replacing id location payloadLen payloadSha256

/-! ## Steps -/

def resolvedAs (batch : List CompactionTransaction) (r : WalPartRef) (todo : List WalPartRef)
    (found : List (SegmentId × Nat)) (ordinal : Option Nat) : Pc :=
  .resolving batch .index todo (found ++ (ordinal.map fun o => (r.segmentId, o)).toList)

/-- mirrors wal_handle.rs:544-627 -/
def resolveNext (env : Env) (c : Catalog) (batch : List CompactionTransaction) (stage : Stage)
    (r : WalPartRef) (todo : List WalPartRef) (found : List (SegmentId × Nat)) : Catalog × Pc :=
  match r.ordinal with
  | some ordinal => (c, resolvedAs batch r todo found (some ordinal))
  | none =>
    match stage with
    | .index =>
      match (c.indexes r.segmentId).bind fun index => findOrdinal r index.entries with
      | some ordinal => (c, resolvedAs batch r todo found (some ordinal))
      | none => (c, .resolving batch .segment (r :: todo) found)
    | .segment =>
      match (c.segments r.segmentId).map SegmentRow.location with
      | some (.disk path) => (c, .resolving batch (.probe (env.readIndexPath path)) (r :: todo) found)
      | _ => (c, resolvedAs batch r todo found none)
    | .probe entries =>
      if (c.indexes r.segmentId).isSome ∨ entries = [] then
        (c, resolvedAs batch r todo found (findOrdinal r entries))
      else (c, .resolving batch (.persist entries) (r :: todo) found)
    | .persist entries =>
      match commit c [.putIndex r.segmentId ⟨0, entries⟩] with
      | some c' => (c', resolvedAs batch r todo found (findOrdinal r entries))
      | none => (c, .resolving batch (.recheck entries) (r :: todo) found)
    | .recheck entries =>
      if (c.indexes r.segmentId).isSome then
        (c, resolvedAs batch r todo found (findOrdinal r entries))
      else (c, .unresolved .catalogConflict)

def attemptOps (planned : List Planned) (rows : List CompactionId) : List Op :=
  planned.flatMap (·.ops) ++ rows.map .deleteCompaction

/-- The end of an attempt. A transaction that does not fit is refused when it is
built; it has not written by then either.
mirrors wal_handle.rs:500-523 and 1186-1216 -/
def commitNext (env : Env) (c : Catalog) (job : Job) (attempts : Nat) (planned : List Planned)
    (rows : List CompactionId) : Catalog × Pc :=
  if attemptOps planned rows = [] then (c, .returned job (.ok ()))
  else if txnMaxOps < (attemptOps planned rows).length then (c, .returned job (.error .txnFull))
  else
    match commit c (attemptOps planned rows) with
    | some c' => (c', .returned job (.ok ()))
    | none =>
      match attempts with
      | 0 => (c, .returned job (.error .catalogConflict))
      | attempts + 1 => (c, .reading job attempts (env.order job.groups) [])

/-- The next `get` or commit of a call; `allows` is what the stream processor
says if it is asked. -/
def next (env : Env) (c : Catalog) (allows : Bool) : Pc → Option (Catalog × Pc)
  | .resolving batch _ [] found =>
    some (c, .reading ⟨grouped found, batch, false⟩ (reclaimOccAttempts - 1)
      (env.order (grouped found)) [])
  | .resolving batch stage (r :: todo) found => some (resolveNext env c batch stage r todo found)
  | .reading job attempts [] planned => some (c, .listing job attempts job.batch planned [])
  | .reading job attempts (g :: todo) planned =>
    match c.segments g.1 with
    | none => some (c, .reading job attempts todo planned)
    | some row =>
      let p : Planned := ⟨g.1, row, g.2, !job.asks || allows, false⟩
      if p.drops then some (c, .probing job attempts p todo planned)
      else some (c, .reading job attempts todo (planned ++ [p]))
  | .probing job attempts p todo planned =>
    some (c, .reading job attempts todo (planned ++ [{ p with index := (c.indexes p.id).isSome }]))
  | .listing job attempts (t :: todo) planned rows =>
    some (c, .listing job attempts todo planned (if c.compactions t.id then rows ++ [t.id] else rows))
  | .listing job attempts [] planned rows => some (commitNext env c job attempts planned rows)
  | .replacing id location payloadLen payloadSha256 =>
    match c.segments id with
    | none => some (c, .replaced (.error .missingSegmentRow))
    | some row => some (c, .replacingRow id location payloadLen payloadSha256 row)
  | .replacingRow id location payloadLen payloadSha256 row =>
    let row' : SegmentRow := { row with
      location := location
      payloadLen := payloadLen
      payloadSha256 := payloadSha256
      version := row.version + 1 }
    match commit c [.putSegment id row' row.version] with
    | some c' => some (c', .replaced (.ok ()))
    | none => some (c, .replaced (.error .catalogConflict))
  | .returned _ _ => none
  | .unresolved _ => none
  | .replaced _ => none

structure St where
  catalog : Catalog
  calls : Nat → Option Pc

inductive Lbl
  | start (n : Nat) (call : CallKind)
  | step (n : Nat) (allows : Bool)

def step (env : Env) (s : St) : Lbl → Option St
  | .start n call =>
    match s.calls n with
    | none => some { s with calls := Function.update s.calls n (some call.start) }
    | some _ => none
  | .step n allows =>
    (s.calls n).bind fun pc => (next env s.catalog allows pc).map fun r =>
      ⟨r.1, Function.update s.calls n (some r.2)⟩

def lts (env : Env) : LTS St Lbl := LTS.ofFn (fun s => ∀ n, s.calls n = none) (step env)

/-! ## What a step does to the rows -/

/-- A row stays, goes, or is replaced by one of a higher version that keeps its
bits; none appears. -/
def Evolves (c c' : Catalog) : Prop :=
  ∀ id row', c'.segments id = some row' → ∃ row, c.segments id = some row ∧
    (row' = row ∨ row.version < row'.version ∧ row'.done.sliceCount = row.done.sliceCount ∧
      ∀ i, row.done.isDone i = true → row'.done.isDone i = true)

variable {c c' : Catalog} {id : SegmentId} {row : SegmentRow}

theorem Evolves.of_segments (h : c'.segments = c.segments) : Evolves c c' := by
  intro id row' hrow
  rw [h] at hrow
  exact ⟨row', hrow, .inl rfl⟩

theorem Evolves.refl (c : Catalog) : Evolves c c := .of_segments rfl

theorem Evolves.trans {a b : Catalog} (hab : Evolves a b) (hbc : Evolves b c) : Evolves a c := by
  intro id row'' hrow''
  obtain ⟨row', hrow', hlast⟩ := hbc id row'' hrow''
  obtain ⟨row, hrow, hfirst⟩ := hab id row' hrow'
  refine ⟨row, hrow, ?_⟩
  obtain rfl | ⟨hversion', hcount', hbits'⟩ := hlast
  · exact hfirst
  · obtain rfl | ⟨hversion, hcount, hbits⟩ := hfirst
    · exact .inr ⟨hversion', hcount', hbits'⟩
    · exact .inr ⟨by omega, hcount'.trans hcount, fun i hi => hbits' i (hbits i hi)⟩

theorem Evolves.update {left : Option SegmentRow} (hrow : c.segments id = some row)
    (hleft : ∀ row', left = some row' → row.version < row'.version ∧
      row'.done.sliceCount = row.done.sliceCount ∧
      ∀ i, row.done.isDone i = true → row'.done.isDone i = true)
    (h : c'.segments = Function.update c.segments id left) : Evolves c c' := by
  intro id' row' hrow'
  rw [h] at hrow'
  by_cases hid : id' = id
  · subst hid
    rw [Function.update_self] at hrow'
    exact ⟨row, hrow, .inr (hleft row' hrow')⟩
  · rw [Function.update_of_ne hid] at hrow'
    exact ⟨row', hrow', .inl rfl⟩

def Read (c : Catalog) (id : SegmentId) (row : SegmentRow) : Prop :=
  ∀ cur, c.segments id = some cur → cur = row ∨ row.version < cur.version

theorem Read.now (h : c.segments id = some row) :
    Read c id row := fun _ hcur => .inl (Option.some.inj (hcur.symm.trans h))

theorem Read.evolves (h : Read c id row) (hc : Evolves c c') : Read c' id row := by
  intro cur' hcur'
  obtain ⟨cur, hcur, hstep⟩ := hc id cur' hcur'
  obtain rfl | ⟨hversion, -, -⟩ := hstep
  · exact h cur' hcur
  · right
    obtain rfl | hlater := h cur hcur
    · exact hversion
    · omega

theorem Read.of_version (h : Read c id row)
    (hv : (c.segments id).any (·.version = row.version) = true) : c.segments id = some row := by
  rw [Option.any_eq_true] at hv
  obtain ⟨cur, hcur, hversion⟩ := hv
  rw [decide_eq_true_eq] at hversion
  obtain rfl | hlater := h cur hcur
  · exact hcur
  · omega

theorem isDone_complete {ordinals : List Nat} {i : Nat} :
    (row.complete ordinals).done.isDone i = true ↔
      row.done.isDone i = true ∨ i ∈ ordinals ∧ i < row.done.sliceCount := by
  rw [SegmentRow.complete, L2.SliceBitmap.isDone_orBits, List.mem_toFinset]

/-! ## What a call knows -/

/-- An attempt: what it has read was there, and every segment of the job is still
to be read, has been, or is gone. -/
structure Covers (c : Catalog) (job : Job) (todo : List (SegmentId × List Nat))
    (planned : List Planned) : Prop where
  jobNodup : (job.groups.map Prod.fst).Nodup
  nodup : (planned.map Planned.id ++ todo.map Prod.fst).Nodup
  read : ∀ p ∈ planned, Read c p.id p.row
  source : ∀ p ∈ planned, (p.id, p.ordinals) ∈ job.groups
  left : ∀ g ∈ todo, g ∈ job.groups
  groups : ∀ g ∈ job.groups, g ∈ todo ∨ (∃ p ∈ planned, p.id = g.1 ∧ p.ordinals = g.2) ∨
    c.segments g.1 = none

/-- The ordinals of the job that are slices of a segment are done, or the
segment is gone. -/
def Settled (c : Catalog) (job : Job) : Prop :=
  ∀ g ∈ job.groups, ∀ row, c.segments g.1 = some row →
    ∀ i ∈ g.2, i < row.done.sliceCount → row.done.isDone i = true

def Pc.Good (c : Catalog) : Pc → Prop
  | .reading job _ todo planned => Covers c job todo planned
  | .probing job _ p todo planned =>
    Covers c job ((p.id, p.ordinals) :: todo) planned ∧ Read c p.id p.row
  | .listing job _ _ planned _ => Covers c job [] planned
  | .returned job (.ok ()) => Settled c job
  | .replacingRow id _ _ _ row => Read c id row
  | .resolving _ _ _ _ => True
  | .returned _ (.error _) => True
  | .unresolved _ => True
  | .replacing _ _ _ _ => True
  | .replaced _ => True

section Evolve
variable {c c' : Catalog} {job : Job} {todo : List (SegmentId × List Nat)} {planned : List Planned}

theorem Evolves.none {id : SegmentId} (hc : Evolves c c') (h : c.segments id = none) :
    c'.segments id = none := by
  cases hrow : c'.segments id with
  | none => rfl
  | some row' =>
    obtain ⟨row, hrow, -⟩ := hc id row' hrow
    rw [h] at hrow
    cases hrow

theorem Covers.evolves (h : Covers c job todo planned) (hc : Evolves c c') :
    Covers c' job todo planned := { h with
  read p hp := (h.read p hp).evolves hc
  groups g hg := (h.groups g hg).imp_right fun hrest => hrest.imp_right hc.none }

theorem Settled.evolves (h : Settled c job) (hc : Evolves c c') : Settled c' job := by
  intro g hg row' hrow' i hi hlt
  obtain ⟨row, hrow, hstep⟩ := hc g.1 row' hrow'
  obtain rfl | ⟨-, hcount, hbits⟩ := hstep
  · exact h g hg row' hrow i hi hlt
  · exact hbits i (h g hg row hrow i hi (hcount ▸ hlt))

theorem Pc.Good.evolves {pc : Pc} (h : pc.Good c) (hc : Evolves c c') : pc.Good c' := by
  cases pc with
  | reading job attempts todo planned | listing job attempts todo planned rows =>
    exact Covers.evolves h hc
  | probing job attempts p todo planned => exact ⟨h.1.evolves hc, h.2.evolves hc⟩
  | returned job result =>
    cases result with
    | ok _ => exact Settled.evolves h hc
    | error _ => trivial
  | replacingRow id location payloadLen payloadSha256 row => exact Read.evolves h hc
  | resolving batch stage todo found | unresolved error
  | replacing id location payloadLen payloadSha256 | replaced result => trivial

end Evolve

/-! ## The commit of an attempt -/

section Attempt
variable {c c' d : Catalog} {planned : List Planned} {rows : List CompactionId} {id : SegmentId}

def Planned.left (p : Planned) : Option SegmentRow :=
  if p.drops then none else some (p.row.complete p.ordinals)

theorem segments_foldl_ops (p : Planned) :
    (p.ops.foldl Op.apply d).segments = Function.update d.segments p.id p.left := by
  unfold Planned.ops Planned.left Planned.drops completeOps
  split
  · split
    · rfl
    · rfl
  · rfl

theorem segments_foldl_deleteCompaction :
    ((rows.map Op.deleteCompaction).foldl Op.apply d).segments = d.segments := by
  induction rows generalizing d with
  | nil => rfl
  | cons id rows ih =>
    rw [List.map_cons, List.foldl_cons, ih]
    rfl

theorem segments_of_notMem (h : id ∉ planned.map Planned.id) :
    ((attemptOps planned rows).foldl Op.apply d).segments id = d.segments id := by
  rw [attemptOps, List.foldl_append, segments_foldl_deleteCompaction]
  induction planned generalizing d with
  | nil => rfl
  | cons p planned ih =>
    rw [List.map_cons, List.mem_cons, not_or] at h
    rw [List.flatMap_cons, List.foldl_append, ih h.2, segments_foldl_ops, Function.update_of_ne h.1]

theorem segments_of_mem {p : Planned} (hnodup : (planned.map Planned.id).Nodup) (hp : p ∈ planned) :
    ((attemptOps planned rows).foldl Op.apply d).segments p.id = p.left := by
  induction planned generalizing d with
  | nil => cases hp
  | cons q planned ih =>
    rw [List.map_cons, List.nodup_cons] at hnodup
    have hcons : (attemptOps (q :: planned) rows).foldl Op.apply d =
        (attemptOps planned rows).foldl Op.apply (q.ops.foldl Op.apply d) := by
      simp only [attemptOps, List.flatMap_cons, List.append_assoc, List.foldl_append]
    rw [hcons]
    cases List.mem_cons.1 hp with
    | inl heq =>
      rw [heq, segments_of_notMem hnodup.1, segments_foldl_ops, Function.update_self]
    | inr hmem => exact ih hnodup.2 hmem

/-- **A commit that goes through** finds every row as it was read. -/
theorem commit_attempt {job : Job} (h : Covers c job [] planned)
    (hcommit : commit c (attemptOps planned rows) = some c') :
    (∀ p ∈ planned, c.segments p.id = some p.row ∧ c'.segments p.id = p.left) ∧
      ∀ id, id ∉ planned.map Planned.id → c'.segments id = c.segments id := by
  obtain ⟨hholds, rfl⟩ := of_guard hcommit
  have hnodup : (planned.map Planned.id).Nodup := by
    have := h.nodup
    rwa [List.map_nil, List.append_nil] at this
  refine ⟨fun p hp => ⟨?_, segments_of_mem hnodup hp⟩, fun id hid => segments_of_notMem hid⟩
  have hops : ∀ op ∈ p.ops, op.holds c = true := fun op hop => List.all_eq_true.1 hholds op
    (List.mem_append_left _ (List.mem_flatMap.2 ⟨p, hp, hop⟩))
  refine (h.read p hp).of_version ?_
  unfold Planned.ops completeOps at hops
  split at hops <;> exact hops _ List.mem_cons_self

end Attempt

/-! ## One step -/

def Pc.job? : Pc → Option Job
  | .reading job _ _ _ => some job
  | .probing job _ _ _ _ => some job
  | .listing job _ _ _ _ => some job
  | _ => none

/-- The call completes the segment, and its ordinals with the bits of the row are
all slices there are. -/
def Drops (pc : Pc) (id : SegmentId) (row : SegmentRow) : Prop :=
  ∃ job ordinals, pc.job? = some job ∧ (id, ordinals) ∈ job.groups ∧
    ∀ i < row.done.sliceCount, row.done.isDone i = true ∨ i ∈ ordinals

structure Sound (c : Catalog) (pc : Pc) (c' : Catalog) (pc' : Pc) : Prop where
  evolves : Evolves c c'
  good : pc'.Good c'
  dropped : ∀ id row, c.segments id = some row → c'.segments id = none → Drops pc id row

section Next
variable {env : Env} {c c' : Catalog} {pc pc' : Pc}

theorem Sound.of_segments (h : c'.segments = c.segments) (hgood : pc'.Good c') :
    Sound c pc c' pc' where
  evolves := .of_segments h
  good := hgood
  dropped id row hrow hnone := by
    rw [h, hrow] at hnone
    cases hnone

variable {job : Job} {todo : List (SegmentId × List Nat)} {g : SegmentId × List Nat}
  {planned : List Planned}

theorem Covers.start (h : todo.Perm job.groups) (hnodup : (job.groups.map Prod.fst).Nodup) :
    Covers c job todo [] where
  jobNodup := hnodup
  nodup := (h.map Prod.fst).nodup_iff.2 hnodup
  read _ hp := by cases hp
  source _ hp := by cases hp
  left _ hg := h.mem_iff.1 hg
  groups _ hg := .inl (h.mem_iff.2 hg)

theorem Covers.plan {p : Planned} (h : Covers c job (g :: todo) planned) (hid : p.id = g.1)
    (hordinals : p.ordinals = g.2) (hread : Read c p.id p.row) :
    Covers c job todo (planned ++ [p]) where
  jobNodup := h.jobNodup
  nodup := by
    have := h.nodup
    rwa [List.map_cons, ← hid, ← List.singleton_append, ← List.append_assoc,
      show [p.id] = [p].map Planned.id from rfl, ← List.map_append] at this
  read q hq := by
    cases List.mem_append.1 hq with
    | inl hold => exact h.read q hold
    | inr hnew => exact List.mem_singleton.1 hnew ▸ hread
  source q hq := by
    cases List.mem_append.1 hq with
    | inl hold => exact h.source q hold
    | inr hnew =>
      rw [List.mem_singleton.1 hnew, hid, hordinals]
      exact h.left g List.mem_cons_self
  left g' hg' := h.left g' (List.mem_cons_of_mem _ hg')
  groups g' hg' := by
    obtain hmem | ⟨q, hq, hsame⟩ | hnone := h.groups g' hg'
    · cases List.mem_cons.1 hmem with
      | inl heq =>
        rw [heq]
        exact .inr (.inl ⟨p, List.mem_append_right _ (List.mem_singleton_self p), hid, hordinals⟩)
      | inr hrest => exact .inl hrest
    · exact .inr (.inl ⟨q, List.mem_append_left _ hq, hsame⟩)
    · exact .inr (.inr hnone)

theorem Covers.skip (h : Covers c job (g :: todo) planned) (hnone : c.segments g.1 = none) :
    Covers c job todo planned where
  jobNodup := h.jobNodup
  nodup := h.nodup.sublist (List.Sublist.append_left (List.sublist_cons_self _ _) _)
  read := h.read
  source := h.source
  left g' hg' := h.left g' (List.mem_cons_of_mem _ hg')
  groups g' hg' := by
    obtain hmem | hrest := h.groups g' hg'
    · cases List.mem_cons.1 hmem with
      | inl heq => exact .inr (.inr (heq ▸ hnone))
      | inr hrest => exact .inl hrest
    · exact .inr hrest

theorem Covers.planned_or_none (h : Covers c job [] planned) (hg : g ∈ job.groups) :
    (∃ p ∈ planned, p.id = g.1 ∧ p.ordinals = g.2) ∨ c.segments g.1 = none := by
  obtain hmem | hrest := h.groups g hg
  · cases hmem
  · exact hrest

section Committed
variable {job : Job} {planned : List Planned}
  (hplanned : ∀ p ∈ planned, c.segments p.id = some p.row ∧ c'.segments p.id = p.left)
  (hother : ∀ id, id ∉ planned.map Planned.id → c'.segments id = c.segments id)
include hplanned hother

theorem evolves_of_committed : Evolves c c' := by
  intro id row' hrow'
  by_cases hid : id ∈ planned.map Planned.id
  · obtain ⟨p, hp, rfl⟩ := List.mem_map.1 hid
    obtain ⟨hrow, hleft⟩ := hplanned p hp
    refine ⟨p.row, hrow, .inr ?_⟩
    rw [hleft, Planned.left] at hrow'
    obtain ⟨-, rfl⟩ := of_guard_not hrow'
    exact ⟨Nat.lt_succ_self _, rfl, fun i hi => isDone_complete.2 (.inl hi)⟩
  · rw [hother id hid] at hrow'
    exact ⟨row', hrow', .inl rfl⟩

theorem settled_of_committed (h : Covers c job [] planned) : Settled c' job := by
  intro g hg row' hrow' i hi hlt
  obtain ⟨p, hp, hid, hordinals⟩ | hnone := h.planned_or_none hg
  · rw [← hid, (hplanned p hp).2, Planned.left] at hrow'
    obtain ⟨-, rfl⟩ := of_guard_not hrow'
    exact isDone_complete.2 (.inr ⟨hordinals ▸ hi, hlt⟩)
  · -- A segment that is gone stays gone.
    rw [(evolves_of_committed hplanned hother).none hnone] at hrow'
    cases hrow'

theorem drops_of_committed (hjob : pc.job? = some job) (h : Covers c job [] planned)
    {id : SegmentId} {row : SegmentRow} (hrow : c.segments id = some row)
    (hnone : c'.segments id = none) : Drops pc id row := by
  by_cases hid : id ∈ planned.map Planned.id
  · obtain ⟨p, hp, rfl⟩ := List.mem_map.1 hid
    obtain ⟨hread, hleft⟩ := hplanned p hp
    cases hrow.symm.trans hread
    refine ⟨job, p.ordinals, hjob, h.source p hp, fun i hi => ?_⟩
    rw [hleft, Planned.left] at hnone
    split at hnone
    · rename_i hdrops
      rw [Planned.drops, Bool.and_eq_true] at hdrops
      have hdone := isDone_complete.1 (L2.SliceBitmap.isDone_of_allDone hdrops.1 hi)
      exact hdone.imp_right And.left
    · cases hnone
  · rw [hother id hid, hrow] at hnone
    cases hnone

end Committed

theorem commitNext_sound {attempts : Nat} {rows : List CompactionId} (hjob : pc.job? = some job)
    (h : Covers c job [] planned) :
    Sound c pc (commitNext env c job attempts planned rows).1
      (commitNext env c job attempts planned rows).2 := by
  unfold commitNext
  split
  · -- Nothing to do: every segment was gone when it was read.
    rename_i hnil
    refine .of_segments rfl fun g hg row hrow => ?_
    obtain ⟨p, hp, -⟩ | hnone := h.planned_or_none hg
    · have hops : p.ops = [] := by
        rw [attemptOps, List.append_eq_nil_iff, List.flatMap_eq_nil_iff] at hnil
        exact hnil.1 p hp
      unfold Planned.ops completeOps at hops
      split at hops
      · cases hops
      · cases hops
    · rw [hnone] at hrow
      cases hrow
  · split
    · exact .of_segments rfl trivial
    · split
      · rename_i c' hcommit
        obtain ⟨hplanned, hother⟩ := commit_attempt h hcommit
        exact ⟨evolves_of_committed hplanned hother, settled_of_committed hplanned hother h,
          fun id row => drops_of_committed hplanned hother hjob h⟩
      · split
        · exact .of_segments rfl trivial
        · exact .of_segments rfl (Covers.start (env.order_perm _) h.jobNodup)

theorem resolveNext_sound {batch : List CompactionTransaction} {stage : Stage} {r : WalPartRef}
    {todo : List WalPartRef} {found : List (SegmentId × Nat)} :
    Sound c pc (resolveNext env c batch stage r todo found).1
      (resolveNext env c batch stage r todo found).2 := by
  unfold resolveNext
  split
  · exact .of_segments rfl trivial
  · split
    · split
      · exact .of_segments rfl trivial
      · exact .of_segments rfl trivial
    · split
      · exact .of_segments rfl trivial
      · exact .of_segments rfl trivial
    · split
      · exact .of_segments rfl trivial
      · exact .of_segments rfl trivial
    · split
      · -- The only commit of this part writes an index.
        rename_i entries c' hcommit
        obtain ⟨-, rfl⟩ := of_guard hcommit
        exact .of_segments rfl trivial
      · exact .of_segments rfl trivial
    · split
      · exact .of_segments rfl trivial
      · exact .of_segments rfl trivial

theorem replaceNext_sound {id : SegmentId} {row row' : SegmentRow} (hread : Read c id row)
    (hdone : row'.done = row.done) (hversion : row'.version = row.version + 1)
    (hcommit : commit c [.putSegment id row' row.version] = some c') :
    Sound c pc c' (.replaced (.ok ())) := by
  obtain ⟨hholds, rfl⟩ := of_guard hcommit
  have hrow := hread.of_version (List.all_eq_true.1 hholds _ List.mem_cons_self)
  refine ⟨.update hrow ?_ rfl, trivial, fun id' row₀ hrow₀ hnone => ?_⟩
  · intro row'' heq
    cases heq
    rw [hversion, hdone]
    exact ⟨Nat.lt_succ_self _, rfl, fun i hi => hi⟩
  · -- A row is put, none is dropped.
    dsimp only [List.foldl_cons, List.foldl_nil, Op.apply] at hnone
    by_cases hid : id' = id
    · rw [hid, Function.update_self] at hnone
      cases hnone
    · rw [Function.update_of_ne hid, hrow₀] at hnone
      cases hnone

/-- **One step** of a call. -/
theorem next_sound {allows : Bool} (h : next env c allows pc = some (c', pc')) (hgood : pc.Good c) :
    Sound c pc c' pc' := by
  cases pc with
  | resolving batch stage todo found =>
    cases todo with
    | nil =>
      cases h
      exact .of_segments rfl (Covers.start (env.order_perm _) (keys_grouped found ▸ List.nodup_dedup _))
    | cons r todo =>
      obtain ⟨rfl, rfl⟩ := Prod.ext_iff.1 (Option.some.inj h)
      exact resolveNext_sound
  | reading job attempts todo planned =>
    cases todo with
    | nil =>
      cases h
      exact .of_segments rfl hgood
    | cons g todo =>
      simp only [next] at h
      split at h
      · rename_i hnone
        cases h
        exact .of_segments rfl (Covers.skip hgood hnone)
      · rename_i row hrow
        split at h
        · cases h
          exact .of_segments rfl ⟨hgood, .now hrow⟩
        · cases h
          exact .of_segments rfl (Covers.plan hgood rfl rfl (.now hrow))
  | probing job attempts p todo planned =>
    cases h
    exact .of_segments rfl (Covers.plan hgood.1 rfl rfl hgood.2)
  | listing job attempts todo planned rows =>
    cases todo with
    | nil =>
      obtain ⟨rfl, rfl⟩ := Prod.ext_iff.1 (Option.some.inj h)
      exact commitNext_sound rfl hgood
    | cons t todo =>
      cases h
      exact .of_segments rfl hgood
  | replacing id location payloadLen payloadSha256 =>
    simp only [next] at h
    split at h
    · cases h
      exact .of_segments rfl trivial
    · rename_i row hrow
      cases h
      exact .of_segments rfl (Read.now hrow)
  | replacingRow id location payloadLen payloadSha256 row =>
    simp only [next] at h
    split at h
    · rename_i c'' hcommit
      cases h
      refine replaceNext_sound hgood ?_ ?_ hcommit
      · rfl
      · rfl
    · cases h
      exact .of_segments rfl trivial
  | returned job result | unresolved error | replaced result => cases h

end Next

/-! ## Whole runs -/

section Run
variable {env : Env} {s s' : St} {l : Lbl}

def Inv (s : St) : Prop := ∀ n pc, s.calls n = some pc → pc.Good s.catalog

theorem start_good (call : CallKind) (c : Catalog) : call.start.Good c := by
  cases call with
  | completeSlicesAndReclaim id ordinals => exact Covers.start (.refl _) (List.nodup_singleton _)
  | flushAckedBatch batch | replacePayloadLocation id location payloadLen payloadSha256 => trivial

theorem step_cases (h : step env s l = some s') :
    (∃ n, ∃ call : CallKind, s' = { s with calls := Function.update s.calls n (some call.start) }) ∨
      ∃ n allows pc pc', l = .step n allows ∧ s.calls n = some pc ∧
        next env s.catalog allows pc = some (s'.catalog, pc') ∧
        s'.calls = Function.update s.calls n (some pc') := by
  cases l with
  | start n call =>
    simp only [step] at h
    split at h
    · exact .inl ⟨n, call, (Option.some.inj h).symm⟩
    · cases h
  | step n allows =>
    obtain ⟨pc, hpc, h⟩ := Option.bind_eq_some_iff.1 h
    obtain ⟨⟨c', pc'⟩, hnext, rfl⟩ := Option.map_eq_some_iff.1 h
    exact .inr ⟨n, allows, pc, pc', rfl, hpc, hnext, rfl⟩

theorem evolves_step (hinv : Inv s) (h : step env s l = some s') : Evolves s.catalog s'.catalog := by
  obtain ⟨n, call, rfl⟩ | ⟨n, allows, pc, pc', -, hpc, hnext, -⟩ := step_cases h
  · exact .refl _
  · exact (next_sound hnext (hinv n pc hpc)).evolves

theorem inv_step (hinv : Inv s) (h : step env s l = some s') : Inv s' := by
  have hevolves := evolves_step hinv h
  obtain ⟨n, call, rfl⟩ | ⟨n, allows, pc, pc', -, hpc, hnext, hcalls⟩ := step_cases h
  · intro m pc hm
    by_cases hmn : m = n
    · rw [hmn] at hm
      dsimp only at hm
      rw [Function.update_self] at hm
      cases hm
      exact start_good call _
    · dsimp only at hm
      rw [Function.update_of_ne hmn] at hm
      exact hinv m pc hm
  · intro m qc hm
    rw [hcalls] at hm
    by_cases hmn : m = n
    · rw [hmn, Function.update_self] at hm
      cases hm
      exact (next_sound hnext (hinv n pc hpc)).good
    · rw [Function.update_of_ne hmn] at hm
      exact (hinv m qc hm).evolves hevolves

theorem inv_inductive (env : Env) : (lts env).Inductive Inv where
  init s hs n pc hpc := by
    rw [hs n] at hpc
    cases hpc
  step _ _ _ hinv h := inv_step hinv h

/-- **Completions are safe.** In every run of any number of these calls: a bit
that is set stays set as long as the row is there, and no row appears; a
completion that has returned Ok finds every slice among its ordinals done, or
the segment gone; and a row is dropped only by a completion of its segment whose
ordinals, with the bits of the row, are all its slices. -/
theorem completions_safe (env : Env) (s : St) (hs : (lts env).Reachable s) :
    (∀ ls s', (lts env).Run s ls s' → ∀ id row', s'.catalog.segments id = some row' →
      ∃ row, s.catalog.segments id = some row ∧
        ∀ i, row.done.isDone i = true → row'.done.isDone i = true) ∧
    (∀ n job, s.calls n = some (.returned job (.ok ())) → ∀ g ∈ job.groups, ∀ row,
      s.catalog.segments g.1 = some row →
        ∀ i ∈ g.2, i < row.done.sliceCount → row.done.isDone i = true) ∧
    (∀ l s', step env s l = some s' → ∀ id row, s.catalog.segments id = some row →
      s'.catalog.segments id = none →
        ∃ n allows pc, l = .step n allows ∧ s.calls n = some pc ∧ Drops pc id row) := by
  have hinv := (inv_inductive env).reachable s hs
  refine ⟨fun ls s' hrun id row' hrow' => ?_, fun n job hn => hinv n _ hn, fun l s' hstep id row hrow hnone => ?_⟩
  · have hevolves := hrun.keeps (P := fun s' => Inv s' ∧ Evolves s.catalog s'.catalog)
      (fun _ _ _ h hstep => ⟨inv_step h.1 hstep, h.2.trans (evolves_step h.1 hstep)⟩) ⟨hinv, .refl _⟩
    obtain ⟨row, hrow, hsame⟩ := hevolves.2 id row' hrow'
    refine ⟨row, hrow, fun i hi => ?_⟩
    obtain rfl | ⟨-, -, hbits⟩ := hsame
    · exact hi
    · exact hbits i hi
  · obtain ⟨n, call, rfl⟩ | ⟨n, allows, pc, pc', hl, hpc, hnext, -⟩ := step_cases hstep
    · dsimp only at hnone
      rw [hrow] at hnone
      cases hnone
    · exact ⟨n, allows, pc, hl, hpc, (next_sound hnext (hinv n pc hpc)).dropped id row hrow hnone⟩

end Run

/-! ## Two runs -/

section Examples

def oneSegment : St := ⟨oneSlice (· = firstSegment), fun _ => none⟩

theorem oneSegment_init : (lts holding).init oneSegment := fun _ => rfl

/-- Call 0 completes ordinals of the first segment, which the processor allows to
drop, up to its commit. -/
def completing (ordinals : List Nat) (steps : Nat) : List Lbl :=
  .start 0 (.completeSlicesAndReclaim firstSegment ordinals) :: List.replicate steps (.step 0 true)

/-- A segment of which all slices are completed is dropped by the commit that
completes the last one; the completion has returned Ok. -/
theorem completions_safe_dropped : ∃ s s' : St, (lts holding).Reachable s ∧
    step holding s (.step 0 true) = some s' ∧
    s'.calls 0 = some (.returned ⟨[(firstSegment, [0])], [], true⟩ (.ok ())) ∧
    s'.catalog.segments firstSegment = none ∧
    ∃ row, s.catalog.segments firstSegment = some row ∧
      ∃ n allows pc, Lbl.step 0 true = .step n allows ∧ s.calls n = some pc ∧
        Drops pc firstSegment row := by
  obtain ⟨s, hreach, hs⟩ : ∃ s, (lts holding).Reachable s ∧ (step holding s (.step 0 true)).any fun s' =>
      s'.calls 0 = some (.returned ⟨[(firstSegment, [0])], [], true⟩ (.ok ())) ∧
      (s.catalog.segments firstSegment).isSome ∧ s'.catalog.segments firstSegment = none :=
    exists_reachable (completing [0] 3) oneSegment_init (by decide +kernel)
  obtain ⟨s', hstep, hs'⟩ := (Option.any_eq_true ..).1 hs
  obtain ⟨hreturned, hsome, hnone⟩ := of_decide_eq_true hs'
  obtain ⟨row, hrow⟩ := Option.isSome_iff_exists.1 hsome
  exact ⟨s, s', hreach, hstep, hreturned, hnone, row, hrow,
    (completions_safe holding s hreach).2.2 _ s' hstep firstSegment row hrow hnone⟩

/-- **What is not so.** A completion of an ordinal that is no slice returns Ok
with the row there and no bit set; and a row is dropped in a state in which its
last slice is not marked yet. -/
theorem ordinal_not_set :
    (∃ s, (lts holding).Reachable s ∧
      s.calls 0 = some (.returned ⟨[(firstSegment, [5])], [], true⟩ (.ok ())) ∧
      ∃ row, s.catalog.segments firstSegment = some row ∧ row.done.isDone 5 = false) ∧
    ∃ s s', (lts holding).Reachable s ∧ step holding s (.step 0 true) = some s' ∧
      s'.catalog.segments firstSegment = none ∧
      ∃ row, s.catalog.segments firstSegment = some row ∧ row.done.sliceCount = 1 ∧
        row.done.isDone 0 = false := by
  constructor
  · obtain ⟨s, hreach, hreturned, hbit⟩ : ∃ s, (lts holding).Reachable s ∧
        s.calls 0 = some (.returned ⟨[(firstSegment, [5])], [], true⟩ (.ok ())) ∧
        (s.catalog.segments firstSegment).any fun row => row.done.isDone 5 = false :=
      exists_reachable (completing [5] 3) oneSegment_init (by decide +kernel)
    obtain ⟨row, hrow, hunset⟩ := (Option.any_eq_true ..).1 hbit
    exact ⟨s, hreach, hreturned, row, hrow, of_decide_eq_true hunset⟩
  · obtain ⟨s, hreach, hs⟩ : ∃ s, (lts holding).Reachable s ∧
        (step holding s (.step 0 true)).any fun s' =>
          s'.catalog.segments firstSegment = none ∧ (s.catalog.segments firstSegment).any fun row =>
            row.done.sliceCount = 1 ∧ row.done.isDone 0 = false :=
      exists_reachable (completing [0] 3) oneSegment_init (by decide +kernel)
    obtain ⟨s', hstep, hs'⟩ := (Option.any_eq_true ..).1 hs
    obtain ⟨hnone, hrow⟩ := of_decide_eq_true hs'
    obtain ⟨row, hrow, hunset⟩ := (Option.any_eq_true ..).1 hrow
    exact ⟨s, s', hreach, hstep, hnone, row, hrow, of_decide_eq_true hunset⟩

end Examples

end Skippr.L3.Reclaim
