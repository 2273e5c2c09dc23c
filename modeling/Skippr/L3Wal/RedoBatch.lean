import Skippr.L3Wal.Reclaim

/-!
# The redo against the live path

`flush_acked_batch` is to do in one catalog transaction what
`complete_slices_and_reclaim` and `delete_compaction` do call by call. It does,
but for three things: it drops a segment that the stream processor still holds;
a transaction takes 99 operations, which bounds segments and not only
compactions; and it may leave an index row that it wrote to resolve a reference.
-/
namespace Skippr.L3.Reclaim

open Skippr.L1 (SegmentId)
open Skippr.L2.Catalog (CompactionId txnMaxOps)

section Batch
variable (env : Env) (c : Catalog) (batch : List CompactionTransaction)

def refsOf (batch : List CompactionTransaction) : List WalPartRef := batch.flatMap (·.refs)

def referenced : List (SegmentId × List Nat) :=
  grouped ((refsOf batch).filterMap fun r =>
    (resolveOrdinal env c r).1.map fun o => (r.segmentId, o))

/-- The live path for the transactions of a batch.
mirrors src/buffer/ingest_buffer.rs:3288-3319 -/
def completeAndDelete : Catalog :=
  batch.foldl (fun c t => (deleteCompaction c t.id).2)
    ((referenced env c batch).foldl
      (fun c g => (completeSlicesAndReclaim env.allowsReclaim c g.1 g.2).2) c)

/-! ## Conditions on the catalog -/

def completes (g : SegmentId × List Nat) : Bool :=
  (c.segments g.1).any fun row => (row.complete g.2).done.allDone

def indexed (id : SegmentId) : Bool :=
  (c.indexes id).isSome || (refsOf batch).any fun r => decide (r.segmentId = id) && writesIndex env c r

/-- Referenced segments that are live, those of them that are completed and have
an index, and compactions that have a row. -/
def opCount : Nat :=
  (referenced env c batch).countP (fun g => (c.segments g.1).isSome) +
    (referenced env c batch).countP (fun g => completes c g && indexed env c batch g.1) +
    batch.countP fun t => c.compactions t.id

/-- The stream processor holds none of the segments that are completed. -/
def Released : Prop :=
  ∀ g ∈ referenced env c batch, ∀ row, c.segments g.1 = some row →
    (row.complete g.2).done.allDone = true → env.allowsReclaim row.seq = true

/-- An index row that is written to resolve a reference goes with its segment. -/
def IndexesGone : Prop :=
  ∀ r ∈ refsOf batch, writesIndex env c r = true →
    ∃ g ∈ referenced env c batch, g.1 = r.segmentId ∧ completes c g = true

/-! ## The redo as one update -/

theorem keys_grouped (resolved : List (SegmentId × Nat)) :
    (grouped resolved).map Prod.fst = (resolved.map Prod.fst).dedup := by
  rw [grouped, List.map_map]
  exact List.map_id _

theorem nodup_referenced : ((referenced env c batch).map Prod.fst).Nodup := by
  rw [referenced, keys_grouped]
  exact List.nodup_dedup _

/-- The catalog with the indexes written to resolve the references. -/
def resolved : Catalog := (resolveAll env c (refsOf batch)).2

theorem extends_resolved : Extends env c (resolved env c batch) :=
  (resolveAll_eq (.refl env c) _).2.1

theorem isSome_resolved (id : SegmentId) :
    ((resolved env c batch).indexes id).isSome = indexed env c batch id :=
  (resolveAll_eq (.refl env c) _).2.2 id

theorem length_segmentOps (g : SegmentId × List Nat) :
    (segmentOps c g).length = (if (c.segments g.1).isSome then 1 else 0) +
      if completes c g && (c.indexes g.1).isSome then 1 else 0 := by
  unfold segmentOps completes completeOps
  cases c.segments g.1 with
  | none => rfl
  | some row =>
    simp only [Option.any_some, Bool.and_true, Option.isSome_some, if_true]
    by_cases hall : (row.complete g.2).done.allDone
    · by_cases hindex : (c.indexes g.1).isSome <;> simp [hall, hindex]
    · simp [hall]

theorem length_flatMap_segmentOps (groups : List (SegmentId × List Nat)) :
    (groups.flatMap (segmentOps c)).length = groups.countP (fun g => (c.segments g.1).isSome) +
      groups.countP fun g => completes c g && (c.indexes g.1).isSome := by
  induction groups with
  | nil => rfl
  | cons g groups ih =>
    rw [List.flatMap_cons, List.length_append, length_segmentOps, ih, List.countP_cons,
      List.countP_cons]
    omega

theorem length_flatMap_compactionOps :
    (batch.flatMap (compactionOps c)).length = batch.countP fun t => c.compactions t.id := by
  induction batch with
  | nil => rfl
  | cons t batch ih =>
    rw [List.flatMap_cons, List.length_append, ih, List.countP_cons, compactionOps]
    split
    · rw [List.length_singleton, Nat.add_comm]
    · rw [List.length_nil, Nat.zero_add, Nat.add_zero]

theorem length_flushOps :
    (flushOps (resolved env c batch) (env.order (referenced env c batch)) batch).length =
      opCount env c batch := by
  have hext := extends_resolved env c batch
  rw [flushOps, List.length_append, length_flatMap_compactionOps, hext.compactions,
    ((env.order_perm _).flatMap_right _).length_eq, length_flatMap_segmentOps, opCount]
  simp only [completes, hext.segments, isSome_resolved]

/-- **The redo** resolves the references; if its operations fit it completes each
segment as if nothing was held, and forgets the compactions. -/
theorem flushAckedBatch_eq : flushAckedBatch env c batch =
    if opCount env c batch ≤ txnMaxOps then
      (.ok batch.length, ((referenced env c batch).foldl (completion fun _ => true)
        (resolved env c batch)).forget batch)
    else (.error .txnFull, resolved env c batch) := by
  have hgroups : grouped (resolveAll env c (refsOf batch)).1 = referenced env c batch := by
    rw [(resolveAll_eq (.refl env c) _).1, referenced]
  have hflush : flushAckedBatch env c batch =
      flushAttempts env (resolved env c batch) (referenced env c batch) batch (7 + 1) := by
    rw [← hgroups]
    rfl
  rw [hflush, ← length_flushOps]
  split
  · rename_i hfits
    exact flushAttempts_of_fits env 7 (nodup_referenced env c batch) hfits
  · rename_i hfull
    rw [flushAttempts_eq, if_neg hfull]

theorem completeAndDelete_eq : completeAndDelete env c batch =
    ((referenced env c batch).foldl (completion env.allowsReclaim) c).forget batch := by
  rw [completeAndDelete, foldl_deleteCompaction]
  simp only [completeSlicesAndReclaim_eq]

/-! ## Size -/

/-- **When the redo is refused for its size**: the live segments it references,
the indexes of those it completes and its compaction rows are more than 99. -/
theorem flush_not_refused_iff :
    (flushAckedBatch env c batch).1 ≠ .error .txnFull ↔ opCount env c batch ≤ txnMaxOps := by
  rw [flushAckedBatch_eq]
  split
  · rename_i hfits
    simp [hfits]
  · rename_i hfull
    simp [hfull]

/-! ## The same catalog -/

theorem drops_true (ordinals : List Nat) (row : SegmentRow) :
    drops (fun _ => true) ordinals row = (row.complete ordinals).done.allDone := Bool.and_true _

theorem completeAndDelete_ne_resolved (h : 0 < opCount env c batch) :
    resolved env c batch ≠ completeAndDelete env c batch := by
  intro heq
  have hext := extends_resolved env c batch
  rw [completeAndDelete_eq] at heq
  have hcases : (∃ g ∈ referenced env c batch, (c.segments g.1).isSome) ∨
      ∃ t ∈ batch, c.compactions t.id = true := by
    by_contra hnone
    rw [not_or] at hnone
    have hsegments : (referenced env c batch).countP (fun g => (c.segments g.1).isSome) = 0 :=
      List.countP_eq_zero.2 fun g hg hlive => hnone.1 ⟨g, hg, hlive⟩
    have hindexes : (referenced env c batch).countP
        (fun g => completes c g && indexed env c batch g.1) = 0 := by
      refine List.countP_eq_zero.2 fun g hg hdone => hnone.1 ⟨g, hg, ?_⟩
      rw [Bool.and_eq_true] at hdone
      exact Option.isSome_of_any hdone.1
    have hcompactions : batch.countP (fun t => c.compactions t.id) = 0 :=
      List.countP_eq_zero.2 fun t ht hlive => hnone.2 ⟨t, ht, hlive⟩
    unfold opCount at h
    omega
  cases hcases with
  | inl hlive =>
    obtain ⟨g, hg, hsome⟩ := hlive
    obtain ⟨row, hrow⟩ := Option.isSome_iff_exists.1 hsome
    have hsegment := congrArg (fun d => d.segments g.1) heq
    dsimp only [Catalog.forget] at hsegment
    rw [hext.segments, (foldl_completion_of_mem _ c (nodup_referenced env c batch) hg).1, hrow,
      Option.bind_some, completedRow] at hsegment
    split at hsegment
    · cases hsegment
    · -- The row that is put has the next version.
      have hversion := congrArg SegmentRow.version (Option.some.inj hsegment)
      dsimp only [SegmentRow.complete] at hversion
      omega
  | inr hlive =>
    obtain ⟨t, ht, hrow⟩ := hlive
    have hcompaction := congrArg (fun d => d.compactions t.id) heq
    dsimp only [Catalog.forget] at hcompaction
    rw [hext.compactions, foldl_completion_compactions, hrow, Bool.true_and] at hcompaction
    have hne := List.all_eq_true.1 hcompaction.symm t ht
    simp at hne

def redone : Catalog :=
  (referenced env c batch).foldl (completion fun _ => true) (resolved env c batch)

def completed : Catalog := (referenced env c batch).foldl (completion env.allowsReclaim) c

section Fits
variable {env c batch} {g : SegmentId × List Nat} {id : SegmentId}

theorem redone_of_mem (hg : g ∈ referenced env c batch) :
    (redone env c batch).segments g.1 =
        (c.segments g.1).bind (completedRow (fun _ => true) g.2) ∧
      (redone env c batch).indexes g.1 =
        if completes c g then none else (resolved env c batch).indexes g.1 := by
  have hmem := foldl_completion_of_mem (fun _ => true) (resolved env c batch)
    (nodup_referenced env c batch) hg
  simp only [(extends_resolved env c batch).segments] at hmem
  refine ⟨hmem.1, hmem.2.trans ?_⟩
  rw [funext (drops_true g.2)]
  rfl

theorem redone_of_notMem (hid : id ∉ (referenced env c batch).map Prod.fst) :
    (redone env c batch).segments id = c.segments id ∧
      (redone env c batch).indexes id = (resolved env c batch).indexes id := by
  obtain ⟨hsegment, hindex⟩ := foldl_completion_of_notMem (fun _ => true) (resolved env c batch) hid
  exact ⟨hsegment.trans (congrFun (extends_resolved env c batch).segments id), hindex⟩

theorem released_of_segments (h : (redone env c batch).segments = (completed env c batch).segments) :
    Released env c batch := by
  intro g hg row hrow hdone
  have hsegment := congrFun h g.1
  rw [(redone_of_mem hg).1, completed,
    (foldl_completion_of_mem _ c (nodup_referenced env c batch) hg).1, hrow, Option.bind_some,
    Option.bind_some, completedRow, completedRow, drops_true, if_pos hdone] at hsegment
  unfold drops at hsegment
  rw [hdone, Bool.true_and] at hsegment
  by_contra hheld
  rw [if_neg hheld] at hsegment
  cases hsegment

theorem indexesGone_of_indexes
    (h : (redone env c batch).indexes = (completed env c batch).indexes) :
    IndexesGone env c batch := by
  intro r hr hwrites
  have hnone : c.indexes r.segmentId = none := by
    simp only [writesIndex, Bool.and_eq_true, Option.isNone_iff_eq_none] at hwrites
    exact hwrites.1.2
  have hsome : ((resolved env c batch).indexes r.segmentId).isSome = true := by
    rw [isSome_resolved, indexed, Bool.or_eq_true, List.any_eq_true]
    exact .inr ⟨r, hr, by simp [hwrites]⟩
  have hindex := congrFun h r.segmentId
  by_cases hid : r.segmentId ∈ (referenced env c batch).map Prod.fst
  · obtain ⟨g, hg, heq⟩ := List.mem_map.1 hid
    refine ⟨g, hg, heq, ?_⟩
    rw [← heq] at hindex hnone hsome
    have hlive : (completed env c batch).indexes g.1 = none := by
      rw [completed, (foldl_completion_of_mem _ c (nodup_referenced env c batch) hg).2, hnone,
        ite_self]
    rw [(redone_of_mem hg).2, hlive] at hindex
    by_contra hnot
    rw [if_neg hnot] at hindex
    rw [hindex] at hsome
    cases hsome
  · -- A segment none of whose references resolves keeps the new index.
    rw [(redone_of_notMem hid).2, completed, (foldl_completion_of_notMem _ c hid).2, hnone] at hindex
    rw [hindex] at hsome
    cases hsome

theorem resolved_indexes_of_gone (hgone : IndexesGone env c batch)
    (hkeep : ∀ g ∈ referenced env c batch, g.1 = id → completes c g = false) :
    (resolved env c batch).indexes id = c.indexes id := by
  cases (extends_resolved env c batch).indexes id with
  | inl hsame => exact hsame
  | inr hnew =>
    have hsome := isSome_resolved env c batch id
    rw [hnew.2, indexed, hnew.1, Option.isSome_some, Option.isSome_none, Bool.false_or] at hsome
    obtain ⟨r, hr, hwrites⟩ := List.any_eq_true.1 hsome.symm
    rw [Bool.and_eq_true, decide_eq_true_eq] at hwrites
    obtain ⟨g, hg, hid, hdone⟩ := hgone r hr hwrites.2
    rw [hkeep g hg (hid.trans hwrites.1)] at hdone
    cases hdone

theorem redone_eq_completed (hreleased : Released env c batch) (hgone : IndexesGone env c batch) :
    redone env c batch = completed env c batch := by
  -- On the row of a referenced segment the hold makes no difference.
  have hdrops : ∀ g ∈ referenced env c batch, ∀ row, c.segments g.1 = some row →
      drops env.allowsReclaim g.2 row = (row.complete g.2).done.allDone := by
    intro g hg row hrow
    unfold drops
    cases hdone : (row.complete g.2).done.allDone with
    | false => rfl
    | true => rw [hreleased g hg row hrow hdone, Bool.true_and]
  apply Catalog.ext
  · funext id
    by_cases hid : id ∈ (referenced env c batch).map Prod.fst
    · obtain ⟨g, hg, rfl⟩ := List.mem_map.1 hid
      rw [(redone_of_mem hg).1, completed,
        (foldl_completion_of_mem _ c (nodup_referenced env c batch) hg).1]
      cases hrow : c.segments g.1 with
      | none => rfl
      | some row =>
        rw [Option.bind_some, Option.bind_some, completedRow, completedRow, drops_true,
          hdrops g hg row hrow]
    · rw [(redone_of_notMem hid).1, completed, (foldl_completion_of_notMem _ c hid).1]
  · funext id
    by_cases hid : id ∈ (referenced env c batch).map Prod.fst
    · obtain ⟨g, hg, rfl⟩ := List.mem_map.1 hid
      have hany : (c.segments g.1).any (drops env.allowsReclaim g.2) = completes c g := by
        unfold completes
        cases hrow : c.segments g.1 with
        | none => rfl
        | some row => exact hdrops g hg row hrow
      rw [(redone_of_mem hg).2, completed,
        (foldl_completion_of_mem _ c (nodup_referenced env c batch) hg).2, hany]
      split
      · rfl
      · rename_i hnot
        refine resolved_indexes_of_gone hgone fun g' hg' heq => ?_
        obtain rfl : g' = g :=
          List.inj_on_of_nodup_map (nodup_referenced env c batch) hg' hg heq
        exact Bool.eq_false_iff.2 hnot
    · rw [(redone_of_notMem hid).2, completed, (foldl_completion_of_notMem _ c hid).2]
      exact resolved_indexes_of_gone hgone fun g hg heq => absurd (heq ▸ List.mem_map_of_mem hg) hid
  · rw [redone, completed, foldl_completion_compactions, foldl_completion_compactions,
      (extends_resolved env c batch).compactions]

end Fits

/-- **Redo and live path** end in the same catalog exactly if the redo fits one
transaction, the stream processor holds no segment that it completes, and every
index row it writes goes with its segment. -/
theorem flush_eq_live_iff :
    (flushAckedBatch env c batch).2 = completeAndDelete env c batch ↔
      opCount env c batch ≤ txnMaxOps ∧ Released env c batch ∧ IndexesGone env c batch := by
  rw [flushAckedBatch_eq]
  split
  · rename_i hfits
    rw [completeAndDelete_eq]
    show (redone env c batch).forget batch = (completed env c batch).forget batch ↔ _
    constructor
    · intro heq
      have hsegments := congrArg Catalog.segments heq
      have hindexes := congrArg Catalog.indexes heq
      exact ⟨hfits, released_of_segments hsegments, indexesGone_of_indexes hindexes⟩
    · intro h
      rw [redone_eq_completed h.2.1 h.2.2]
  · rename_i hfull
    constructor
    · intro heq
      exact absurd heq (completeAndDelete_ne_resolved env c batch (by omega))
    · intro h
      exact absurd h.1 hfull

end Batch

/-! ## A held segment, and a batch that does not fit -/

theorem valid_firstSegment : L1.validatePathComponent ['s'] = .ok () := rfl

theorem valid_ackedCompaction : L1.validatePathComponent ['t'] = .ok () := rfl

def firstSegment : SegmentId := ⟨['s'], valid_firstSegment⟩

def ackedCompaction : CompactionId := ⟨['t'], valid_ackedCompaction⟩

def oneSlice (live : SegmentId → Bool) : Catalog where
  segments id := if live id then some ⟨1, .s3 [] id.raw, 0, [], .new 1, 0⟩ else none
  indexes _ := none
  compactions id := id = ackedCompaction

def holding : Env := ⟨fun _ => false, fun _ => [], id, fun _ => .refl _⟩

def acked (ids : List SegmentId) : List CompactionTransaction :=
  [⟨ackedCompaction, ids.map fun id => ⟨id, 0, 0, [], [], some 0⟩⟩]

/-- **Dropped while held.** The live path keeps the row of a segment the stream
processor still reads; the redo deletes it. -/
theorem flush_drops_held :
    (flushAckedBatch holding (oneSlice (· = firstSegment)) (acked [firstSegment])).2 ≠
        completeAndDelete holding (oneSlice (· = firstSegment)) (acked [firstSegment]) ∧
      (flushAckedBatch holding (oneSlice (· = firstSegment)) (acked [firstSegment])).2.segments
        firstSegment = none ∧
      ((completeAndDelete holding (oneSlice (· = firstSegment)) (acked [firstSegment])).segments
        firstSegment).isSome = true := by
  have hredo : (flushAckedBatch holding (oneSlice (· = firstSegment))
      (acked [firstSegment])).2.segments firstSegment = none := by decide +kernel
  have hlive : ((completeAndDelete holding (oneSlice (· = firstSegment))
      (acked [firstSegment])).segments firstSegment).isSome = true := by decide +kernel
  refine ⟨fun heq => ?_, hredo, hlive⟩
  rw [← heq, hredo] at hlive
  cases hlive

/-- mirrors src/buffer/wal_handle.rs:30 -/
def redoAckedBatch : Nat := 32

/-- mirrors ingest_buffer.rs:145 -/
def defaultCompactionGroupMaxParts : Nat := 128

def hundredSegments : List SegmentId :=
  (List.range 100).filterMap fun n =>
    (SegmentId.new [Char.ofNat (97 + n / 10), Char.ofNat (97 + n % 10)]).toOption

/-- **Refused for its size.** One transaction over the slices of hundred live
segments, less than the planner's limit of 128. -/
theorem flush_refused :
    (acked hundredSegments).length ≤ redoAckedBatch ∧
      (∀ t ∈ acked hundredSegments, t.refs.length ≤ defaultCompactionGroupMaxParts) ∧
      (flushAckedBatch holding (oneSlice fun _ => true) (acked hundredSegments)).1 =
        .error .txnFull := by
  refine ⟨by decide, by decide +kernel, by decide +kernel⟩

end Skippr.L3.Reclaim
