import Skippr.L4Ingest.Placement

/-!
# What the encoded buffer holds of each record
-/
namespace Skippr.L4.Ingest

open Skippr.L1 Skippr.L2

/-! ## The records of a call are distinct -/

def Item.line : Item → Nat
  | .row line _ | .notObject line | .parseError line _ => line

theorem queueRows_lines (n : Nat) (values : List Json) :
    (queueRows n values).map Item.line = List.range' (n + 1) values.length := by
  induction values generalizing n with
  | nil => rfl
  | cons v vs ih => simp [queueRows, Item.line, ih, List.range'_succ]

theorem flattenItems_lines (n : Nat) (values : List (Except String Json)) :
    ∃ m, (flattenItems n values).map Item.line = List.range' (n + 1) m := by
  fun_induction flattenItems n values with
  | case1 n => exact ⟨0, rfl⟩
  | case4 n values rest ih =>
    obtain ⟨m, hm⟩ := ih
    refine ⟨values.length + m, ?_⟩
    rw [List.map_append, queueRows_lines, hm, ← List.range'_append_1]
    congr 2
    omega
  | _ =>
    rename_i ih
    obtain ⟨m, hm⟩ := ih
    exact ⟨m + 1, by simp [Item.line, hm, List.range'_succ]⟩

variable {i : Nat} {steps : List Step}

theorem itemStep_recs {b : IngestBatch} {snapshot : Option OffsetValue} {item : Item} {s : Step}
    (h : itemStep i b snapshot item = some s) : s.recs = [⟨i, item.line⟩] := by
  cases item with
  | notObject line | parseError line error =>
    cases h
    rfl
  | row line value =>
    simp only [itemStep] at h
    split at h
    · cases h
      rfl
    · split at h
      · cases h
        rfl
      · cases h

theorem itemSteps_recs (i : Nat) (b : IngestBatch) (snapshot : Option OffsetValue)
    (items : List Item) :
    ((items.filterMap (itemStep i b snapshot)).flatMap Step.recs).Sublist
      (items.map fun item => ⟨i, item.line⟩) := by
  induction items with
  | nil => exact .slnil
  | cons item items ih =>
    cases h : itemStep i b snapshot item with
    | none => simpa [h] using ih.cons ⟨i, item.line⟩
    | some s => simpa [h, itemStep_recs h] using ih.cons_cons ⟨i, item.line⟩

theorem arrowRows_add (i n a c : Nat) :
    arrowRows i n (a + c) = arrowRows i n a ++ arrowRows i (n + a) c := by
  simp [arrowRows, List.range_add, Nat.add_assoc, Nat.add_comm, Nat.add_left_comm]

theorem arrowSteps_recs (env : Env) (i : Nat) (b : IngestBatch) (pos : UInt64) (j n : Nat)
    (counts : List Nat) :
    ((arrowSteps env i b pos j n counts).flatMap Step.recs).Sublist (arrowRows i n counts.sum) := by
  induction counts generalizing j n with
  | nil => exact List.nil_sublist _
  | cons count rest ih =>
    rw [arrowSteps, List.sum_cons, arrowRows_add]
    cases env.coerce i j with
    | error e => exact List.nil_sublist _
    | ok key => exact (List.Sublist.refl _).append (ih (j + 1) (n + count))

structure OwnRecs (i : Nat) (steps : List Step) : Prop where
  nodup : (steps.flatMap Step.recs).Nodup
  batch : ∀ r ∈ steps.flatMap Step.recs, r.batch = i

theorem OwnRecs.of_sublist (lines : List Nat)
    (h : (steps.flatMap Step.recs).Sublist (lines.map fun line => ⟨i, line⟩)) (hl : lines.Nodup) :
    OwnRecs i steps := by
  refine ⟨(hl.map fun _ _ h => by simpa using h).sublist h, fun r hr => ?_⟩
  obtain ⟨line, -, rfl⟩ := List.mem_map.mp (h.subset hr)
  rfl

theorem ownRecs_items (i : Nat) (b : IngestBatch) (snapshot : Option OffsetValue)
    (values : List (Except String Json)) : OwnRecs i (itemSteps i b snapshot values) := by
  obtain ⟨m, hm⟩ := flattenItems_lines 0 values
  refine .of_sublist (List.range' 1 m) ?_ List.nodup_range'
  have h := itemSteps_recs i b snapshot (flattenItems 0 values)
  rwa [← Function.comp_def (fun line => (⟨i, line⟩ : Rec)) Item.line, ← List.map_map, hm] at h

theorem ownRecs_arrow (env : Env) (i : Nat) (b : IngestBatch) (pos : UInt64) (counts : List Nat) :
    OwnRecs i (arrowSteps env i b pos 0 0 counts) := by
  refine .of_sublist ((List.range counts.sum).map fun j => 0 + 1 + j) ?_ ?_
  · have h := arrowSteps_recs env i b pos 0 0 counts
    rwa [arrowRows, ← Function.comp_def (fun line => (⟨i, line⟩ : Rec)) fun j => 0 + 1 + j,
      ← List.map_map] at h
  · exact List.nodup_range.map fun _ _ h => by omega

theorem ownRecs_batch {env : Env} {b : IngestBatch} (h : batchSteps env i b = some steps) :
    OwnRecs i steps := by
  unfold batchSteps at h
  split at h
  · cases h
  split at h
  · cases h
    exact ownRecs_items _ _ _ _
  · split at h
    · cases h
    · cases h
      exact ownRecs_items _ _ _ _
  · split at h
    · cases h
    split at h
    · split at h
      · cases h
        exact ⟨by simp [Step.recs], by simp [Step.recs]⟩
      · cases h
        exact ownRecs_items _ _ _ _
    · split at h
      · cases h
        exact ownRecs_arrow _ _ _ _ _
      · cases h
        exact ⟨List.nodup_nil, fun r hr => by cases hr⟩
  · cases h
    exact ⟨by simp [Step.recs], by simp [Step.recs]⟩

theorem nodup_callSteps {env : Env} {datas : List IngestBatch}
    (h : callSteps env i datas = some steps) :
    (steps.flatMap Step.recs).Nodup ∧ ∀ r ∈ steps.flatMap Step.recs, i ≤ r.batch := by
  induction datas generalizing i steps with
  | nil =>
    cases h
    simp
  | cons b rest ih =>
    unfold callSteps at h
    cases hb : batchSteps env i b with
    | none => simp [hb] at h
    | some own =>
      rw [hb] at h
      obtain ⟨later, hlater, rfl⟩ := Option.map_eq_some_iff.mp h
      obtain ⟨hnd, hbatch⟩ := ownRecs_batch hb
      obtain ⟨hnd', hbatch'⟩ := ih hlater
      rw [List.flatMap_append]
      refine ⟨hnd.append hnd' fun r hr hr' => ?_, fun r hr => ?_⟩
      · have := hbatch r hr
        have := hbatch' r hr'
        omega
      · rcases List.mem_append.mp hr with hr | hr
        · exact (hbatch r hr).ge
        · have := hbatch' r hr
          omega

/-! ## Encoding -/

variable {env : Env} {k : PartitionKey} {steps : List Step} {s : Step} {r : Rec}

def Merges (env : Env) (steps : List Step) (k : PartitionKey) : Prop :=
  (batchesAt env steps k).length = 1 ∨ env.concat k = true

instance : Decidable (Merges env steps k) := inferInstanceAs (Decidable (_ ∨ _))

def OpsStop (env : Env) (steps : List Step) : Prop :=
  ∃ k, steps.flatMap (·.tracks env k) ≠ [] ∧ opsFailed env k (batchesAt env steps k) = true

/-- The keys whose offset a deadletter record advances. For the records bisection
rejects in a partition that is the key its offset map gives first. -/
def DeadletterKey (env : Env) (steps : List Step) (key : OffsetKey) : Prop :=
  key ∈ steps.flatMap (·.deadletterKeys env) ∨
    ∃ k, rejectedAt env steps k ≠ [] ∧ key ∈ steps.flatMap (·.tracks env k) ∧
      ∀ key' ∈ steps.flatMap (·.tracks env k),
        env.order (.partition k) key ≤ env.order (.partition k) key'

theorem encodeAll_eq_none : encodeAll env (gather env steps) = none ↔ OpsStop env steps := by
  have hany : ((gather env steps).buf.toList.any fun e =>
      opsFailed env e.1 (partitionBatches env (gather env steps) e.1 e.2)) = true ↔
      OpsStop env steps := by
    rw [List.any_eq_true]
    constructor
    · rintro ⟨⟨k, e⟩, he, hfail⟩
      rw [Map.mem_toList] at he
      rw [partitionBatches_gather he] at hfail
      exact ⟨k, (tracked_iff env steps k).mp ⟨e, he⟩, hfail⟩
    · rintro ⟨k, htracked, hfail⟩
      obtain ⟨e, he⟩ := (tracked_iff env steps k).mpr htracked
      refine ⟨(k, e), (Map.mem_toList _ k e).mpr he, ?_⟩
      rwa [partitionBatches_gather he]
  rw [← hany]
  simp only [encodeAll]
  split
  · rename_i h
    exact ⟨fun _ => h, fun _ => rfl⟩
  · rename_i h
    exact ⟨(nomatch ·), fun hstop => absurd hstop h⟩

def bufKeys (env : Env) (steps : List Step) : List PartitionKey :=
  (gather env steps).buf.toList.map Prod.fst

theorem mem_bufKeys : k ∈ bufKeys env steps ↔ steps.flatMap (·.tracks env k) ≠ [] := by
  rw [← tracked_iff, bufKeys, List.mem_map]
  constructor
  · rintro ⟨⟨k', e⟩, he, rfl⟩
    exact ⟨e, (Map.mem_toList _ _ e).mp he⟩
  · rintro ⟨e, he⟩
    exact ⟨(k, e), (Map.mem_toList _ k e).mpr he, rfl⟩

def deadlettersOf (env : Env) (steps : List Step) : List DeadletterRecord :=
  steps.flatMap (·.deadletters env) ++
    (bufKeys env steps).flatMap fun k => (rejectedAt env steps k).map serializeDeadletter

def encodedBuf (env : Env) (steps : List Step) : List (PartitionKey × BufferBatch) :=
  (gather env steps).buf.toList.map fun e => (e.1, encodeEntry env (gather env steps) e.1 e.2)

theorem encodeAll_some {e : Encoded} (h : encodeAll env (gather env steps) = some e) :
    e.buf = encodedBuf env steps ∧ e.deadletters = deadlettersOf env steps ∧
      e.deadletterOffsets = (gather env steps).buf.toList.foldl
        (mergeFailedOffsets env (gather env steps)) (gather env steps).deadletterOffsets := by
  simp only [encodeAll] at h
  split at h
  · cases h
  · cases h
    refine ⟨rfl, ?_, rfl⟩
    simp only [deadlettersOf, bufKeys, deadletters_gather, failedRecords_gather, List.flatMap_map]

/-! ## Deadletter offsets -/

theorem encodedOffsets_keys (g : Gathered) (e : BufferBatch) (key : OffsetKey) :
    (encodedOffsets env g k e).get key ≠ none ↔ e.offsets.get key ≠ none := by
  simp only [encodedOffsets]
  split
  · split
    · rw [Map.get_filterMap]
      cases e.offsets.get key <;> simp
    · rfl
  · rfl

theorem head_iterate {e : BufferBatch} (he : (gather env steps).buf.get k = some e)
    (key : OffsetKey) :
    (env.iterate (.partition k) (encodedOffsets env (gather env steps) k e)).head? = some key ↔
      key ∈ steps.flatMap (·.tracks env k) ∧ ∀ key' ∈ steps.flatMap (·.tracks env k),
        env.order (.partition k) key ≤ env.order (.partition k) key' := by
  have hkeys : ∀ key', key' ∈ (encodedOffsets env (gather env steps) k e).keys ↔
      key' ∈ steps.flatMap (·.tracks env k) := by
    intro key'
    rw [Map.mem_keys_iff, encodedOffsets_keys]
    have h := buf_gather env steps k
    rw [he] at h
    cases h with
    | some _ _ _ _ hkeys => exact hkeys key'
  rw [Env.iterate, head?_mergeSort (env.order_injective _) (AList.keys_nodup _)]
  simp only [hkeys]

theorem get_mergeFailedOffsets (g : Gathered) (offsets : Offsets) (x : PartitionKey × BufferBatch)
    (key : OffsetKey) :
    (mergeFailedOffsets env g offsets x).get key ≠ none ↔ offsets.get key ≠ none ∨
      failedRecords env g x.1 ≠ [] ∧
        (env.iterate (.partition x.1) (encodedOffsets env g x.1 x.2)).head? = some key := by
  unfold mergeFailedOffsets
  split
  · rename_i pos first hpos hfirst
    have hne : failedRecords env g x.1 ≠ [] := by
      rintro h
      simp [h] at hpos
    rw [get_mergeOffset_ne_none, hfirst]
    simp [hne, eq_comm]
  · rename_i hnone
    constructor
    · exact .inl
    · rintro (h | ⟨hne, hfirst⟩)
      · exact h
      · obtain ⟨pos, hpos⟩ : ∃ pos, ((failedRecords env g x.1).map (·.pos)).max? = some pos := by
          refine Option.isSome_iff_exists.mp ?_
          rw [List.isSome_max?_iff]
          simpa using hne
        exact absurd hfirst (hnone pos key hpos)

theorem get_foldl_mergeFailedOffsets (g : Gathered) (l : List (PartitionKey × BufferBatch))
    (offsets : Offsets) (key : OffsetKey) :
    (l.foldl (mergeFailedOffsets env g) offsets).get key ≠ none ↔ offsets.get key ≠ none ∨
      ∃ x ∈ l, failedRecords env g x.1 ≠ [] ∧
        (env.iterate (.partition x.1) (encodedOffsets env g x.1 x.2)).head? = some key := by
  induction l generalizing offsets with
  | nil => simp
  | cons x l ih =>
    rw [List.foldl_cons, ih, get_mergeFailedOffsets]
    simp only [List.exists_mem_cons_iff, or_assoc]

theorem deadletterKey_iff {e : Encoded} (h : encodeAll env (gather env steps) = some e)
    (key : OffsetKey) : e.deadletterOffsets.get key ≠ none ↔ DeadletterKey env steps key := by
  rw [(encodeAll_some h).2.2, get_foldl_mergeFailedOffsets, offsets_gather, DeadletterKey]
  refine or_congr_right ⟨?_, ?_⟩
  · rintro ⟨⟨k, x⟩, hx, hfailed, hhead⟩
    rw [Map.mem_toList] at hx
    rw [failedRecords_gather] at hfailed
    exact ⟨k, hfailed, (head_iterate hx key).mp hhead⟩
  · rintro ⟨k, hfailed, hmem, hfirst⟩
    obtain ⟨x, hx⟩ := (tracked_iff env steps k).mpr (List.ne_nil_of_mem hmem)
    refine ⟨(k, x), (Map.mem_toList _ k x).mpr hx, ?_, (head_iterate hx key).mpr ⟨hmem, hfirst⟩⟩
    rwa [failedRecords_gather]

/-! ## Rows of the encoded buffer -/

theorem count_encodeEntry {e : BufferBatch} (he : (gather env steps).buf.get k = some e)
    (hkeep : env.opsKeep r = true) :
    (encodeEntry env (gather env steps) k e).payload.flatten.count r =
      if Merges env steps k then (batchesAt env steps k).flatten.count r else 0 := by
  simp only [encodeEntry, partitionBatches_gather he, mergedRows]
  by_cases hempty : batchesAt env steps k = []
  · simp [hempty]
  · rw [if_neg hempty]
    by_cases hmerges : Merges env steps k
    · have hmerged : (batchesAt env steps k).length = 1 ∨ env.concat k = true := hmerges
      rw [if_pos hmerges, if_pos hmerged, List.flatten_singleton, List.count_filter hkeep]
    · have hmerged : ¬((batchesAt env steps k).length = 1 ∨ env.concat k = true) := hmerges
      rw [if_neg hmerges, if_neg hmerged]
      rfl

theorem encodedBuf_keys (env : Env) (steps : List Step) :
    (encodedBuf env steps).map Prod.fst = bufKeys env steps := by
  simp [encodedBuf, bufKeys]

theorem mem_encodedBuf {x : PartitionKey × BufferBatch} (hx : x ∈ encodedBuf env steps) :
    ∃ e, (gather env steps).buf.get x.1 = some e ∧
      x.2 = encodeEntry env (gather env steps) x.1 e := by
  obtain ⟨⟨k, e⟩, he, rfl⟩ := List.mem_map.mp hx
  exact ⟨e, (Map.mem_toList _ k e).mp he, rfl⟩

theorem count_entry (hnd : (steps.flatMap Step.recs).Nodup) (hs : s ∈ steps) (hr : r ∈ s.recs)
    (hkeep : env.opsKeep r = true) {x : PartitionKey × BufferBatch} (hx : x ∈ encodedBuf env steps) :
    x.2.payload.flatten.count r =
      if dest env steps s = .partition x.1 ∧ Merges env steps x.1 then 1 else 0 := by
  obtain ⟨e, he, hx2⟩ := mem_encodedBuf hx
  rw [hx2, count_encodeEntry he hkeep, count_batchesAt hnd hs hr]
  by_cases hd : dest env steps s = .partition x.1 <;>
    by_cases hm : Merges env steps x.1 <;> simp [hd, hm]

theorem tracks_of_dest (hs : s ∈ steps) (hd : dest env steps s = .partition k) :
    k ∈ bufKeys env steps := by
  rw [mem_bufKeys]
  have hne : s.tracks env k ≠ [] := by
    cases s with
    | deadletter d offset => cases hd
    | arrow key ok pos rows =>
      cases hd
      simp [Step.tracks]
    | row r value b pos =>
      rw [dest] at hd
      rw [Step.tracks]
      cases hroute : route env r value b with
      | exact key | legacy key v =>
        simp only [hroute] at hd
        split at hd <;> cases hd
        simp
      | deadletter code error | dropped => simp [hroute] at hd
  obtain ⟨ok, hok⟩ := List.exists_mem_of_ne_nil _ hne
  exact List.ne_nil_of_mem (List.mem_flatMap.mpr ⟨s, hs, hok⟩)

theorem count_rows (hnd : (steps.flatMap Step.recs).Nodup) (hs : s ∈ steps) (hr : r ∈ s.recs)
    (hkeep : env.opsKeep r = true) (q : PartitionKey → Bool) :
    (((encodedBuf env steps).filter (q ·.1)).flatMap (·.2.payload.flatten)).count r =
      match dest env steps s with
      | .partition k => if q k ∧ Merges env steps k then 1 else 0
      | _ => 0 := by
  have hentry := fun x hx => count_entry (x := x) hnd hs hr hkeep hx
  have hzero : (∀ x ∈ (encodedBuf env steps).filter (q ·.1), x.2.payload.flatten.count r = 0) →
      (((encodedBuf env steps).filter (q ·.1)).flatMap (·.2.payload.flatten)).count r = 0 := by
    intro h
    rw [List.count_eq_zero, List.mem_flatMap]
    rintro ⟨x, hx, hmem⟩
    exact List.count_eq_zero.mp (h x hx) hmem
  cases hd : dest env steps s with
  | partition k =>
    simp only [hd] at hentry
    by_cases hq : q k = true
    · obtain ⟨⟨k', x⟩, hx, hk⟩ : ∃ x ∈ encodedBuf env steps, x.1 = k := by
        have := tracks_of_dest hs hd
        rwa [← encodedBuf_keys, List.mem_map] at this
      obtain rfl : k' = k := hk
      have hnodup : (((encodedBuf env steps).filter (q ·.1)).flatMap fun x => [x.1]).Nodup := by
        rw [← List.map_eq_flatMap]
        refine List.Nodup.sublist (List.filter_sublist.map _) ?_
        rw [encodedBuf_keys]
        exact Map.nodup_toList _
      have hmem : (k', x) ∈ (encodedBuf env steps).filter (q ·.1) := List.mem_filter.mpr ⟨hx, hq⟩
      have hone := countP_flatMap_of_mem (p := (· == r)) (f := fun y => y.2.payload.flatten)
        (fun y hy hk => by
          have hk : k' ≠ y.1 := by simpa using hk
          exact (hentry y (List.mem_filter.mp hy).1).trans (by simp [hk]))
        hnodup hmem (List.mem_singleton.mpr rfl)
      refine hone.trans ((hentry _ hx).trans ?_)
      simp [hq]
    · simp only [hq]
      refine hzero fun x hx => ?_
      obtain ⟨hx, hqx⟩ := List.mem_filter.mp hx
      rw [hentry x hx, if_neg]
      rintro ⟨hk, -⟩
      cases hk
      exact hq hqx
  | deadletter | nowhere =>
    exact hzero fun x hx => by rw [hentry x (List.mem_filter.mp hx).1, hd]; simp

theorem count_rows_absent (hr : r ∉ steps.flatMap Step.recs) (hkeep : env.opsKeep r = true)
    (q : PartitionKey → Bool) :
    (((encodedBuf env steps).filter (q ·.1)).flatMap (·.2.payload.flatten)).count r = 0 := by
  rw [List.count_eq_zero, List.mem_flatMap]
  rintro ⟨x, hx, hmem⟩
  obtain ⟨e, he, hx2⟩ := mem_encodedBuf (List.mem_filter.mp hx).1
  refine List.count_eq_zero.mp ?_ hmem
  rw [hx2, count_encodeEntry he hkeep, List.count_eq_zero.mpr (batchesAt_absent hr env x.1)]
  exact ite_self 0

end Skippr.L4.Ingest
