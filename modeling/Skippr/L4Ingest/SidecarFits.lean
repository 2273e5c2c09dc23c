import Skippr.L4Ingest.CdcSidecar

/-!
# When the CDC sidecar fits the rows

Between the buffer and the entry, the elements of failed records are taken out, or
the whole sidecar is dropped when it is not as long as the records; then the ops
pick from it the places of the rows they keep (src/ingest_work.rs:3985-4105).
-/
namespace Skippr.L4.Ingest

open Skippr.L1 Skippr.L2

variable {env : Env} {datas : List IngestBatch} {steps : List Step} {k : PartitionKey} {r : Rec}

/-! ## Bisection keeps the order -/

def without (records failed : List LegacyRecord) : List LegacyRecord :=
  records.filter fun x => x.record ∉ failed.map (·.record)

theorem without_self (records : List LegacyRecord) : without records records = [] := by
  rw [without, List.filter_eq_nil_iff]
  intro x hx
  simpa using ⟨x, hx, rfl⟩

theorem without_nil (records : List LegacyRecord) : without records [] = records := by
  simp [without]

theorem without_append {left right failedLeft failedRight : List LegacyRecord}
    (hnodup : ((left ++ right).map (·.record)).Nodup) (hleft : failedLeft ⊆ left)
    (hright : failedRight ⊆ right) :
    without (left ++ right) (failedLeft ++ failedRight) =
      without left failedLeft ++ without right failedRight := by
  rw [List.map_append] at hnodup
  have hdisjoint := List.disjoint_of_nodup_append hnodup
  rw [without, List.filter_append, without, without]
  congr 1
  · refine List.filter_congr fun x hx => ?_
    have hother : x.record ∉ failedRight.map (·.record) := by
      intro h
      exact hdisjoint (List.mem_map_of_mem hx) (List.map_subset _ hright h)
    simp only [List.map_append, List.mem_append, hother, or_false]
  · refine List.filter_congr fun x hx => ?_
    have hother : x.record ∉ failedLeft.map (·.record) := by
      intro h
      exact hdisjoint (List.map_subset _ hleft h) (List.mem_map_of_mem hx)
    simp only [List.map_append, List.mem_append, hother, false_or]

theorem bisectFrom_flatten (ok : List Json → Bool) (fuel : Nat) {records : List LegacyRecord}
    (hnodup : (records.map (·.record)).Nodup) :
    (bisectFrom ok fuel records).1.flatten = without records (bisectFrom ok fuel records).2 := by
  induction fuel generalizing records with
  | zero => exact (without_self records).symm
  | succ fuel ih =>
    unfold bisectFrom
    split
    · rename_i hnil
      rw [hnil]
      rfl
    split
    · rw [without_nil]
      exact List.append_nil _
    split
    · exact (without_self records).symm
    have hfailed : ∀ half : List LegacyRecord, (bisectFrom ok fuel half).2 ⊆ half := by
      intro half x hx
      exact (bisectFrom_perm ok fuel half).subset (List.mem_append_right _ hx)
    have hsplit := List.take_append_drop (records.length / 2) records
    rw [← hsplit] at hnodup
    have hparts := hnodup
    rw [List.map_append, List.nodup_append'] at hparts
    rw [List.flatten_append, ih hparts.1, ih hparts.2.1, ← without_append hnodup (hfailed _) (hfailed _), hsplit]

theorem serializedRecs_eq (hsteps : callSteps env 0 datas = some steps) (k : PartitionKey) :
    (serializedAt env steps k).flatten = without (steps.flatMap (·.legacy env k)) (rejectedAt env steps k) :=
  bisectFrom_flatten _ _ (nodup_legacyRecs hsteps k)

/-! ## The sidecar before the ops -/

def sidecarAt (env : Env) (datas : List IngestBatch) (steps : List Step) (k : PartitionKey) :
    Option (List Rec) :=
  if rejectedAt env steps k = [] then nonEmpty ((legacyRecs env steps k).filterMap (metaOf datas))
  else if ∀ r ∈ legacyRecs env steps k, (metaOf datas r).isSome then
    nonEmpty ((serializedRecs env steps k).filterMap (metaOf datas))
  else none

theorem survivors_eq {records failed : List LegacyRecord}
    (hall : ∀ r ∈ records.map (·.record), (metaOf datas r).isSome) :
    survivors records failed ((records.map (·.record)).filterMap (metaOf datas)) =
      ((without records failed).map (·.record)).filterMap (metaOf datas) := by
  induction records with
  | nil => rfl
  | cons x records ih =>
    rw [List.map_cons, List.forall_mem_cons] at hall
    obtain ⟨m, hm⟩ := Option.isSome_iff_exists.1 hall.1
    have hrest := ih hall.2
    rw [survivors] at hrest
    rw [List.map_cons, List.filterMap_cons_some hm, survivors, List.zip_cons_cons]
    by_cases hx : x.record ∈ failed.map (·.record)
    · rw [List.filter_cons_of_neg (by simpa using hx), hrest, without, without,
        List.filter_cons_of_neg (by simpa using hx)]
    · rw [List.filter_cons_of_pos (by simpa using hx), List.map_cons, hrest, without, without,
        List.filter_cons_of_pos (by simpa using hx), List.map_cons, List.filterMap_cons_some hm]

theorem nonEmpty_bind (rows : List Rec) (f : List Rec → Option (List Rec)) (hnil : f [] = none) :
    (nonEmpty rows).bind f = f rows := by
  rw [nonEmpty]
  split
  · rename_i h
    rw [h, hnil]
    rfl
  · rfl

theorem serializedRecs_of_batches (h : batchesAt env steps k = []) : serializedRecs env steps k = [] := by
  rw [batchesAt, List.append_eq_nil_iff, List.map_eq_nil_iff] at h
  rw [serializedRecs, h.2]
  rfl

theorem batchesAt_flatten (env : Env) (steps : List Step) (k : PartitionKey) :
    (batchesAt env steps k).flatten = plainRows env steps k ++ serializedRecs env steps k := by
  rw [batchesAt, List.flatten_append, List.flatten_append, plainRows, serializedRecs, List.map_flatten]

theorem attachCdc_eq (hsteps : callSteps env 0 datas = some steps) {entry : BufferBatch}
    (he : (gather env steps).buf.get k = some entry) :
    attachCdc env (gather env steps) (gatherCdc env steps).2 k entry = (sidecarAt env datas steps k, none) := by
  have hbuf : (gatherCdc env steps).2.get k = nonEmpty ((legacyRecs env steps k).filterMap (metaOf datas)) := by
    rw [cdc_gather, metas_eq hsteps]
  simp only [attachCdc, raw_gather, failedRecords_gather, partitionBatches_gather he, hbuf, sidecarAt]
  by_cases hrecords : steps.flatMap (·.legacy env k) = []
  · have hfailed : rejectedAt env steps k = [] := by
      rw [rejectedAt, hrecords]
      rfl
    rw [if_pos hrecords, if_pos hfailed, legacyRecs, hrecords]
    rfl
  rw [if_neg hrecords]
  by_cases hfailed : rejectedAt env steps k = []
  · rw [if_pos hfailed, if_pos hfailed, nonEmpty_bind _ _ rfl]
  rw [if_neg hfailed, if_neg hfailed]
  by_cases hbatches : batchesAt env steps k = []
  · rw [if_pos hbatches, serializedRecs_of_batches hbatches]
    split <;> rfl
  rw [if_neg hbatches, nonEmpty_bind]
  · have hlength : ((legacyRecs env steps k).filterMap (metaOf datas)).length =
        (steps.flatMap (·.legacy env k)).length ↔
          ∀ r ∈ legacyRecs env steps k, (metaOf datas r).isSome := by
      rw [← List.filterMap_length_eq_length, legacyRecs, List.length_map]
    by_cases hall : ∀ r ∈ legacyRecs env steps k, (metaOf datas r).isSome
    · rw [if_pos (hlength.2 hall), if_pos hall, legacyRecs, survivors_eq hall, serializedRecs,
        serializedRecs_eq hsteps]
    · rw [if_neg fun h => hall (hlength.1 h), if_neg hall]
  · rw [if_neg]
    intro h
    exact hrecords (List.eq_nil_of_length_eq_zero h.symm)

def Seen (env : Env) (steps : List Step) (k : PartitionKey) : Prop :=
  batchesAt env steps k ≠ [] ∧ Merges env steps k

instance : Decidable (Seen env steps k) := inferInstanceAs (Decidable (_ ∧ _))

def rowsAt (env : Env) (ops : Ops) (steps : List Step) (k : PartitionKey) : List Rec :=
  if Seen env steps k then (batchesAt env steps k).flatten.filter ops.keeps else []

def cdcRowsAt (env : Env) (datas : List IngestBatch) (ops : Ops) (steps : List Step) (k : PartitionKey) :
    Option (Option (List Rec)) :=
  if Seen env steps k then
    applyConfiguredOps ops (batchesAt env steps k).flatten (sidecarAt env datas steps k)
  else some (sidecarAt env datas steps k)

theorem entrySidecar_eq (hsteps : callSteps env 0 datas = some steps) (ops : Ops) {entry : BufferBatch}
    (he : (gather env steps).buf.get k = some entry) :
    entrySidecar env ops (gather env steps) (gatherCdc env steps).2 k entry =
      cdcRowsAt env datas ops steps k := by
  simp only [entrySidecar, attachCdc_eq hsteps he, partitionBatches_gather he, Option.or_none]
  rfl

theorem payload_eq (ops : Ops) {entry : BufferBatch} (he : (gather env steps).buf.get k = some entry) :
    (encodeEntry (env.withOps ops) (gather env steps) k entry).payload.flatten = rowsAt env ops steps k := by
  have hbatches : partitionBatches (env.withOps ops) (gather env steps) k entry = batchesAt env steps k :=
    partitionBatches_gather he
  simp only [encodeEntry, hbatches, mergedRows, rowsAt]
  by_cases hempty : batchesAt env steps k = []
  · rw [if_pos hempty, if_neg fun h => h.1 hempty]
    rfl
  · rw [if_neg hempty]
    by_cases hmerges : Merges env steps k
    · have hmerged : (batchesAt env steps k).length = 1 ∨ (env.withOps ops).concat k = true := hmerges
      rw [if_pos hmerged, if_pos ⟨hempty, hmerges⟩, List.flatten_singleton]
      rfl
    · have hmerged : ¬((batchesAt env steps k).length = 1 ∨ (env.withOps ops).concat k = true) := hmerges
      rw [if_neg hmerged, if_neg fun h => hmerges h.2]
      rfl

theorem mem_encodeCdc (hsteps : callSteps env 0 datas = some steps) {ops : Ops} {entries : List CdcEntry}
    (h : encodeCdc env ops steps = some entries) (e : CdcEntry) :
    e ∈ entries ↔ e.key ∈ bufKeys env steps ∧ e.rows = rowsAt env ops steps e.key ∧
      cdcRowsAt env datas ops steps e.key = some e.cdcRows := by
  simp only [encodeCdc, gatherCdc_fst] at h
  split at h
  · cases h
  rw [mem_mapM h]
  constructor
  · intro hmem
    obtain ⟨⟨k, entry⟩, hx, hentry⟩ := hmem
    have he := (Map.mem_toList _ k entry).1 hx
    rw [entrySidecar_eq hsteps ops he, payload_eq ops he] at hentry
    obtain ⟨side, hside, rfl⟩ := Option.map_eq_some_iff.1 hentry
    exact ⟨List.mem_map_of_mem hx, rfl, hside⟩
  · intro hmem
    obtain ⟨hkey, hrows, hside⟩ := hmem
    obtain ⟨⟨k, entry⟩, hx, hk⟩ := List.mem_map.1 hkey
    obtain rfl : k = e.key := hk
    have he := (Map.mem_toList _ e.key entry).1 hx
    refine ⟨(e.key, entry), hx, ?_⟩
    rw [entrySidecar_eq hsteps ops he, payload_eq ops he, hside, ← hrows]
    rfl

def Ops.none : Ops := ⟨false, fun _ => true, fun _ => false⟩

theorem applyConfiguredOps_none (rows : List Rec) (side : Option (List Rec)) :
    applyConfiguredOps .none rows side = some side := by
  cases side with
  | none => rfl
  | some side => exact if_pos (.inr rfl)

theorem cdcRowsAt_none (env : Env) (datas : List IngestBatch) (steps : List Step) (k : PartitionKey) :
    cdcRowsAt env datas .none steps k = some (sidecarAt env datas steps k) := by
  rw [cdcRowsAt, applyConfiguredOps_none]
  exact ite_self _

theorem exists_encodeCdc_none (hsteps : callSteps env 0 datas = some steps) :
    ∃ entries, encodeCdc env .none steps = some entries := by
  have hencodes : ∃ e, encodeAll (env.withOps .none) (gather env steps) = some e := by
    simp only [encodeAll]
    rw [if_neg]
    · exact ⟨_, rfl⟩
    · intro h
      obtain ⟨x, -, hx⟩ := List.any_eq_true.1 h
      simp [opsFailed, Env.withOps, Ops.none] at hx
  obtain ⟨encoded, hencoded⟩ := hencodes
  simp only [encodeCdc, gatherCdc_fst, hencoded]
  refine exists_mapM ?_
  intro x hx
  rw [entrySidecar_eq hsteps .none ((Map.mem_toList _ x.1 x.2).1 hx), cdcRowsAt_none]
  exact ⟨_, rfl⟩

/-! ## When the sidecar fits -/

theorem nonEmpty_eq_none {rows : List Rec} (h : nonEmpty rows = none) : rows = [] := by
  rw [nonEmpty] at h
  split at h
  · assumption
  · cases h

theorem nonEmpty_eq_some {rows side : List Rec} (h : nonEmpty rows = some side) : side = rows := by
  rw [nonEmpty] at h
  split at h
  · cases h
  · exact (Option.some.inj h).symm

theorem sidecarAt_ne_nil (env : Env) (datas : List IngestBatch) (steps : List Step) (k : PartitionKey) :
    sidecarAt env datas steps k ≠ some [] := by
  have hnonEmpty : ∀ rows, nonEmpty rows ≠ some [] := by
    intro rows h
    obtain rfl := nonEmpty_eq_some h
    cases h
  rw [sidecarAt]
  split
  · exact hnonEmpty _
  · split
    · exact hnonEmpty _
    · intro h
      cases h

section Fits
variable (hsteps : callSteps env 0 datas = some steps)
include hsteps

theorem serializedRecs_sublist (k : PartitionKey) :
    (serializedRecs env steps k).Sublist (legacyRecs env steps k) := by
  rw [serializedRecs, serializedRecs_eq hsteps, legacyRecs]
  exact List.filter_sublist.map _

theorem serializedRecs_of_accepted (h : rejectedAt env steps k = []) :
    serializedRecs env steps k = legacyRecs env steps k := by
  rw [serializedRecs, serializedRecs_eq hsteps, h, without_nil]
  rfl

theorem isCdc_of_metaOf (hr : r ∈ legacyRecs env steps k) (h : (metaOf datas r).isSome) : IsCdc datas r := by
  by_contra hcdc
  rw [metaOf_plain hsteps hr hcdc] at h
  cases h

theorem sidecarAt_noCdc (hnone : ∀ r ∈ serializedRecs env steps k, ¬ IsCdc datas r) :
    sidecarAt env datas steps k = none := by
  have hmetas : (serializedRecs env steps k).filterMap (metaOf datas) = [] := by
    rw [List.filterMap_eq_nil_iff]
    intro r hr
    exact metaOf_plain hsteps ((serializedRecs_sublist hsteps k).subset hr) (hnone r hr)
  rw [sidecarAt]
  split
  · rename_i hfailed
    rw [← serializedRecs_of_accepted hsteps hfailed, hmetas]
    rfl
  · split
    · rw [hmetas]
      rfl
    · rfl

theorem sidecarAt_allCdc (hstream : NotStreamed datas) (hall : ∀ r ∈ legacyRecs env steps k, IsCdc datas r)
    (hstep : ∀ r ∈ serializedRecs env steps k, InStep datas r) :
    sidecarAt env datas steps k = nonEmpty (serializedRecs env steps k) := by
  have hmetas : (serializedRecs env steps k).filterMap (metaOf datas) = serializedRecs env steps k := by
    have hown : ∀ r ∈ serializedRecs env steps k, metaOf datas r = some (id r) := by
      intro r hr
      have hlegacy := (serializedRecs_sublist hsteps k).subset hr
      obtain ⟨m, hm, hiff⟩ := metaOf_cdc hsteps hstream hlegacy (hall r hlegacy)
      rw [hm, hiff.2 (hstep r hr)]
      rfl
    rw [List.filterMap_eq_map_iff_forall_eq_some.2 hown, List.map_id]
  rw [sidecarAt]
  split
  · rename_i hfailed
    rw [← serializedRecs_of_accepted hsteps hfailed, hmetas]
  · rw [if_pos, hmetas]
    intro r hr
    obtain ⟨m, hm, -⟩ := metaOf_cdc hsteps hstream hr (hall r hr)
    rw [hm]
    rfl

/-- **Fitting sidecars.** The ops keep the rows and the sidecar in step. -/
theorem aligned_of_fits (hstream : NotStreamed datas) {ops : Ops} {e : CdcEntry}
    (hfits : SidecarFits env datas steps e.key) (hrows : e.rows = rowsAt env ops steps e.key)
    (hside : cdcRowsAt env datas ops steps e.key = some e.cdcRows) : e.Aligned datas := by
  have hsub : ∀ r ∈ e.rows, r ∈ plainRows env steps e.key ∨ r ∈ serializedRecs env steps e.key := by
    intro r hr
    rw [hrows, rowsAt] at hr
    split at hr
    · rw [batchesAt_flatten] at hr
      exact List.mem_append.1 (List.mem_filter.1 hr).1
    · cases hr
  rw [cdcRowsAt] at hside
  cases hfits with
  | noCdc hnone =>
    rw [sidecarAt_noCdc hsteps hnone, applyConfiguredOps, ite_self] at hside
    rw [CdcEntry.Aligned, ← Option.some.inj hside]
    intro r hr
    rcases hsub r hr with hr | hr
    · exact plainRows_plain hsteps hr
    · exact hnone r hr
  | lost hmerges hfailed hother =>
    obtain ⟨r, hr, hcdc⟩ := hother
    have hlost : sidecarAt env datas steps e.key = none := by
      rw [sidecarAt, if_neg hfailed, if_neg fun hall => hcdc (isCdc_of_metaOf hsteps hr (hall r hr))]
    rw [hlost, applyConfiguredOps, ite_self] at hside
    rw [CdcEntry.Aligned, ← Option.some.inj hside, hrows, rowsAt, if_neg fun h => hmerges h.2]
    intro r hr
    cases hr
  | allCdc hmerges hplain hall hstep =>
    rw [sidecarAt_allCdc hsteps hstream hall hstep] at hside
    rw [CdcEntry.Aligned, hrows, rowsAt]
    rw [batchesAt_flatten, hplain, List.nil_append] at hside ⊢
    by_cases hempty : serializedRecs env steps e.key = []
    · rw [hempty, show nonEmpty [] = none from rfl, applyConfiguredOps, ite_self] at hside
      rw [← Option.some.inj hside, hempty]
      intro r hr
      split at hr <;> cases hr
    · have hseen : Seen env steps e.key := ⟨fun h => hempty (serializedRecs_of_batches h), hmerges⟩
      rw [if_pos hseen, show nonEmpty _ = some _ from if_neg hempty, applyConfiguredOps] at hside
      rw [if_pos hseen]
      split at hside
      · rename_i hfilters
        have hkeeps : ∀ r, ops.keeps r = true := by
          intro r
          rw [Ops.keeps, hfilters.resolve_left hempty]
          rfl
        rw [← Option.some.inj hside]
        exact (List.filter_eq_self.2 fun r _ => hkeeps r).symm
      · rw [pick_keptIndices] at hside
        rw [← Option.some.inj hside]

theorem fits_of_rows (hstream : NotStreamed datas) (hmerges : Merges env steps k)
    (h : sidecarAt env datas steps k = some (plainRows env steps k ++ serializedRecs env steps k)) :
    SidecarFits env datas steps k := by
  have hmetas : (serializedRecs env steps k).filterMap (metaOf datas) =
      plainRows env steps k ++ serializedRecs env steps k ∧
        ((∀ r ∈ serializedRecs env steps k, (metaOf datas r).isSome) →
          ∀ r ∈ legacyRecs env steps k, IsCdc datas r) := by
    rw [sidecarAt] at h
    split at h
    · rename_i hfailed
      rw [serializedRecs_of_accepted hsteps hfailed] at h ⊢
      exact ⟨(nonEmpty_eq_some h).symm, fun hall r hr => isCdc_of_metaOf hsteps hr (hall r hr)⟩
    · split at h
      · rename_i hall
        exact ⟨(nonEmpty_eq_some h).symm, fun _ r hr => isCdc_of_metaOf hsteps hr (hall r hr)⟩
      · cases h
  obtain ⟨hmetas, hcdc⟩ := hmetas
  have hplain : plainRows env steps k = [] := by
    have hle := List.length_filterMap_le (metaOf datas) (serializedRecs env steps k)
    rw [hmetas, List.length_append] at hle
    exact List.eq_nil_of_length_eq_zero (by omega)
  rw [hplain, List.nil_append] at hmetas
  have hown : ∀ r ∈ serializedRecs env steps k, metaOf datas r = some (id r) := by
    apply List.filterMap_eq_map_iff_forall_eq_some.1
    rw [List.map_id]
    exact hmetas
  have hall := hcdc fun r hr => by rw [hown r hr]; rfl
  refine .allCdc hmerges hplain hall ?_
  intro r hr
  have hlegacy := (serializedRecs_sublist hsteps k).subset hr
  obtain ⟨m, hm, hiff⟩ := metaOf_cdc hsteps hstream hlegacy (hall r hlegacy)
  exact hiff.1 (Option.some.inj (hm.symm.trans (hown r hr)))

theorem fits_of_none (hstream : NotStreamed datas) (hseen : ¬ Seen env steps k)
    (h : sidecarAt env datas steps k = none) : SidecarFits env datas steps k := by
  by_cases hbatches : batchesAt env steps k = []
  · refine .noCdc ?_
    rw [serializedRecs_of_batches hbatches]
    intro r hr
    cases hr
  have hmerges : ¬ Merges env steps k := fun hmerges => hseen ⟨hbatches, hmerges⟩
  -- A serialised CDC record would be in the sidecar.
  have hempty : (serializedRecs env steps k).filterMap (metaOf datas) = [] → SidecarFits env datas steps k := by
    intro hmetas
    refine .noCdc ?_
    intro r hr hcdc
    obtain ⟨m, hm, -⟩ := metaOf_cdc hsteps hstream ((serializedRecs_sublist hsteps k).subset hr) hcdc
    rw [List.filterMap_eq_nil_iff.1 hmetas r hr] at hm
    cases hm
  rw [sidecarAt] at h
  split at h
  · rename_i hfailed
    apply hempty
    rw [serializedRecs_of_accepted hsteps hfailed]
    exact nonEmpty_eq_none h
  · rename_i hfailed
    split at h
    · exact hempty (nonEmpty_eq_none h)
    · rename_i hall
      obtain ⟨r, hr, hnone⟩ : ∃ r ∈ legacyRecs env steps k, ¬ (metaOf datas r).isSome := by
        simpa using hall
      refine .lost hmerges hfailed ⟨r, hr, ?_⟩
      intro hcdc
      obtain ⟨m, hm, -⟩ := metaOf_cdc hsteps hstream hr hcdc
      rw [hm] at hnone
      exact hnone rfl

theorem fits_of_aligned (hstream : NotStreamed datas) {e : CdcEntry}
    (hrows : e.rows = rowsAt env .none steps e.key) (hside : sidecarAt env datas steps e.key = e.cdcRows)
    (h : e.Aligned datas) : SidecarFits env datas steps e.key := by
  rw [rowsAt] at hrows
  rw [CdcEntry.Aligned, ← hside] at h
  by_cases hseen : Seen env steps e.key
  · have hall : (batchesAt env steps e.key).flatten.filter Ops.none.keeps =
        plainRows env steps e.key ++ serializedRecs env steps e.key := by
      have hkeeps : ∀ r, Ops.none.keeps r = true := fun _ => rfl
      rw [List.filter_eq_self.2 fun r _ => hkeeps r, batchesAt_flatten]
    rw [if_pos hseen, hall] at hrows
    rw [hrows] at h
    cases hsidecar : sidecarAt env datas steps e.key with
    | none =>
      rw [hsidecar] at h
      exact .noCdc (List.forall_mem_append.1 h).2
    | some side =>
      rw [hsidecar] at h
      obtain rfl : side = _ := h
      exact fits_of_rows hsteps hstream hseen.2 hsidecar
  · rw [if_neg hseen] at hrows
    rw [hrows] at h
    apply fits_of_none hsteps hstream hseen
    cases hsidecar : sidecarAt env datas steps e.key with
    | none => rfl
    | some side =>
      rw [hsidecar] at h
      obtain rfl : side = [] := h
      exact absurd hsidecar (sidecarAt_ne_nil env datas steps e.key)

end Fits

/-- Whatever the ops are, the sidecars of a call's entries name their rows,
exactly when they fit. -/
theorem sidecars_aligned_iff (env : Env) (datas : List IngestBatch) (steps : List Step)
    (hsteps : callSteps env 0 datas = some steps) (hstream : NotStreamed datas) :
    (∀ ops entries, encodeCdc env ops steps = some entries → ∀ e ∈ entries, e.Aligned datas) ↔
      ∀ k ∈ bufKeys env steps, SidecarFits env datas steps k := by
  constructor
  · intro h k hk
    obtain ⟨entries, hentries⟩ := exists_encodeCdc_none hsteps
    let e : CdcEntry := ⟨k, rowsAt env .none steps k, sidecarAt env datas steps k⟩
    have he : e ∈ entries := (mem_encodeCdc hsteps hentries e).2 ⟨hk, rfl, cdcRowsAt_none env datas steps k⟩
    exact fits_of_aligned hsteps hstream (e := e) rfl rfl (h .none entries hentries e he)
  · intro hfits ops entries hentries e he
    obtain ⟨hk, hrows, hside⟩ := (mem_encodeCdc hsteps hentries e).1 he
    exact aligned_of_fits hsteps hstream (hfits e.key hk) hrows hside

/-! ## A record that is no object -/

def numberFirst : List IngestBatch :=
  [⟨⟨['d'], ['f']⟩, .rows [.num 5, .obj [(['a'], .num 0)]], none, some 2⟩]

theorem notStreamed_numberFirst : NotStreamed numberFirst := by
  intro b hb _ lines
  cases List.mem_singleton.1 hb
  intro h
  cases h

theorem sidecars_aligned_iff_numberFirst : ∃ steps, callSteps .firstOnly 0 numberFirst = some steps ∧
    NotStreamed numberFirst ∧
    ((∀ ops entries, encodeCdc .firstOnly ops steps = some entries → ∀ e ∈ entries, e.Aligned numberFirst) ↔
      ∀ k ∈ bufKeys .firstOnly steps, SidecarFits .firstOnly numberFirst steps k) := by
  have hsome : (callSteps .firstOnly 0 numberFirst).isSome := by decide +kernel
  obtain ⟨steps, hsteps⟩ := Option.isSome_iff_exists.1 hsome
  exact ⟨steps, hsteps, notStreamed_numberFirst,
    sidecars_aligned_iff .firstOnly numberFirst steps hsteps notStreamed_numberFirst⟩

/-- The number is a deadletter record and is not counted: the row of the second
record gets the metadata of the first. -/
theorem metadata_of_skipped : ∃ steps entries, callSteps .firstOnly 0 numberFirst = some steps ∧
    encodeCdc .firstOnly .none steps = some entries ∧ ∃ e ∈ entries, e.rows = [⟨0, 2⟩] ∧
      e.cdcRows = some [⟨0, 1⟩] ∧ ¬ e.Aligned numberFirst := by
  have hall : (callSteps .firstOnly 0 numberFirst).any fun steps =>
      (encodeCdc .firstOnly .none steps).any fun entries =>
        entries.any fun e => e.rows = [⟨0, 2⟩] ∧ e.cdcRows = some [⟨0, 1⟩] := by decide +kernel
  obtain ⟨steps, hsteps, hall⟩ := (Option.any_eq_true ..).1 hall
  obtain ⟨entries, hentries, hall⟩ := (Option.any_eq_true ..).1 hall
  obtain ⟨e, he, hall⟩ := List.any_eq_true.1 hall
  obtain ⟨hrows, hside⟩ := of_decide_eq_true hall
  refine ⟨steps, entries, hsteps, hentries, e, he, hrows, hside, ?_⟩
  rw [CdcEntry.Aligned, hside, hrows]
  decide

end Skippr.L4.Ingest
