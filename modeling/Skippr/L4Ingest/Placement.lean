import Skippr.Core.Lists
import Skippr.L4Ingest.Gather

/-!
# Where the encoders put each record
-/
namespace Skippr.L4.Ingest

open Skippr.L1 Skippr.L2

/-! ## Bisection -/

theorem bisectFrom_perm (ok : List Json → Bool) (fuel : Nat) (records : List LegacyRecord) :
    ((bisectFrom ok fuel records).1.flatten ++ (bisectFrom ok fuel records).2).Perm records := by
  induction fuel generalizing records with
  | zero => simp [bisectFrom]
  | succ fuel ih =>
    unfold bisectFrom
    split
    · simp [*]
    split
    · simp
    split
    · simp
    have hleft := ih (records.take (records.length / 2))
    have hright := ih (records.drop (records.length / 2))
    generalize bisectFrom ok fuel (records.take (records.length / 2)) = left at hleft
    generalize bisectFrom ok fuel (records.drop (records.length / 2)) = right at hright
    have hswap : ((left.1 ++ right.1).flatten ++ (left.2 ++ right.2)).Perm
        ((left.1.flatten ++ left.2) ++ (right.1.flatten ++ right.2)) := by
      simp only [List.flatten_append, List.append_assoc]
      refine List.Perm.append_left _ ?_
      simp only [← List.append_assoc]
      exact List.perm_append_comm.append_right _
    refine hswap.trans ((hleft.append hright).trans ?_)
    rw [List.take_append_drop]

theorem bisectSerialize_perm (ok : List Json → Bool) (records : List LegacyRecord) :
    ((bisectSerialize ok records).1.flatten ++ (bisectSerialize ok records).2).Perm records :=
  bisectFrom_perm ok _ records

/-- **Bisection.** Every group has records and serialises, every record that is set
aside fails alone, and the groups and these are the records. -/
theorem bisect_sound (ok : List Json → Bool) (records : List LegacyRecord) :
    (∀ g ∈ (bisectSerialize ok records).1, g ≠ [] ∧ ok (g.map (·.normalized)) = true) ∧
      (∀ r ∈ (bisectSerialize ok records).2, ok [r.normalized] = false) ∧
      ((bisectSerialize ok records).1.flatten ++ (bisectSerialize ok records).2).Perm records := by
  rw [← and_assoc]
  refine ⟨?_, bisectSerialize_perm ok records⟩
  induction hn : records.length using Nat.strong_induction_on generalizing records with
  | _ n ih =>
    rw [bisectSerialize_eq]
    split_ifs with hnil hok hone
    · simp
    · simpa using ⟨hnil, hok⟩
    · obtain ⟨r, rfl⟩ := List.length_eq_one_iff.1 hone
      simpa using hok
    · -- two or more records, so both halves are shorter
      have hpos := List.length_pos_iff.2 hnil
      have hleft := ih _ (by simp; omega) (records.take (records.length / 2)) rfl
      have hright := ih _ (by simp; omega) (records.drop (records.length / 2)) rfl
      simp only [List.mem_append]
      exact ⟨fun g hg => hg.elim (hleft.1 g) (hright.1 g),
        fun r hr => hr.elim (hleft.2 r) (hright.2 r)⟩

/-! ## The batches of a partition -/

variable {env : Env} {k : PartitionKey} {steps : List Step} {s : Step} {r : Rec}

def exactBatch (env : Env) (steps : List Step) (k : PartitionKey) : List (List Rec) :=
  let rows := steps.flatMap (·.exactRows env k)
  if rows = [] ∨ torn env k steps ∨ env.typed k = false then [] else [rows]

def serializedAt (env : Env) (steps : List Step) (k : PartitionKey) : List (List LegacyRecord) :=
  (bisectSerialize (env.serialize k) (steps.flatMap (·.legacy env k))).1

def rejectedAt (env : Env) (steps : List Step) (k : PartitionKey) : List LegacyRecord :=
  (bisectSerialize (env.serialize k) (steps.flatMap (·.legacy env k))).2

def batchesAt (env : Env) (steps : List Step) (k : PartitionKey) : List (List Rec) :=
  steps.flatMap (·.batches k) ++ exactBatch env steps k ++
    (serializedAt env steps k).map (·.map (·.record))

theorem exactBatch_gather (env : Env) (steps : List Step) (k : PartitionKey) :
    (((gather env steps).exact.get k).bind (Builders.finish (env.typed k))).toList =
      exactBatch env steps k := by
  have h := exact_gather env steps k
  generalize (gather env steps).exact.get k = o at h
  unfold exactBatch
  cases h with
  | empty hrows => simp [hrows]
  | filled b hbuild hrows hne hstate =>
    rw [← hrows, Option.bind_some]
    cases htyped : env.typed k with
    | false => simp [Builders.finish_untyped]
    | true =>
      rcases hstate with ⟨hwhole, hb⟩ | ⟨htorn, hb⟩
      · simp [Builders.finish_whole hb hne, hne, hwhole]
      · simp [Builders.finish_torn hb, htorn]

theorem partitionBatches_gather {e : BufferBatch} (he : (gather env steps).buf.get k = some e) :
    partitionBatches env (gather env steps) k e = batchesAt env steps k := by
  have hpayload : e.payload = steps.flatMap (·.batches k) := by
    have h := buf_gather env steps k
    rw [he] at h
    cases h with
    | some _ _ hpayload => exact hpayload
  simp only [partitionBatches, exactBatch_gather, raw_gather, hpayload]
  rfl

theorem failedRecords_gather (env : Env) (steps : List Step) (k : PartitionKey) :
    failedRecords env (gather env steps) k = rejectedAt env steps k := by
  rw [failedRecords, raw_gather]
  rfl

theorem tracked_iff (env : Env) (steps : List Step) (k : PartitionKey) :
    (∃ e, (gather env steps).buf.get k = some e) ↔ steps.flatMap (·.tracks env k) ≠ [] := by
  have h := buf_gather env steps k
  generalize (gather env steps).buf.get k = o at h
  cases h with
  | none hkeys => simp [hkeys]
  | some e _ _ _ _ hne => simpa using hne

/-! ## Destinations -/

inductive Dest
  | partition (key : PartitionKey)
  | deadletter
  | nowhere
deriving DecidableEq

def dest (env : Env) (steps : List Step) : Step → Dest
  | .deadletter _ _ => .deadletter
  | .arrow key _ _ _ => .partition key
  | .row r value b _ => match route env r value b with
    | .exact key => if torn env key steps ∨ env.typed key = false then .nowhere else .partition key
    | .legacy key _ =>
      if r ∈ (rejectedAt env steps key).map (·.record) then .deadletter else .partition key
    | .deadletter _ _ => .deadletter
    | .dropped => .nowhere

def DeadletterRecord.isOf (r : Rec) (d : DeadletterRecord) : Bool := d.origin = .record r

/-! ## Each record is in one place

`r` is a record of the one step `s`. -/

namespace Step

theorem batches_subset (k : PartitionKey) (h : r ∉ s.recs) : r ∉ (s.batches k).flatten := by
  cases s with
  | arrow key ok pos rows =>
    rw [batches]
    split
    · simpa [recs] using h
    · simp
  | _ => simp [batches]

theorem exactRows_subset (env : Env) (k : PartitionKey) (h : r ∉ s.recs) : r ∉ s.exactRows env k := by
  cases s with
  | row r' value b pos =>
    rw [exactRows_row]
    split
    · simpa [recs] using h
    · simp
  | _ => simp [exactRows]

theorem legacy_subset (env : Env) (k : PartitionKey) (h : r ∉ s.recs) :
    r ∉ (s.legacy env k).map (·.record) := by
  cases s with
  | row r' value b pos =>
    rw [legacy]
    cases route env r' value b with
    | legacy key v =>
      simp only
      split
      · simpa [recs] using h
      · simp
    | _ => simp
  | _ => simp [legacy]

theorem length_legacy_le (env : Env) (k : PartitionKey) (s : Step) : (s.legacy env k).length ≤ 1 := by
  cases s with
  | row r value b pos =>
    rw [legacy]
    cases route env r value b with
    | legacy key v =>
      simp only
      split <;> simp
    | _ => simp
  | _ => simp [legacy]

theorem deadletters_subset (env : Env) (h : r ∉ s.recs) :
    ∀ d ∈ s.deadletters env, d.origin ≠ .record r := by
  intro d hd
  cases s with
  | deadletter d' offset =>
    obtain rfl : d = d' := by simpa [deadletters] using hd
    intro ho
    simp [recs, ho] at h
  | arrow key ok pos rows => cases hd
  | row r' value b pos =>
    rw [deadletters] at hd
    cases hroute : route env r' value b with
    | deadletter code error =>
      rw [hroute] at hd
      obtain rfl : d = ⟨.record r', .slowPath code, error, pos⟩ := by simpa using hd
      intro ho
      cases ho
      simp [recs] at h
    | _ =>
      rw [hroute] at hd
      cases hd

end Step

section Count
variable (hnd : (steps.flatMap Step.recs).Nodup) (hs : s ∈ steps) (hr : r ∈ s.recs)
include hnd hs hr

theorem count_batches (k : PartitionKey) :
    (steps.flatMap (·.batches k)).flatten.count r = (s.batches k).flatten.count r := by
  rw [List.flatten_eq_flatMap, List.flatMap_assoc]
  simp only [← List.flatten_eq_flatMap]
  exact countP_flatMap_of_mem
    (fun _ _ hx => List.count_eq_zero.mpr (Step.batches_subset k hx)) hnd hs hr

theorem count_exactRows (env : Env) (k : PartitionKey) :
    (steps.flatMap (·.exactRows env k)).count r = (s.exactRows env k).count r :=
  countP_flatMap_of_mem
    (fun _ _ hx => List.count_eq_zero.mpr (Step.exactRows_subset env k hx)) hnd hs hr

theorem count_bisected (env : Env) (k : PartitionKey) :
    ((serializedAt env steps k).flatten.map (·.record)).count r +
        ((rejectedAt env steps k).map (·.record)).count r =
      ((s.legacy env k).map (·.record)).count r ∧ ((s.legacy env k).map (·.record)).count r ≤ 1 := by
  have hperm := ((bisectSerialize_perm (env.serialize k) (steps.flatMap (·.legacy env k))).map
    (·.record)).count_eq r
  rw [List.map_flatMap, List.count, countP_flatMap_of_mem
    (fun _ _ hx => List.count_eq_zero.mpr (Step.legacy_subset env k hx)) hnd hs hr,
    List.map_append, List.countP_append] at hperm
  refine ⟨hperm, List.count_le_length.trans ?_⟩
  rw [List.length_map]
  exact s.length_legacy_le env k

theorem count_serializedAt (env : Env) (k : PartitionKey) :
    ((serializedAt env steps k).map (·.map (·.record))).flatten.count r =
      if r ∈ (rejectedAt env steps k).map (·.record) then 0
      else ((s.legacy env k).map (·.record)).count r := by
  obtain ⟨hsum, hone⟩ := count_bisected hnd hs hr env k
  rw [← List.map_flatten]
  split
  · rename_i hmem
    have := List.count_pos_iff.mpr hmem
    omega
  · rename_i hmem
    rw [List.count_eq_zero.mpr hmem] at hsum
    omega

theorem count_exactBatch (env : Env) (k : PartitionKey) :
    (exactBatch env steps k).flatten.count r =
      if torn env k steps ∨ env.typed k = false then 0 else (s.exactRows env k).count r := by
  rw [← count_exactRows hnd hs hr env k]
  unfold exactBatch
  by_cases hrows : steps.flatMap (·.exactRows env k) = []
  · simp [hrows]
  · by_cases hlost : torn env k steps ∨ env.typed k = false
    · rw [if_pos (.inr hlost), if_pos hlost]
      rfl
    · rw [if_neg (by simp only [hrows, hlost, or_self, not_false_eq_true]), if_neg hlost]
      simp

theorem count_batchesAt (env : Env) (k : PartitionKey) :
    (batchesAt env steps k).flatten.count r = if dest env steps s = .partition k then 1 else 0 := by
  have hcount : (batchesAt env steps k).flatten.count r =
      (s.batches k).flatten.count r +
        (if torn env k steps ∨ env.typed k = false then 0 else (s.exactRows env k).count r) +
        (if r ∈ (rejectedAt env steps k).map (·.record) then 0
          else ((s.legacy env k).map (·.record)).count r) := by
    rw [batchesAt, List.flatten_append, List.flatten_append, List.count_append, List.count_append,
      count_batches hnd hs hr, count_exactBatch hnd hs hr, count_serializedAt hnd hs hr]
  have hsnd : s.recs.Nodup := (List.nodup_flatMap.mp hnd).1 s hs
  rw [hcount]
  cases s with
  | deadletter d offset => simp [Step.batches, Step.exactRows, Step.legacy, dest]
  | arrow key ok pos rows =>
    have hone : rows.count r = 1 := List.count_eq_one_of_mem hsnd hr
    by_cases hk : key = k
    · simp [Step.batches, Step.exactRows, Step.legacy, dest, hk, hone]
    · simp [Step.batches, Step.exactRows, Step.legacy, dest, hk]
  | row r' value b pos =>
    obtain rfl : r = r' := by simpa [Step.recs] using hr
    cases hroute : route env r value b with
    | exact key =>
      simp only [Step.batches, Step.exactRows, Step.legacy, dest, hroute]
      by_cases hk : key = k
      · subst hk
        by_cases hlost : torn env key steps ∨ env.typed key = false <;> simp [hlost]
      · by_cases hlost : torn env key steps ∨ env.typed key = false <;> simp [hlost, hk]
    | legacy key v =>
      simp only [Step.batches, Step.exactRows, Step.legacy, dest, hroute]
      by_cases hk : key = k
      · subst hk
        by_cases hlost : r ∈ (rejectedAt env steps key).map (·.record) <;> simp [hlost]
      · by_cases hlost : r ∈ (rejectedAt env steps key).map (·.record) <;> simp [hlost, hk]
    | deadletter code error | dropped =>
      simp [Step.batches, Step.exactRows, Step.legacy, dest, hroute]

theorem count_rejectedAt (env : Env) (k : PartitionKey) :
    ((rejectedAt env steps k).map (·.record)).count r =
      if r ∈ (rejectedAt env steps k).map (·.record) then ((s.legacy env k).map (·.record)).count r
      else 0 := by
  obtain ⟨hsum, hone⟩ := count_bisected hnd hs hr env k
  split
  · rename_i hmem
    have := List.count_pos_iff.mpr hmem
    omega
  · rename_i hmem
    exact List.count_eq_zero.mpr hmem

theorem count_serializeDeadletter (env : Env) (k : PartitionKey) :
    ((rejectedAt env steps k).map serializeDeadletter).countP (·.isOf r) =
      if r ∈ (rejectedAt env steps k).map (·.record) then ((s.legacy env k).map (·.record)).count r
      else 0 := by
  rw [← count_rejectedAt hnd hs hr, List.count, List.countP_map, List.countP_map]
  refine List.countP_congr fun d _ => ?_
  simp [DeadletterRecord.isOf, serializeDeadletter]

theorem count_deadletters (env : Env) {keys : List PartitionKey} (hkeys : keys.Nodup)
    (htracked : ∀ k, k ∈ keys ↔ steps.flatMap (·.tracks env k) ≠ []) :
    (steps.flatMap (·.deadletters env) ++
        keys.flatMap fun k => (rejectedAt env steps k).map serializeDeadletter).countP (·.isOf r) =
      if dest env steps s = .deadletter then 1 else 0 := by
  have hsteps : (steps.flatMap (·.deadletters env)).countP (·.isOf r) =
      (s.deadletters env).countP (·.isOf r) := by
    refine countP_flatMap_of_mem (fun x _ hx => List.countP_eq_zero.mpr fun d hd => ?_) hnd hs hr
    simpa [DeadletterRecord.isOf] using Step.deadletters_subset env hx d hd
  have hat := count_serializeDeadletter hnd hs hr env
  have hnone : (∀ k, s.legacy env k = []) → (keys.flatMap fun k =>
      (rejectedAt env steps k).map serializeDeadletter).countP (·.isOf r) = 0 := by
    intro hlegacy
    refine List.countP_eq_zero.mpr fun d hd => ?_
    obtain ⟨k, -, hd⟩ := List.mem_flatMap.mp hd
    exact List.countP_eq_zero.mp ((hat k).trans (by simp [hlegacy])) d hd
  rw [List.countP_append, hsteps]
  cases s with
  | deadletter d offset =>
    have hd : d.isOf r = true := by
      unfold Step.recs at hr
      unfold DeadletterRecord.isOf
      cases ho : d.origin <;> simp_all
    rw [hnone fun _ => rfl]
    simp [Step.deadletters, dest, hd]
  | arrow key ok pos rows =>
    rw [hnone fun _ => rfl]
    simp [Step.deadletters, dest]
  | row r' value b pos =>
    obtain rfl : r = r' := by simpa [Step.recs] using hr
    cases hroute : route env r value b with
    | legacy key v =>
      have hlegacy : ∀ k, (Step.row r value b pos).legacy env k =
          if key = k then [⟨r, v, pos⟩] else [] := fun k => by rw [Step.legacy, hroute]
      have hkey : key ∈ keys := by
        rw [htracked]
        refine List.ne_nil_of_mem (a := b.offsetKey) (List.mem_flatMap.mpr ⟨_, hs, ?_⟩)
        simp [Step.tracks, hroute]
      have hkeyed : (keys.flatMap fun k => [k]).Nodup := by simpa using hkeys
      -- Only its own partition can have rejected it.
      have hone := countP_flatMap_of_mem (p := fun d => d.isOf r)
        (f := fun k => (rejectedAt env steps k).map serializeDeadletter)
        (fun k _ hk => by
          have hk : key ≠ k := by simpa using hk
          simp [hat, hlegacy, hk]) hkeyed hkey (List.mem_singleton.mpr rfl)
      rw [hone, hat, hlegacy]
      by_cases hrej : r ∈ (rejectedAt env steps key).map (·.record) <;>
        simp [Step.deadletters, dest, hroute, hrej]
    | exact key =>
      rw [hnone fun k => by rw [Step.legacy, hroute]]
      by_cases hlost : torn env key steps ∨ env.typed key = false <;>
        simp [Step.deadletters, dest, hroute, hlost]
    | deadletter code error =>
      rw [hnone fun k => by rw [Step.legacy, hroute]]
      simp [Step.deadletters, dest, hroute, DeadletterRecord.isOf]
    | dropped =>
      rw [hnone fun k => by rw [Step.legacy, hroute]]
      simp [Step.deadletters, dest, hroute]

end Count

/-! ## Records of no step -/

section Absent
variable (hr : r ∉ steps.flatMap Step.recs)
include hr

theorem legacy_absent (env : Env) (k : PartitionKey) :
    r ∉ (steps.flatMap (·.legacy env k)).map (·.record) := by
  rw [List.map_flatMap, List.mem_flatMap]
  rintro ⟨s, hs, hmem⟩
  exact Step.legacy_subset env k (fun h => hr (List.mem_flatMap.mpr ⟨s, hs, h⟩)) hmem

theorem batchesAt_absent (env : Env) (k : PartitionKey) : r ∉ (batchesAt env steps k).flatten := by
  have hstep : ∀ s ∈ steps, r ∉ s.recs := fun s hs h => hr (List.mem_flatMap.mpr ⟨s, hs, h⟩)
  rw [batchesAt, List.flatten_append, List.flatten_append, List.mem_append, List.mem_append]
  rintro ((h | h) | h)
  · obtain ⟨rows, hrows, hmem⟩ := List.mem_flatten.mp h
    obtain ⟨s, hs, hrows⟩ := List.mem_flatMap.mp hrows
    exact Step.batches_subset k (hstep s hs) (List.mem_flatten.mpr ⟨rows, hrows, hmem⟩)
  · simp only [exactBatch] at h
    split at h
    · simp at h
    · obtain ⟨s, hs, hmem⟩ := List.mem_flatMap.mp (by simpa using h)
      exact Step.exactRows_subset env k (hstep s hs) hmem
  · refine legacy_absent hr env k ?_
    have hperm := (bisectSerialize_perm (env.serialize k) (steps.flatMap (·.legacy env k))).map
      (·.record)
    refine hperm.subset ?_
    rw [List.map_append, List.mem_append, List.map_flatten]
    exact .inl h

theorem deadletters_absent (env : Env) (keys : List PartitionKey) :
    (steps.flatMap (·.deadletters env) ++
        keys.flatMap fun k => (rejectedAt env steps k).map serializeDeadletter).countP (·.isOf r) =
      0 := by
  refine List.countP_eq_zero.mpr fun d hd => ?_
  unfold DeadletterRecord.isOf
  rw [decide_eq_true_eq]
  rcases List.mem_append.mp hd with hd | hd
  · obtain ⟨s, hs, hd⟩ := List.mem_flatMap.mp hd
    exact Step.deadletters_subset env (fun h => hr (List.mem_flatMap.mpr ⟨s, hs, h⟩)) d hd
  · obtain ⟨k, -, hd⟩ := List.mem_flatMap.mp hd
    obtain ⟨l, hl, rfl⟩ := List.mem_map.mp hd
    intro ho
    cases ho
    refine legacy_absent hr env k (List.mem_map_of_mem ?_)
    refine (bisectSerialize_perm (env.serialize k) (steps.flatMap (·.legacy env k))).subset ?_
    exact List.mem_append_right _ hl

end Absent

end Skippr.L4.Ingest
