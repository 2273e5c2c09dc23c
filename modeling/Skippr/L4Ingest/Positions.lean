import Skippr.Core.KeyedMax
import Skippr.L4Ingest.Delivery

/-!
# The positions a call attaches to its offset keys

`process_batch` tracks the greatest position of every offset key per partition,
and of the deadletter records beside them. When some records of a partition do
not serialise, `set_entry_offsets_max` overwrites the positions of all its keys
with the greatest serialised one, and `merge_dl_offsets_for_records` books the
failed ones on whichever key the entry's hash map gives first
(src/ingest_work.rs:927-970, 3991-4077).
-/
namespace Skippr.L4.Ingest

open Skippr.L1 Skippr.L2

/-! ## Positions of the steps -/

namespace Step

def trackedAt (env : Env) (k : PartitionKey) : Step → List (OffsetKey × UInt64)
  | .row r value b pos => match route env r value b with
    | .exact key => if key = k then [(b.offsetKey, pos)] else []
    | .legacy key _ => if key = k then [(b.offsetKey, pos)] else []
    | _ => []
  | .arrow key ok pos _ => if key = k then [(ok, pos)] else []
  | _ => []

def deadletteredAt (env : Env) : Step → List (OffsetKey × UInt64)
  | .deadletter _ offset => offset.toList
  | .row r value b pos => match route env r value b with
    | .deadletter _ _ => [(b.offsetKey, pos)]
    | _ => []
  | _ => []

/-- The key and the position of the step's record. -/
def position : Step → Option (OffsetKey × UInt64)
  | .deadletter _ offset => offset
  | .row _ _ b pos => some (b.offsetKey, pos)
  | .arrow _ ok pos _ => some (ok, pos)

/-- The record evolves to null. -/
def isDropped (env : Env) : Step → Bool
  | .row r value b _ => match route env r value b with
    | .dropped => true
    | _ => false
  | _ => false

end Step

/-! ## Positions of the records -/

/-- The position of a record that is processed: one that is ingested, or that
cannot be. -/
def processedItem (b : IngestBatch) (snapshot : Option OffsetValue) : Item → Option UInt64
  | .notObject line => some (b.offsetPosForLine line)
  | .parseError line _ => some (b.offsetPosForLine line)
  | .row line value =>
    if value.isEmptyRecord ∨
        shouldIngestAtOffset snapshot b.isCdc b.trackPosition (b.offsetPosForLine line) then
      some (b.offsetPosForLine line)
    else none

def processedItems (b : IngestBatch) (snapshot : Option OffsetValue)
    (values : List (Except String Json)) : List UInt64 :=
  (flattenItems 0 values).filterMap (processedItem b snapshot)

/-- The positions of the processed records of a batch. Arrow rows are at the
position of their payload, a payload that is not decoded at its last line. -/
def processedPositions (env : Env) (i : Nat) (b : IngestBatch) : List UInt64 :=
  match snapshotValue env.store b.offsetKey with
  | .error _ => []
  | .ok snapshot =>
    match b.data with
    | .lines lines => processedItems b snapshot lines
    | .rows records => processedItems b snapshot (records.map .ok)
    | .arrow batches =>
      if env.flatten then
        match env.toJson i with
        | .error _ => []
        | .ok records => processedItems b snapshot (records.map .ok)
      else if shouldIngestAtOffset snapshot b.isCdc b.trackPosition (arrowPos b batches) ∧
          batches ≠ [] ∧ (env.coerce i 0).isOk then [arrowPos b batches]
      else []
    | .error _ lineCount => [b.offsetPosForLine (max lineCount 1)]

/-- The processed records of a call: their keys and positions. -/
def processed (env : Env) (datas : List IngestBatch) : List (OffsetKey × UInt64) :=
  datas.zipIdx.flatMap fun b => (processedPositions env b.2 b.1).map (b.1.offsetKey, ·)

/-- A record of the key is processed at position `p`. -/
def Own (env : Env) (datas : List IngestBatch) (ok : OffsetKey) (p : UInt64) : Prop :=
  (ok, p) ∈ processed env datas

/-- The call gives the key the position `p`: in its commit unit or in the
deadletter offsets. -/
def Attached (env : Env) (e : Encoded) (ok : OffsetKey) (p : UInt64) : Prop :=
  (∃ x ∈ (commitDeadletters env e).buf, x.2.offsets.get ok = some p) ∨
    e.deadletterOffsets.get ok = some p

/-- Every key ends at the greatest position of its own records, and is given no
position that is not of its own records. -/
def OwnPositions (env : Env) (datas : List IngestBatch) (e : Encoded) : Prop :=
  ∀ ok, (∀ p, IsGreatest {p | Attached env e ok p} p ↔ IsGreatest {p | Own env datas ok p} p) ∧
    ∀ p, Attached env e ok p → Own env datas ok p

/-! ## When a call does so -/

section Condition
variable (env : Env) (steps : List Step)

def Tracks (k : PartitionKey) (ok : OffsetKey) (p : UInt64) : Prop :=
  (ok, p) ∈ steps.flatMap (·.trackedAt env k)

/-- Some of the partition's records serialise and some do not. -/
def Mixed (k : PartitionKey) : Prop :=
  rejectedAt env steps k ≠ [] ∧ (serializedAt env steps k).flatten ≠ []

/-- The greatest position of the partition's serialised records. -/
def Top (k : PartitionKey) (p : UInt64) : Prop :=
  IsGreatest {p | ∃ r ∈ (serializedAt env steps k).flatten, r.pos = p} p

/-- `p` is the greatest position of the partition's failed records, and `ok` the
key its hash map gives first. -/
def Charged (k : PartitionKey) (ok : OffsetKey) (p : UInt64) : Prop :=
  IsGreatest {p | ∃ r ∈ rejectedAt env steps k, r.pos = p} p ∧
    ok ∈ steps.flatMap (·.tracks env k) ∧
    ∀ ok' ∈ steps.flatMap (·.tracks env k), env.order (.partition k) ok ≤ env.order (.partition k) ok'

/-- The positions of the key's deadletter records, and of failed records booked
on it. -/
def Booked (ok : OffsetKey) (p : UInt64) : Prop :=
  (ok, p) ∈ steps.flatMap (·.deadletteredAt env) ∨ ∃ k, Charged env steps k ok p

/-- A partition of the unit, whose buffer is not the deadletter batch's. -/
def Sets (k : PartitionKey) (ok : OffsetKey) (p : UInt64) : Prop :=
  ¬ Replaced env steps k ∧ Mixed env steps k ∧ (∃ q, Tracks env steps k ok q) ∧ Top env steps k p

/-- The items of a payload; one that is not decoded is a line that does not parse. -/
def payloadItems (i : Nat) (b : IngestBatch) : List Item :=
  match b.data with
  | .lines lines => flattenItems 0 lines
  | .rows records => flattenItems 0 (records.map .ok)
  | .arrow _ =>
    match env.flatten, env.toJson i with
    | true, .ok records => flattenItems 0 (records.map .ok)
    | _, _ => []
  | .error err lineCount => [.parseError (max lineCount 1) err]

def Item.isRow : Item → Bool
  | .row _ _ => true
  | _ => false

/-- What the records of a call must be like. -/
structure Plain (datas : List IngestBatch) : Prop where
  /-- In a batch with an offset position every item is a record. -/
  placed : ∀ x ∈ datas.zipIdx, ∀ item ∈ payloadItems env x.2 x.1,
    item.isRow = true ∨ x.1.offsetPos = none
  /-- No record evolves to null. -/
  kept : ∀ s ∈ steps, s.isDropped env = false
  /-- No record is of the partition of the deadletter batch. -/
  apart : ∀ k, deadletterBatchKey env = some k → steps.flatMap (·.tracks env k) = []
  /-- A partition with a record that does not serialise holds records of one key
  only, and all of them go through the serialiser. -/
  oneKey : ∀ k, (∃ l ∈ steps.flatMap (·.legacy env k), env.serialize k [l.normalized] = false) →
    ∃ ok, ∀ s ∈ steps, s.tracks env k ≠ [] → s.tracks env k = [ok] ∧ s.legacy env k ≠ []

end Condition

variable {env : Env} {k : PartitionKey} {steps : List Step} {s : Step} {ok : OffsetKey} {p : UInt64}

theorem keys_trackedAt (env : Env) (k : PartitionKey) (s : Step) :
    (s.trackedAt env k).map Prod.fst = s.tracks env k := by
  cases s with
  | deadletter d offset => rfl
  | arrow key ok pos rows =>
    rw [Step.trackedAt, Step.tracks]
    split <;> rfl
  | row r value b pos =>
    rw [Step.trackedAt, Step.tracks]
    cases route env r value b with
    | exact key | legacy key v => dsimp only; split <;> rfl
    | deadletter code error => rfl
    | dropped => rfl

theorem mem_tracks : ok ∈ steps.flatMap (·.tracks env k) ↔ ∃ p, Tracks env steps k ok p := by
  simp only [Tracks, List.mem_flatMap, ← keys_trackedAt, List.mem_map]
  constructor
  · intro h
    obtain ⟨s, hs, x, hx, rfl⟩ := h
    exact ⟨x.2, s, hs, hx⟩
  · intro h
    obtain ⟨p, s, hs, hx⟩ := h
    exact ⟨s, hs, (ok, p), hx, rfl⟩

/-! ## The steps are at own positions -/

section Own
variable {datas : List IngestBatch} {i : Nat} {b : IngestBatch} {snapshot : Option OffsetValue}

theorem mem_callSteps (h : callSteps env i datas = some steps) (hs : s ∈ steps) :
    ∃ x ∈ datas.zipIdx i, ∃ own, batchSteps env x.2 x.1 = some own ∧ s ∈ own := by
  induction datas generalizing i steps with
  | nil =>
    cases h
    cases hs
  | cons b datas ih =>
    rw [callSteps] at h
    split at h
    · cases h
    · rename_i own hown
      obtain ⟨rest, hrest, rfl⟩ := Option.map_eq_some_iff.1 h
      rw [List.zipIdx_cons]
      rcases List.mem_append.1 hs with hs | hs
      · exact ⟨(b, i), List.mem_cons_self, own, hown, hs⟩
      · obtain ⟨x, hx, hown⟩ := ih hrest hs
        exact ⟨x, List.mem_cons_of_mem _ hx, hown⟩

theorem position_itemStep {item : Item} (h : item.isRow = true ∨ b.offsetPos = none) :
    (itemStep i b snapshot item).bind Step.position =
      (processedItem b snapshot item).map (b.offsetKey, ·) := by
  cases item with
  | notObject line | parseError line error =>
    have hpos : b.offsetPos = none := h.resolve_left Bool.false_ne_true
    simp [itemStep, processedItem, Step.position, IngestBatch.offsetPosForLine, hpos]
  | row line value =>
    simp only [itemStep, processedItem]
    by_cases hempty : value.isEmptyRecord = true
    · simp [hempty, Step.position]
    · split_ifs with hadmitted <;> simp_all [Step.position]

theorem position_itemSteps {values : List (Except String Json)}
    (h : ∀ item ∈ flattenItems 0 values, item.isRow = true ∨ b.offsetPos = none) :
    (itemSteps i b snapshot values).filterMap Step.position =
      (processedItems b snapshot values).map (b.offsetKey, ·) := by
  rw [itemSteps, processedItems, List.filterMap_filterMap, List.map_filterMap]
  exact List.filterMap_congr fun item hitem => position_itemStep (h item hitem)

theorem mem_position_arrow {pos : UInt64} {j n : Nat} {counts : List Nat} {x : OffsetKey × UInt64} :
    x ∈ (arrowSteps env i b pos j n counts).filterMap Step.position ↔
      x = (b.offsetKey, pos) ∧ counts ≠ [] ∧ (env.coerce i j).isOk := by
  induction counts generalizing j n with
  | nil => simp [arrowSteps]
  | cons count rest ih =>
    rw [arrowSteps]
    cases hkey : env.coerce i j with
    | error e => simp [Step.position, Except.isOk, Except.toBool]
    | ok key =>
      rw [List.filterMap_cons_some (by rfl), List.mem_cons, ih]
      simp only [ne_eq, reduceCtorEq, not_false_eq_true, true_and]
      exact ⟨fun hx => ⟨hx.elim id (·.1), rfl⟩, fun hx => .inl hx.1⟩

theorem mem_position_batch {own : List Step} (hown : batchSteps env i b = some own)
    (h : ∀ item ∈ payloadItems env i b, item.isRow = true ∨ b.offsetPos = none)
    {x : OffsetKey × UInt64} : x ∈ own.filterMap Step.position ↔
      x ∈ (processedPositions env i b).map (b.offsetKey, ·) := by
  rw [batchSteps] at hown
  rw [processedPositions]
  rw [payloadItems] at h
  cases hsnapshot : snapshotValue env.store b.offsetKey with
  | error err =>
    rw [hsnapshot] at hown
    cases hown
  | ok snapshot =>
    rw [hsnapshot] at hown
    cases hdata : b.data with
    | lines lines =>
      simp only [hdata] at hown h
      cases hown
      rw [position_itemSteps h]
    | rows records =>
      simp only [hdata] at hown h
      split at hown
      · cases hown
      cases hown
      rw [position_itemSteps h]
    | error err lineCount =>
      simp only [hdata] at hown h
      cases hown
      have hpos : b.offsetPos = none :=
        (h _ (List.mem_singleton_self _)).resolve_left Bool.false_ne_true
      simp [Step.position, IngestBatch.offsetPosForLine, hpos]
    | arrow batches =>
      simp only [hdata] at hown h ⊢
      split at hown
      · cases hown
      cases hflatten : env.flatten with
      | true =>
        rw [hflatten] at hown h
        cases hjson : env.toJson i with
        | error err =>
          rw [hjson] at hown
          cases hown
          simp [Step.position]
        | ok records =>
          rw [hjson] at hown h
          cases hown
          rw [if_pos rfl, position_itemSteps h]
      | false =>
        rw [hflatten, if_neg Bool.false_ne_true] at hown
        rw [if_neg Bool.false_ne_true]
        split at hown
        · rename_i hadmitted
          cases hown
          rw [mem_position_arrow]
          simp only [hadmitted, true_and]
          split_ifs with hcond
          · simp [hcond]
          · simp [hcond]
        · rename_i hnot
          cases hown
          rw [if_neg fun hcond => hnot hcond.1]
          simp

theorem mem_position_call (h : callSteps env i datas = some steps)
    (hplaced : ∀ x ∈ datas.zipIdx i, ∀ item ∈ payloadItems env x.2 x.1,
      item.isRow = true ∨ x.1.offsetPos = none) {x : OffsetKey × UInt64} :
    x ∈ steps.filterMap Step.position ↔
      x ∈ (datas.zipIdx i).flatMap fun b => (processedPositions env b.2 b.1).map (b.1.offsetKey, ·) := by
  induction datas generalizing i steps with
  | nil =>
    cases h
    rfl
  | cons b datas ih =>
    rw [callSteps] at h
    split at h
    · cases h
    · rename_i own hown
      obtain ⟨rest, hrest, rfl⟩ := Option.map_eq_some_iff.1 h
      rw [List.zipIdx_cons, List.forall_mem_cons] at hplaced
      rw [List.filterMap_append, List.mem_append, List.zipIdx_cons, List.flatMap_cons, List.mem_append,
        ih hrest hplaced.2, mem_position_batch hown hplaced.1]

theorem Plain.own_iff (hplain : Plain env steps datas) (hsteps : callSteps env 0 datas = some steps) :
    Own env datas ok p ↔ ∃ s ∈ steps, s.position = some (ok, p) := by
  rw [Own, processed, ← mem_position_call hsteps hplain.placed, List.mem_filterMap]

end Own

theorem position_of_tracked {x : OffsetKey × UInt64} (h : x ∈ s.trackedAt env k) :
    s.position = some x := by
  cases s with
  | deadletter d offset => cases h
  | arrow key ok pos rows =>
    rw [Step.trackedAt] at h
    split at h
    · rw [List.mem_singleton.1 h]
      rfl
    · cases h
  | row r value b pos =>
    rw [Step.trackedAt] at h
    cases hroute : route env r value b with
    | exact key | legacy key v =>
      simp only [hroute] at h
      split at h
      · rw [List.mem_singleton.1 h]
        rfl
      · cases h
    | deadletter code error | dropped =>
      rw [hroute] at h
      cases h

theorem position_of_deadlettered {x : OffsetKey × UInt64} (h : x ∈ s.deadletteredAt env) :
    s.position = some x := by
  cases s with
  | deadletter d offset => exact Option.mem_toList.1 h
  | arrow key ok pos rows => cases h
  | row r value b pos =>
    rw [Step.deadletteredAt] at h
    cases hroute : route env r value b with
    | deadletter code error =>
      rw [hroute] at h
      rw [List.mem_singleton.1 h]
      rfl
    | exact key | legacy key v | dropped =>
      rw [hroute] at h
      cases h

theorem tracked_or_deadlettered (h : s.isDropped env = false) {x : OffsetKey × UInt64}
    (hx : s.position = some x) : (∃ k, x ∈ s.trackedAt env k) ∨ x ∈ s.deadletteredAt env := by
  cases s with
  | deadletter d offset => exact .inr (Option.mem_toList.2 hx)
  | arrow key ok pos rows =>
    cases hx
    exact .inl ⟨key, by simp [Step.trackedAt]⟩
  | row r value b pos =>
    cases hx
    cases hroute : route env r value b with
    | exact key | legacy key v => exact .inl ⟨key, by simp [Step.trackedAt, hroute]⟩
    | deadletter code error => exact .inr (by simp [Step.deadletteredAt, hroute])
    | dropped => simp [Step.isDropped, hroute] at h

theorem tracked_of_legacy {l : LegacyRecord} (h : l ∈ s.legacy env k) :
    ∃ ok, (ok, l.pos) ∈ s.trackedAt env k := by
  cases s with
  | deadletter d offset | arrow key ok pos rows => cases h
  | row r value b pos =>
    rw [Step.legacy] at h
    cases hroute : route env r value b with
    | legacy key v =>
      simp only [hroute] at h
      split at h
      · rename_i hkey
        rw [List.mem_singleton.1 h]
        exact ⟨b.offsetKey, by simp [Step.trackedAt, hroute, hkey]⟩
      · cases h
    | exact key | deadletter code error | dropped =>
      rw [hroute] at h
      cases h

theorem tracks_of_legacy {l : LegacyRecord} (h : l ∈ steps.flatMap (·.legacy env k)) :
    ∃ ok, Tracks env steps k ok l.pos := by
  obtain ⟨s, hs, hl⟩ := List.mem_flatMap.1 h
  obtain ⟨ok, hok⟩ := tracked_of_legacy hl
  exact ⟨ok, List.mem_flatMap.2 ⟨s, hs, hok⟩⟩

/-! ## What is tracked -/

theorem mergeOffset_eq (m : Offsets) (ok : OffsetKey) (pos : UInt64) :
    mergeOffset m ok pos = mergeMax m ok pos := by
  unfold mergeOffset mergeMax
  cases m.get ok <;> rfl

theorem deadletterOffsets_holdsMax (env : Env) (steps : List Step) :
    HoldsMax (gather env steps).deadletterOffsets (steps.flatMap (·.deadletteredAt env)) := by
  refine gather_induction holdsMax_empty ?_ ?_ ?_ steps
  · intro steps g d offset ih
    rw [flatMap_snoc]
    cases offset with
    | none => simpa [Step.deadletteredAt, applyStep] using ih
    | some o =>
      show HoldsMax (mergeOffset g.deadletterOffsets o.1 o.2) _
      rw [mergeOffset_eq]
      exact ih.merge o.1 o.2
  · intro steps g key ok pos rows ih
    rw [flatMap_snoc]
    simpa [Step.deadletteredAt, applyStep] using ih
  · intro steps g exact r value b pos ih
    rw [flatMap_snoc, Step.deadletteredAt]
    cases route env r value b with
    | deadletter code error =>
      rw [applyRoute, mergeOffset_eq]
      exact ih.merge b.offsetKey pos
    | exact key | dropped => simpa [applyRoute] using ih
    | legacy key v => simpa [applyRoute, enqueueLegacyRecord] using ih

def offsetsAt (buf : Map PartitionKey BufferBatch) (k : PartitionKey) : Offsets :=
  (buf.get k).elim ∅ (·.offsets)

theorem offsetsAt_track (buf : Map PartitionKey BufferBatch) (key : PartitionKey) (ok : OffsetKey)
    (pos : UInt64) (k : PartitionKey) :
    offsetsAt (trackPartitionOffset buf key ok pos) k =
      if k = key then mergeMax (offsetsAt buf k) ok pos else offsetsAt buf k := by
  rw [offsetsAt, get_trackPartitionOffset, offsetsAt]
  split
  · rw [← mergeOffset_eq]
    cases buf.get k <;> rfl
  · rfl

theorem offsetsAt_push (buf : Map PartitionKey BufferBatch) (key : PartitionKey) (ok : OffsetKey)
    (pos : UInt64) (rows : List Rec) (k : PartitionKey) :
    offsetsAt (pushArrow buf key ok pos rows) k =
      if k = key then mergeMax (offsetsAt buf k) ok pos else offsetsAt buf k := by
  rw [offsetsAt, get_pushArrow, offsetsAt]
  split
  · rw [← mergeOffset_eq]
    cases buf.get k <;> rfl
  · rfl

theorem holdsMax_track {m : Offsets} {l : List (OffsetKey × UInt64)} (h : HoldsMax m l)
    (key k : PartitionKey) (ok : OffsetKey) (pos : UInt64) :
    HoldsMax (if k = key then mergeMax m ok pos else m)
      (l ++ if key = k then [(ok, pos)] else []) := by
  by_cases hk : k = key
  · rw [if_pos hk, if_pos hk.symm]
    exact h.merge ok pos
  · rw [if_neg hk, if_neg (Ne.symm hk), List.append_nil]
    exact h

theorem offsets_holdsMax (env : Env) (steps : List Step) : ∀ k,
    HoldsMax (offsetsAt (gather env steps).buf k) (steps.flatMap (·.trackedAt env k)) := by
  refine gather_induction (fun _ => holdsMax_empty) ?_ ?_ ?_ steps
  · intro steps g d offset ih k
    rw [flatMap_snoc]
    simpa [Step.trackedAt, applyStep] using ih k
  · intro steps g key ok pos rows ih k
    rw [flatMap_snoc, applyStep, offsetsAt_push]
    exact holdsMax_track (ih k) key k ok pos
  · intro steps g exact r value b pos ih k
    rw [flatMap_snoc, Step.trackedAt]
    cases route env r value b with
    | exact key =>
      rw [applyRoute, offsetsAt_track]
      exact holdsMax_track (ih k) key k b.offsetKey pos
    | legacy key v =>
      rw [applyRoute, enqueueLegacyRecord, offsetsAt_track]
      exact holdsMax_track (ih k) key k b.offsetKey pos
    | deadletter code error | dropped => simpa [applyRoute] using ih k

variable {entry : BufferBatch}

/-! ## After encoding -/

theorem greatest_of_max? {α : Type} {l : List α} {f : α → UInt64} :
    (l.map f).max? = some p ↔ IsGreatest {p | ∃ a ∈ l, f a = p} p := by
  rw [List.max?_eq_some_iff]
  simp only [List.mem_map]
  rfl

theorem serialized_gather (env : Env) (steps : List Step) (k : PartitionKey) :
    (bisectSerialize (env.serialize k) (((gather env steps).raw.get k).getD [])).1 =
      serializedAt env steps k := by
  rw [raw_gather, serializedAt]

theorem encodedOffsets_of_mixed (h : (gather env steps).buf.get k = some entry)
    (hmixed : Mixed env steps k) : ∃ top, Top env steps k top ∧
      encodedOffsets env (gather env steps) k entry = entry.offsets.filterMap fun _ => some top := by
  obtain ⟨hrejected, hserialized⟩ := hmixed
  have hbatches : batchesAt env steps k ≠ [] := by
    intro hnil
    apply hserialized
    simp only [batchesAt, List.append_eq_nil_iff, List.map_eq_nil_iff] at hnil
    rw [hnil.2, List.flatten_nil]
  have hsome : ((serializedAt env steps k).flatten.map (·.pos)).max?.isSome := by
    rw [List.isSome_max?_iff]
    simpa using hserialized
  obtain ⟨top, htop⟩ := Option.isSome_iff_exists.1 hsome
  refine ⟨top, greatest_of_max?.1 htop, ?_⟩
  rw [encodedOffsets, failedRecords_gather, partitionBatches_gather h, serialized_gather,
    if_pos ⟨hrejected, hbatches⟩, htop]

theorem encodedOffsets_of_not_mixed (h : (gather env steps).buf.get k = some entry)
    (hmixed : ¬ Mixed env steps k) :
    encodedOffsets env (gather env steps) k entry = entry.offsets := by
  rw [encodedOffsets, failedRecords_gather, partitionBatches_gather h, serialized_gather]
  split
  · rename_i hcond
    have hnil : (serializedAt env steps k).flatten = [] := by
      by_contra hne
      exact hmixed ⟨hcond.1, hne⟩
    rw [hnil]
    rfl
  · rfl

theorem get_encodedOffsets (h : (gather env steps).buf.get k = some entry) :
    (encodedOffsets env (gather env steps) k entry).get ok = some p ↔
      (Mixed env steps k ∧ (∃ q, Tracks env steps k ok q) ∧ Top env steps k p) ∨
        (¬ Mixed env steps k ∧ IsGreatest {p | Tracks env steps k ok p} p) := by
  have hmax := offsets_holdsMax env steps k
  rw [offsetsAt, h, Option.elim_some] at hmax
  by_cases hmixed : Mixed env steps k
  · obtain ⟨top, htop, heq⟩ := encodedOffsets_of_mixed h hmixed
    rw [heq, Map.get_filterMap]
    constructor
    · intro hget
      obtain ⟨old, hold, hp⟩ := Option.bind_eq_some_iff.1 hget
      cases hp
      exact .inl ⟨hmixed, ⟨old, (hmax.get_iff.1 hold).1⟩, htop⟩
    · intro hcase
      rcases hcase with ⟨-, ⟨q, hq⟩, hp⟩ | ⟨hnot, -⟩
      · obtain ⟨g, hg, -⟩ := exists_isGreatest hq
        rw [hmax.get_iff.2 hg, Option.bind_some, UInt64.le_antisymm (hp.2 htop.1) (htop.2 hp.1)]
      · exact absurd hmixed hnot
  · rw [encodedOffsets_of_not_mixed h hmixed, hmax.get_iff]
    constructor
    · exact fun hg => .inr ⟨hmixed, hg⟩
    · intro hcase
      rcases hcase with ⟨hm, -⟩ | ⟨-, hg⟩
      · exact absurd hm hmixed
      · exact hg

/-- What the failed records of an entry add to the deadletter offsets. -/
def chargeOf (env : Env) (g : Gathered) (x : PartitionKey × BufferBatch) : Option (OffsetKey × UInt64) :=
  match ((failedRecords env g x.1).map (·.pos)).max?,
    (env.iterate (.partition x.1) (encodedOffsets env g x.1 x.2)).head? with
  | some pos, some key => some (key, pos)
  | _, _ => none

theorem mergeFailedOffsets_eq (g : Gathered) (offsets : Offsets) (x : PartitionKey × BufferBatch) :
    mergeFailedOffsets env g offsets x = match chargeOf env g x with
      | some c => mergeMax offsets c.1 c.2
      | none => offsets := by
  rw [mergeFailedOffsets, chargeOf]
  cases ((failedRecords env g x.1).map (·.pos)).max? with
  | none => rfl
  | some pos =>
    cases (env.iterate (.partition x.1) (encodedOffsets env g x.1 x.2)).head? with
    | none => rfl
    | some key => exact mergeOffset_eq offsets key pos

theorem holdsMax_foldl_charge (g : Gathered) (entries : List (PartitionKey × BufferBatch)) :
    ∀ {m : Offsets} {l : List (OffsetKey × UInt64)}, HoldsMax m l →
      HoldsMax (entries.foldl (mergeFailedOffsets env g) m) (l ++ entries.filterMap (chargeOf env g)) := by
  induction entries with
  | nil =>
    intro m l h
    rw [List.filterMap_nil, List.append_nil]
    exact h
  | cons x entries ih =>
    intro m l h
    rw [List.foldl_cons, mergeFailedOffsets_eq]
    cases hc : chargeOf env g x with
    | none =>
      rw [List.filterMap_cons_none hc]
      exact ih h
    | some c =>
      rw [List.filterMap_cons_some hc, List.append_cons]
      exact ih (h.merge c.1 c.2)

theorem chargeOf_iff (h : (gather env steps).buf.get k = some entry) :
    chargeOf env (gather env steps) (k, entry) = some (ok, p) ↔ Charged env steps k ok p := by
  have hhead := head_iterate h ok
  have hmax : ((failedRecords env (gather env steps) k).map (·.pos)).max? = some p ↔ _ :=
    greatest_of_max?
  rw [failedRecords_gather] at hmax
  rw [Charged, ← hmax, ← hhead, chargeOf, failedRecords_gather]
  constructor
  · intro hc
    split at hc
    · rename_i pos key hpos hkey
      cases hc
      exact ⟨hpos, hkey⟩
    · cases hc
  · intro hc
    rw [hc.1, hc.2]

def bookings (env : Env) (steps : List Step) : List (OffsetKey × UInt64) :=
  steps.flatMap (·.deadletteredAt env) ++
    (gather env steps).buf.toList.filterMap (chargeOf env (gather env steps))

theorem mem_bookings : (ok, p) ∈ bookings env steps ↔ Booked env steps ok p := by
  rw [bookings, List.mem_append, Booked, List.mem_filterMap]
  refine or_congr_right ⟨?_, ?_⟩
  · intro hx
    obtain ⟨⟨k, entry⟩, hmem, hc⟩ := hx
    exact ⟨k, (chargeOf_iff ((Map.mem_toList _ _ _).1 hmem)).1 hc⟩
  · intro hx
    obtain ⟨k, hc⟩ := hx
    obtain ⟨entry, hentry⟩ := (tracked_iff env steps k).2 (List.ne_nil_of_mem hc.2.1)
    exact ⟨(k, entry), (Map.mem_toList _ _ _).2 hentry, (chargeOf_iff hentry).2 hc⟩

theorem exists_greatest_booked (h : Booked env steps ok p) :
    ∃ g, IsGreatest {p | Booked env steps ok p} g ∧ p ≤ g := by
  have := exists_isGreatest (mem_bookings.2 h)
  simpa only [mem_bookings] using this

section Encoded
variable {e : Encoded} (h : encodeAll env (gather env steps) = some e)
include h

theorem get_deadletterOffsets :
    e.deadletterOffsets.get ok = some p ↔ IsGreatest {p | Booked env steps ok p} p := by
  have hfold : HoldsMax e.deadletterOffsets (bookings env steps) := by
    rw [(encodeAll_some h).2.2]
    exact holdsMax_foldl_charge (gather env steps) (gather env steps).buf.toList
      (deadletterOffsets_holdsMax env steps)
  rw [hfold.get_iff]
  simp only [mem_bookings]

/-- The unit holds the encoded buffers that are not replaced; the deadletter
batch carries the deadletter offsets. -/
theorem attached_buf : Attached env e ok p ↔
    (∃ x ∈ encodedBuf env steps, ¬ Replaced env steps x.1 ∧ x.2.offsets.get ok = some p) ∨
      e.deadletterOffsets.get ok = some p := by
  rw [Attached]
  by_cases hdl : HasDeadletters env steps
  · cases hdk : deadletterBatchKey env with
    | none =>
      rw [commit_hints h ⟨hdl, hdk⟩]
      simp [Replaced, hdk]
    | some dk =>
      have hreplaced : ∀ k, Replaced env steps k ↔ dk = k := by
        intro k
        rw [Replaced, hdk, Option.some.injEq]
        exact and_iff_right hdl
      rw [commit_batch h hdl hdk]
      simp only [List.exists_mem_cons_iff, List.mem_filter, decide_eq_true_eq, hreplaced, and_assoc,
        ne_comm (b := dk), ne_eq]
      rw [or_assoc, or_comm, or_assoc, or_self]
  · rw [commit_none h hdl]
    simp [Replaced, hdl]

/-- **The positions of a call**, read off its steps. -/
theorem attached_iff : Attached env e ok p ↔
    (∃ k, Sets env steps k ok p) ∨
    (∃ k, ¬ Replaced env steps k ∧ ¬ Mixed env steps k ∧
      IsGreatest {p | Tracks env steps k ok p} p) ∨
    IsGreatest {p | Booked env steps ok p} p := by
  rw [attached_buf h, get_deadletterOffsets h, ← or_assoc]
  refine or_congr_left ⟨?_, ?_⟩
  · intro hx
    obtain ⟨x, hmem, hkept, hget⟩ := hx
    obtain ⟨⟨k, entry⟩, hentry, rfl⟩ := List.mem_map.1 hmem
    rcases (get_encodedOffsets ((Map.mem_toList _ _ _).1 hentry)).1 hget with hset | htracked
    · exact .inl ⟨k, hkept, hset⟩
    · exact .inr ⟨k, hkept, htracked⟩
  · intro hx
    have hcase : ∃ k, ¬ Replaced env steps k ∧ (∃ q, Tracks env steps k ok q) ∧
        ((Mixed env steps k ∧ (∃ q, Tracks env steps k ok q) ∧ Top env steps k p) ∨
          (¬ Mixed env steps k ∧ IsGreatest {p | Tracks env steps k ok p} p)) := by
      rcases hx with ⟨k, hkept, hset⟩ | ⟨k, hkept, hmixed, hgreatest⟩
      · exact ⟨k, hkept, hset.2.1, .inl hset⟩
      · exact ⟨k, hkept, ⟨p, hgreatest.1⟩, .inr ⟨hmixed, hgreatest⟩⟩
    obtain ⟨k, hkept, htracks, hget⟩ := hcase
    obtain ⟨entry, hentry⟩ := (tracked_iff env steps k).2 (List.ne_nil_of_mem (mem_tracks.2 htracks))
    exact ⟨_, List.mem_map.2 ⟨(k, entry), (Map.mem_toList _ _ _).2 hentry, rfl⟩, hkept,
      (get_encodedOffsets hentry).2 hget⟩

end Encoded

/-! ## A partition with a failed record -/

theorem legacy_perm : ((serializedAt env steps k).flatten ++ rejectedAt env steps k).Perm
    (steps.flatMap (·.legacy env k)) :=
  bisectSerialize_perm _ _

section OneKey
variable {datas : List IngestBatch} (hplain : Plain env steps datas) (hne : rejectedAt env steps k ≠ [])
include hplain hne

theorem Plain.one_key : ∃ ok, ∀ s ∈ steps, s.tracks env k ≠ [] →
    s.tracks env k = [ok] ∧ s.legacy env k ≠ [] := by
  obtain ⟨l, hl⟩ := List.exists_mem_of_ne_nil _ hne
  refine hplain.oneKey k ⟨l, legacy_perm.subset (List.mem_append_right _ hl), ?_⟩
  exact (bisect_sound (env.serialize k) _).2.1 l hl

theorem Plain.key_eq {ok' : OffsetKey} {p' : UInt64} (h : Tracks env steps k ok p)
    (h' : Tracks env steps k ok' p') : ok = ok' := by
  obtain ⟨one, hone⟩ := hplain.one_key hne
  have heq : ∀ ok p, Tracks env steps k ok p → ok = one := by
    intro ok p h
    obtain ⟨s, hs, hmem⟩ := List.mem_flatMap.1 h
    have htracks : ok ∈ s.tracks env k := keys_trackedAt env k s ▸ List.mem_map_of_mem hmem
    rw [(hone s hs (List.ne_nil_of_mem htracks)).1] at htracks
    exact List.mem_singleton.1 htracks
  rw [heq ok p h, heq ok' p' h']

theorem Plain.tracks_legacy (h : Tracks env steps k ok p) {l : LegacyRecord}
    (hl : l ∈ steps.flatMap (·.legacy env k)) : Tracks env steps k ok l.pos := by
  obtain ⟨ok', h'⟩ := tracks_of_legacy hl
  rw [hplain.key_eq hne h h']
  exact h'

theorem Plain.legacy_of_tracks (h : Tracks env steps k ok p) :
    ∃ l ∈ steps.flatMap (·.legacy env k), l.pos = p := by
  obtain ⟨one, hone⟩ := hplain.one_key hne
  obtain ⟨s, hs, hmem⟩ := List.mem_flatMap.1 h
  have htracks : ok ∈ s.tracks env k := keys_trackedAt env k s ▸ List.mem_map_of_mem hmem
  obtain ⟨l, hl⟩ := List.exists_mem_of_ne_nil _ (hone s hs (List.ne_nil_of_mem htracks)).2
  obtain ⟨ok', hok'⟩ := tracked_of_legacy hl
  have heq : (ok', l.pos) = (ok, p) :=
    Option.some.inj ((position_of_tracked hok').symm.trans (position_of_tracked hmem))
  exact ⟨l, List.mem_flatMap.2 ⟨s, hs, hl⟩, (Prod.mk.inj heq).2⟩

end OneKey

theorem exists_greatest_pos {l : LegacyRecord} {ls : List LegacyRecord} (h : l ∈ ls) :
    ∃ g, IsGreatest {p | ∃ r ∈ ls, r.pos = p} g ∧ l.pos ≤ g := by
  have hsome : (ls.map (·.pos)).max?.isSome := by
    rw [List.isSome_max?_iff]
    simpa using List.ne_nil_of_mem h
  obtain ⟨g, hg⟩ := Option.isSome_iff_exists.1 hsome
  have hgreatest := greatest_of_max?.1 hg
  exact ⟨g, hgreatest, hgreatest.2 ⟨l, h, rfl⟩⟩

/-! ## Own positions -/

section Main
variable {datas : List IngestBatch} {e : Encoded}
  (hsteps : callSteps env 0 datas = some steps) (h : encodeAll env (gather env steps) = some e)
  (hplain : Plain env steps datas)
include hsteps hplain

theorem Plain.own_of_tracks (ht : Tracks env steps k ok p) : Own env datas ok p := by
  obtain ⟨s, hs, hmem⟩ := List.mem_flatMap.1 ht
  exact (hplain.own_iff hsteps).2 ⟨s, hs, position_of_tracked hmem⟩

theorem Plain.own_of_booked (hb : Booked env steps ok p) : Own env datas ok p := by
  rcases hb with hdead | ⟨k, ⟨⟨r, hr, rfl⟩, -⟩, hok, -⟩
  · obtain ⟨s, hs, hmem⟩ := List.mem_flatMap.1 hdead
    exact (hplain.own_iff hsteps).2 ⟨s, hs, position_of_deadlettered hmem⟩
  · obtain ⟨q, hq⟩ := mem_tracks.1 hok
    exact hplain.own_of_tracks hsteps (hplain.tracks_legacy (List.ne_nil_of_mem hr) hq
      (legacy_perm.subset (List.mem_append_right _ hr)))

include h

theorem Plain.attached_own (ha : Attached env e ok p) : Own env datas ok p := by
  rcases (attached_iff h).1 ha with ⟨k, -, hmixed, ⟨q, hq⟩, ⟨r, hr, rfl⟩, -⟩ | ⟨k, -, -, hg⟩ | hbooked
  · exact hplain.own_of_tracks hsteps (hplain.tracks_legacy hmixed.1 hq
      (legacy_perm.subset (List.mem_append_left _ hr)))
  · exact hplain.own_of_tracks hsteps hg.1
  · exact hplain.own_of_booked hsteps hbooked.1

/-- The greatest own position is attached: what is booked, set or carried beside it
is own too, so not greater. -/
theorem Plain.attached_greatest (hp : IsGreatest {p | Own env datas ok p} p) :
    Attached env e ok p := by
  have hbook : ∀ q, Booked env steps ok q → p ≤ q → Attached env e ok p := by
    intro q hq hle
    obtain ⟨g, hg, hge⟩ := exists_greatest_booked hq
    rw [UInt64.le_antisymm (UInt64.le_trans hle hge) (hp.2 (hplain.own_of_booked hsteps hg.1))]
    exact (attached_iff h).2 (.inr (.inr hg))
  obtain ⟨s, hs, hpos⟩ := (hplain.own_iff hsteps).1 hp.1
  rcases tracked_or_deadlettered (hplain.kept s hs) hpos with ⟨k, hk⟩ | hdead
  swap
  · exact hbook p (.inl (List.mem_flatMap.2 ⟨s, hs, hdead⟩)) (UInt64.le_refl p)
  have htracks : Tracks env steps k ok p := List.mem_flatMap.2 ⟨s, hs, hk⟩
  have hmem := mem_tracks.2 ⟨p, htracks⟩
  have hkept : ¬ Replaced env steps k := by
    intro hreplaced
    rw [hplain.apart k hreplaced.2] at hmem
    cases hmem
  by_cases hmixed : Mixed env steps k
  swap
  · obtain ⟨g, hg, hle⟩ := exists_isGreatest htracks
    rw [UInt64.le_antisymm hle (hp.2 (hplain.own_of_tracks hsteps hg.1))]
    exact (attached_iff h).2 (.inr (.inl ⟨k, hkept, hmixed, hg⟩))
  obtain ⟨l, hl, rfl⟩ := hplain.legacy_of_tracks hmixed.1 htracks
  rcases List.mem_append.1 (legacy_perm.symm.subset hl) with hser | hrej
  · obtain ⟨g, hg, hle⟩ := exists_greatest_pos hser
    have ha : Attached env e ok g := (attached_iff h).2 (.inl ⟨k, hkept, hmixed, ⟨_, htracks⟩, hg⟩)
    rwa [UInt64.le_antisymm hle (hp.2 (hplain.attached_own hsteps h ha))]
  · obtain ⟨g, hg, hle⟩ := exists_greatest_pos hrej
    refine hbook g (.inr ⟨k, hg, hmem, fun ok' hok' => ?_⟩) hle
    -- The failed records are booked on the partition's only key.
    obtain ⟨q, hq⟩ := mem_tracks.1 hok'
    rw [hplain.key_eq hmixed.1 htracks hq]

end Main

/-- A table without an exact plan, whose serialiser takes the records of the
first batch only. -/
def Env.firstOnly : Env :=
  { Env.sample with
    answers := fun r => ⟨['n'], [], none, true, false, ['1'], none,
      .ok (.obj [(['a'], .num r.batch)]), ['1']⟩
    serialize := fun _ values => values.all fun
      | .obj [(_, .num 0)] => true
      | _ => false }

def twoFiles : List IngestBatch :=
  [⟨⟨['d'], ['f']⟩, .rows [.obj [(['a'], .num 0)]], some 10, none⟩,
    ⟨⟨['d'], ['g']⟩, .rows [.obj [(['a'], .num 0)]], some 1, none⟩]

def oneFile : List IngestBatch :=
  [⟨⟨['d'], ['f']⟩, .rows [.obj [(['a'], .num 0)]], some 10, none⟩,
    ⟨⟨['d'], ['f']⟩, .rows [.obj [(['a'], .num 0)]], some 11, none⟩]

end Skippr.L4.Ingest
