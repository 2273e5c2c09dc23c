import Skippr.Core.Parallel
import Skippr.L4Ingest.Positions

/-!
# The CDC sidecar of a partition entry

The source of a CDC batch gives one element of metadata for each of its logical
records. `process_batch` counts the rows it takes from the batch, and buffers the
element at that count beside the record, by partition. When a partition is
encoded, the buffered elements become the sidecar of its entry, and the transform
ops pick from it the places of the rows they keep (src/ingest_work.rs:3549-4141,
src/stream_transform/mod.rs:25-48).

An element is named by the record it was given for.
-/
namespace Skippr.L4.Ingest

open Skippr.L1 Skippr.L2

/-! ## Buffering the metadata -/

/-- The transform ops of a call. Some are filters; a row they keep keeps its
place among the kept. -/
structure Ops where
  filters : Bool
  keep : Rec → Bool
  fail : PartitionKey → Bool

def Ops.keeps (ops : Ops) (r : Rec) : Bool := !ops.filters || ops.keep r

def Env.withOps (env : Env) (ops : Ops) : Env :=
  { env with opsKeep := ops.keeps, opsFail := ops.fail }

def IngestBatch.items (b : IngestBatch) : List Item :=
  match b.data with
  | .lines lines => flattenItems 0 lines
  | .rows records => flattenItems 0 (records.map .ok)
  | .arrow _ => []
  | .error _ _ => []

/-- The counter of rows when the loop is at a line.
mirrors ingest_work.rs:3564, 3625 -/
def cdcRowIdx (line : Nat) : Nat → List Item → Nat
  | idx, [] => idx
  | idx, .row n _ :: rest => if n = line then idx + 1 else cdcRowIdx line (idx + 1) rest
  | idx, .notObject _ :: rest => cdcRowIdx line idx rest
  | idx, .parseError _ _ :: rest => cdcRowIdx line idx rest

/-- mirrors ingest_work.rs:3795-3799, 3908-3912 -/
def rowCdcMeta (b : IngestBatch) (r : Rec) : Option Rec :=
  match b.cdcRows with
  | some count =>
    let idx := cdcRowIdx r.line 0 b.items
    if idx - 1 < count then some ⟨r.batch, idx⟩ else none
  | none => none

abbrev CdcRowBuf := Map PartitionKey (List Rec)

/-- mirrors ingest_work.rs:603-613 -/
def pushCdcRowMeta (buf : CdcRowBuf) (key : PartitionKey) : Option Rec → CdcRowBuf
  | some m => buf.insert key ((buf.get key).getD [] ++ [m])
  | none => buf

/-- mirrors ingest_work.rs:3740-3932 -/
def bufferMeta (env : Env) (s : Gathered) (buf : CdcRowBuf) : Step → CdcRowBuf
  | .deadletter _ _ => buf
  | .arrow _ _ _ _ => buf
  | .row r value b _ =>
    let a := env.answers r
    if (tryExact env s.exact r value b).2 then pushCdcRowMeta buf (exactKey env a) (rowCdcMeta b r)
    else match normalize a with
      | .error _ => buf
      | .ok v => if v.isNull then buf else pushCdcRowMeta buf (legacyKey env a) (rowCdcMeta b r)

/-- The loop of `gather` with the buffer of metadata. -/
def gatherCdc (env : Env) (steps : List Step) : Gathered × CdcRowBuf :=
  steps.foldl (fun s step => (applyStep env s.1 step, bufferMeta env s.1 s.2 step)) (.empty, ∅)

/-! ## Encoding an entry -/

def survivors (records failed : List LegacyRecord) (rows : List Rec) : List Rec :=
  ((records.zip rows).filter fun x => x.1.record ∉ failed.map (·.record)).map (·.2)

def nonEmpty (rows : List Rec) : Option (List Rec) :=
  if rows = [] then none else some rows

/-- What is attached to the entry while its records are serialised, and what stays
in the buffer. mirrors ingest_work.rs:3985-4035 -/
def attachCdc (env : Env) (s : Gathered) (buf : CdcRowBuf) (key : PartitionKey) (entry : BufferBatch) :
    Option (List Rec) × Option (List Rec) :=
  let records := (s.raw.get key).getD []
  let failed := failedRecords env s key
  if records = [] then (none, buf.get key)
  else if failed = [] then ((buf.get key).bind nonEmpty, none)
  else if partitionBatches env s key entry = [] then (none, none)
  else
    ((buf.get key).bind fun rows =>
      if rows.length = records.length then nonEmpty (survivors records failed rows) else none, none)

/-- mirrors stream_transform/mod.rs:25-48 -/
def applyConfiguredOps (ops : Ops) (rows : List Rec) (cdcRows : Option (List Rec)) :
    Option (Option (List Rec)) :=
  match cdcRows with
  | none => some none
  | some side =>
    if rows = [] ∨ ops.filters = false then some (some side)
    else (pick side (keptIndices ops.keeps rows)).map some

/-- The sidecar of an entry; `none` when the ops cannot realign it. Batches that
do not concatenate leave it as it is.
mirrors ingest_work.rs:596-601, 4079-4141 -/
def entrySidecar (env : Env) (ops : Ops) (s : Gathered) (buf : CdcRowBuf) (key : PartitionKey)
    (entry : BufferBatch) : Option (Option (List Rec)) :=
  let attached := attachCdc env s buf key entry
  let batches := partitionBatches env s key entry
  if batches ≠ [] ∧ (batches.length = 1 ∨ env.concat key) then
    applyConfiguredOps ops batches.flatten (attached.1.or attached.2)
  else some ((attached.2.bind nonEmpty).or attached.1)

structure CdcEntry where
  key : PartitionKey
  rows : List Rec
  cdcRows : Option (List Rec)
deriving DecidableEq

def encodeCdc (env : Env) (ops : Ops) (steps : List Step) : Option (List CdcEntry) :=
  let g := gatherCdc env steps
  match encodeAll (env.withOps ops) g.1 with
  | none => none
  | some _ =>
    g.1.buf.toList.mapM fun e =>
      (entrySidecar env ops g.1 g.2 e.1 e.2).map fun side =>
        ⟨e.1, (encodeEntry (env.withOps ops) g.1 e.1 e.2).payload.flatten, side⟩

/-! ## Sidecars aligned with their rows -/

section Statement
variable (env : Env) (datas : List IngestBatch) (steps : List Step)

def IsCdc (r : Rec) : Prop := ∃ b, datas[r.batch]? = some b ∧ b.isCdc = true

/-- The sidecar names the rows in their order, or there is none and no row has
metadata. -/
def CdcEntry.Aligned (e : CdcEntry) : Prop :=
  match e.cdcRows with
  | none => ∀ r ∈ e.rows, ¬ IsCdc datas r
  | some side => side = e.rows

/-- Nothing before the record in its payload was not a row. -/
def InStep (r : Rec) : Prop :=
  ∀ b, datas[r.batch]? = some b → ∀ item ∈ b.items, item.line < r.line → ∃ line v, item = .row line v

def serializedRecs (k : PartitionKey) : List Rec := (serializedAt env steps k).flatten.map (·.record)

def legacyRecs (k : PartitionKey) : List Rec := (steps.flatMap (·.legacy env k)).map (·.record)

def plainRows (k : PartitionKey) : List Rec :=
  (steps.flatMap (·.batches k)).flatten ++ (exactBatch env steps k).flatten

inductive SidecarFits (k : PartitionKey) : Prop
  /-- No CDC record of the partition is serialised. -/
  | noCdc (hnone : ∀ r ∈ serializedRecs env steps k, ¬ IsCdc datas r)
  /-- Only CDC records reach the partition, its batches merge, and the serialised
  ones come after rows only. -/
  | allCdc (hmerges : Merges env steps k) (hplain : plainRows env steps k = [])
    (hall : ∀ r ∈ legacyRecs env steps k, IsCdc datas r)
    (hstep : ∀ r ∈ serializedRecs env steps k, InStep datas r)
  /-- The rows are lost in the merge, and the sidecar went before: a record failed
  in a partition with others than CDC records. -/
  | lost (hmerges : ¬ Merges env steps k) (hfailed : rejectedAt env steps k ≠ [])
    (hother : ∃ r ∈ legacyRecs env steps k, ¬ IsCdc datas r)

end Statement

variable {env : Env} {datas : List IngestBatch} {steps : List Step} {k : PartitionKey} {r : Rec}
  {b : IngestBatch}

/-! ## The buffer -/

def Step.metas (env : Env) (k : PartitionKey) : Step → List Rec
  | .deadletter _ _ => []
  | .arrow _ _ _ _ => []
  | .row r value b _ => match route env r value b with
    | .exact key => if key = k then (rowCdcMeta b r).toList else []
    | .legacy key _ => if key = k then (rowCdcMeta b r).toList else []
    | .deadletter _ _ => []
    | .dropped => []

theorem gatherCdc_append (env : Env) (steps : List Step) (s : Step) :
    gatherCdc env (steps ++ [s]) =
      (applyStep env (gatherCdc env steps).1 s,
        bufferMeta env (gatherCdc env steps).1 (gatherCdc env steps).2 s) := by
  rw [gatherCdc, List.foldl_append]
  rfl

theorem gatherCdc_fst (env : Env) (steps : List Step) : (gatherCdc env steps).1 = gather env steps := by
  induction steps using List.reverseRecOn with
  | nil => rfl
  | append_singleton steps s ih => rw [gatherCdc_append, gather_append, ih]

theorem get_pushCdcRowMeta {buf : CdcRowBuf} {l : List Rec} (h : buf.get k = nonEmpty l) (key : PartitionKey)
    (m : Option Rec) :
    (pushCdcRowMeta buf key m).get k = nonEmpty (l ++ if key = k then m.toList else []) := by
  cases m with
  | none => simpa [pushCdcRowMeta] using h
  | some m =>
    have hl : (buf.get k).getD [] = l := by
      rw [h, nonEmpty]
      split
      · rename_i hnil
        exact hnil.symm
      · rfl
    rw [pushCdcRowMeta, Map.get_insert]
    by_cases hk : key = k
    · subst hk
      rw [if_pos rfl, if_pos rfl, hl]
      simp [nonEmpty]
    · rw [if_neg (Ne.symm hk), if_neg hk, List.append_nil]
      exact h

theorem cdc_gather (env : Env) (k : PartitionKey) (steps : List Step) :
    (gatherCdc env steps).2.get k = nonEmpty (steps.flatMap (·.metas env k)) := by
  induction steps using List.reverseRecOn with
  | nil => rfl
  | append_singleton steps s ih =>
    rw [gatherCdc_append, gatherCdc_fst, flatMap_snoc]
    generalize steps.flatMap (·.metas env k) = l at ih
    cases s with
    | deadletter d offset | arrow key ok pos rows => simpa [bufferMeta, Step.metas] using ih
    | row r value b pos =>
      have happended : Appended env steps r value b pos (tryExact env (gather env steps).exact r value b) :=
        tryExact_eq (exact_gather env steps) pos r value b
      simp only [bufferMeta, Step.metas, route, happended.1, decide_eq_true_eq]
      split
      · exact get_pushCdcRowMeta ih _ _
      · cases hnorm : normalize (env.answers r) with
        | error e => simpa using ih
        | ok v =>
          dsimp only
          by_cases hnull : v.isNull = true
          · simpa [hnull] using ih
          · simp only [hnull]
            exact get_pushCdcRowMeta ih _ _

/-! ## The element a record gets -/

def metaOf (datas : List IngestBatch) (r : Rec) : Option Rec :=
  (datas[r.batch]?).bind (rowCdcMeta · r)

/-- The lines of the items are numbered through, so the counter is behind the line
by the items that were not rows. -/
theorem cdcRowIdx_spec {line : Nat} {v : Json} {items : List Item} {n m : Nat} (idx : Nat)
    (hlines : items.map Item.line = List.range' (n + 1) m) (hmem : Item.row line v ∈ items) :
    n < line ∧ line ≤ n + m ∧ idx < cdcRowIdx line idx items ∧
      cdcRowIdx line idx items ≤ idx + (line - n) ∧
      (cdcRowIdx line idx items = idx + (line - n) ↔
        ∀ item ∈ items, item.line < line → ∃ line v, item = .row line v) := by
  induction items generalizing n m idx with
  | nil => cases hmem
  | cons item items ih =>
    cases m with
    | zero => cases hlines
    | succ m =>
      rw [List.map_cons, List.range'_succ] at hlines
      obtain ⟨hline, hrest⟩ := List.cons.inj hlines
      -- An item that is not a row puts the counter behind for good.
      have hskip : (∀ line v, item ≠ .row line v) →
          cdcRowIdx line idx (item :: items) = cdcRowIdx line idx items →
          n < line ∧ line ≤ n + (m + 1) ∧ idx < cdcRowIdx line idx (item :: items) ∧
            cdcRowIdx line idx (item :: items) ≤ idx + (line - n) ∧
            (cdcRowIdx line idx (item :: items) = idx + (line - n) ↔
              ∀ item' ∈ item :: items, item'.line < line → ∃ line v, item' = .row line v) := by
        intro hnot hidx
        rcases List.mem_cons.1 hmem with hhead | hmem
        · exact absurd hhead.symm (hnot line v)
        rw [hidx]
        obtain ⟨hlt, hle, hpos, hbound, -⟩ := ih idx hrest hmem
        refine ⟨by omega, by omega, hpos, by omega, ?_⟩
        constructor
        · intro h
          omega
        · intro h
          obtain ⟨line', v', hrow⟩ := h item List.mem_cons_self (by omega)
          exact absurd hrow (hnot line' v')
      cases item with
      | notObject line' | parseError line' e => exact hskip (fun _ _ h => by cases h) rfl
      | row line' v' =>
        obtain rfl : line' = n + 1 := hline
        rw [cdcRowIdx]
        by_cases hat : n + 1 = line
        · subst hat
          rw [if_pos rfl]
          refine ⟨by omega, by omega, by omega, by omega, ?_⟩
          constructor
          · intro _ item hitem hbefore
            have hrange : item.line ∈ List.range' (n + 1) (m + 1) := by
              rw [List.range'_succ, ← hrest]
              exact List.mem_map_of_mem (f := Item.line) hitem
            rw [List.mem_range'_1] at hrange
            omega
          · intro _
            omega
        · rw [if_neg hat]
          rcases List.mem_cons.1 hmem with hhead | hmem
          · cases hhead
            exact absurd rfl hat
          obtain ⟨hlt, hle, hpos, hbound, hiff⟩ := ih (idx + 1) hrest hmem
          have hsum : idx + (line - n) = idx + 1 + (line - (n + 1)) := by omega
          refine ⟨by omega, by omega, by omega, by omega, ?_⟩
          rw [hsum, hiff, List.forall_mem_cons]
          exact (and_iff_right fun _ => ⟨n + 1, v', rfl⟩).symm

theorem length_flattenItems (n : Nat) (records : List Json) :
    (flattenItems n (records.map .ok)).length = countLogicalIngestRecords records := by
  have hqueue : ∀ (n : Nat) (values : List Json), (queueRows n values).length = values.length := by
    intro n values
    have h := congrArg List.length (queueRows_lines n values)
    simpa using h
  induction records generalizing n with
  | nil => rfl
  | cons v records ih =>
    cases v <;> simp [flattenItems, countLogicalIngestRecords, ih, hqueue, Nat.add_comm]

/-- A CDC batch is decoded at once: its lines are not streamed.
mirrors ingest_work.rs:317-333 -/
def NotStreamed (datas : List IngestBatch) : Prop :=
  ∀ b ∈ datas, b.isCdc = true → ∀ lines, b.data ≠ .lines lines

section Records
variable {value : Json} {pos : UInt64}

variable {i : Nat} {b' : IngestBatch}

theorem row_of_items {snapshot : Option OffsetValue} {values : List (Except String Json)}
    (h : Step.row r value b pos ∈ itemSteps i b' snapshot values) :
    b = b' ∧ r.batch = i ∧ Item.row r.line value ∈ flattenItems 0 values := by
  obtain ⟨item, hitem, hstep⟩ := List.mem_filterMap.1 h
  cases item with
  | notObject line | parseError line error => cases hstep
  | row line value =>
    rw [itemStep] at hstep
    split at hstep
    · cases hstep
    · split at hstep
      · cases hstep
        exact ⟨rfl, rfl, hitem⟩
      · cases hstep

theorem row_of_arrow {p : UInt64} {j n : Nat} {counts : List Nat} :
    Step.row r value b pos ∉ arrowSteps env i b' p j n counts := by
  intro h
  induction counts generalizing j n with
  | nil => cases h
  | cons count counts ih =>
    rw [arrowSteps] at h
    split at h
    · cases List.mem_singleton.1 h
    · rcases List.mem_cons.1 h with h | h
      · cases h
      · exact ih h

theorem row_of_batch {own : List Step} (hown : batchSteps env i b' = some own)
    (h : Step.row r value b pos ∈ own) :
    b = b' ∧ r.batch = i ∧ (b.isCdc = true → (∀ lines, b.data ≠ .lines lines) →
      Item.row r.line value ∈ b.items ∧ b.cdcRows = some b.items.length) := by
  rw [batchSteps] at hown
  split at hown
  · cases hown
  · rename_i snapshot _
    split at hown
    · rename_i lines hdata
      cases hown
      obtain ⟨rfl, hi, -⟩ := row_of_items h
      exact ⟨rfl, hi, fun _ hlines => absurd hdata (hlines lines)⟩
    · rename_i records hdata
      obtain ⟨hcount, hown⟩ := Option.ite_none_left_eq_some.1 hown
      cases hown
      obtain ⟨rfl, hi, hitem⟩ := row_of_items h
      refine ⟨rfl, hi, fun hcdc _ => ?_⟩
      have hitems : b.items = flattenItems 0 (records.map .ok) := by rw [IngestBatch.items, hdata]
      obtain ⟨count, hrows⟩ := Option.isSome_iff_exists.1 hcdc
      rw [hitems, length_flattenItems, hrows]
      rw [hrows] at hcount
      refine ⟨hitem, ?_⟩
      simpa using hcount
    · rename_i batches hdata
      obtain ⟨hcdc, hown⟩ := Option.ite_none_left_eq_some.1 hown
      split at hown
      · split at hown
        · cases hown
          cases List.mem_singleton.1 h
        · cases hown
          obtain ⟨rfl, hi, -⟩ := row_of_items h
          exact ⟨rfl, hi, fun h => absurd h hcdc⟩
      · split at hown
        · cases hown
          exact absurd h row_of_arrow
        · cases hown
          cases h
    · cases hown
      cases List.mem_singleton.1 h

theorem arrow_of_items {key : PartitionKey} {ok : OffsetKey} {rows : List Rec}
    {snapshot : Option OffsetValue} {values : List (Except String Json)} :
    Step.arrow key ok pos rows ∉ itemSteps i b snapshot values := by
  intro h
  obtain ⟨item, -, hstep⟩ := List.mem_filterMap.1 h
  cases item with
  | notObject line | parseError line error => cases hstep
  | row line value =>
    rw [itemStep] at hstep
    split at hstep
    · cases hstep
    · split at hstep <;> cases hstep

theorem arrow_of_cdc {key : PartitionKey} {ok : OffsetKey} {rows : List Rec} {own : List Step}
    (hown : batchSteps env i b = some own) (hcdc : b.isCdc = true) :
    Step.arrow key ok pos rows ∉ own := by
  intro h
  rw [batchSteps] at hown
  split at hown
  · cases hown
  · split at hown
    · cases hown
      exact arrow_of_items h
    · split at hown
      · cases hown
      · cases hown
        exact arrow_of_items h
    · rw [if_pos hcdc] at hown
      cases hown
    · cases hown
      cases List.mem_singleton.1 h

end Records

/-! ## The records of a partition -/

section Call
variable (hsteps : callSteps env 0 datas = some steps)
include hsteps

theorem batch_of_row {value : Json} {pos : UInt64} (hs : Step.row r value b pos ∈ steps) :
    datas[r.batch]? = some b := by
  obtain ⟨x, hx, own, hown, hs⟩ := mem_callSteps hsteps hs
  obtain ⟨rfl, hi, -⟩ := row_of_batch hown hs
  rw [hi]
  exact List.mk_mem_zipIdx_iff_getElem?.1 hx

theorem metas_eq (k : PartitionKey) :
    steps.flatMap (·.metas env k) = (legacyRecs env steps k).filterMap (metaOf datas) := by
  have hstep : ∀ s ∈ steps, s.metas env k = ((s.legacy env k).map (·.record)).filterMap (metaOf datas) := by
    intro s hs
    cases s with
    | deadletter d offset => rfl
    | arrow key ok pos rows => rfl
    | row r value b pos =>
      have hmeta : metaOf datas r = rowCdcMeta b r := by
        rw [metaOf, batch_of_row hsteps hs]
        rfl
      rw [Step.metas, Step.legacy]
      cases hroute : route env r value b with
      | deadletter code error => rfl
      | dropped => rfl
      | exact key =>
        -- The exact builders take no CDC record.
        have hplain : rowCdcMeta b r = none := by
          rw [route] at hroute
          split at hroute
          · rename_i hoffered
            have hcdc : b.cdcRows = none := by
              have := hoffered.1
              simp only [offered, IngestBatch.isCdc, Bool.and_eq_true] at this
              simpa using this.1.1.1
            rw [rowCdcMeta, hcdc]
          · split at hroute
            · cases hroute
            · split at hroute <;> cases hroute
        simp [hplain]
      | legacy key v =>
        dsimp only
        split
        · rw [← hmeta]
          cases hm : metaOf datas r <;> simp [hm]
        · rfl
  rw [legacyRecs, List.map_flatMap, List.filterMap_flatMap]
  exact List.flatMap_congr hstep

omit hsteps in
theorem row_of_legacy (h : r ∈ legacyRecs env steps k) :
    ∃ value b pos, Step.row r value b pos ∈ steps := by
  obtain ⟨x, hx, rfl⟩ := List.mem_map.1 h
  obtain ⟨s, hs, hx⟩ := List.mem_flatMap.1 hx
  cases s with
  | deadletter d offset | arrow key ok pos rows => cases hx
  | row r value b pos =>
    rw [Step.legacy] at hx
    split at hx
    · split at hx
      · cases List.mem_singleton.1 hx
        exact ⟨value, b, pos, hs⟩
      · cases hx
    · cases hx

omit hsteps in
theorem isCdc_iff {b : IngestBatch} (hb : datas[r.batch]? = some b) : IsCdc datas r ↔ b.isCdc = true := by
  constructor
  · intro h
    obtain ⟨b', hb', hcdc⟩ := h
    cases hb.symm.trans hb'
    exact hcdc
  · intro h
    exact ⟨b, hb, h⟩

theorem metaOf_cdc (hstream : NotStreamed datas) (h : r ∈ legacyRecs env steps k) (hcdc : IsCdc datas r) :
    ∃ m, metaOf datas r = some m ∧ (m = r ↔ InStep datas r) := by
  obtain ⟨value, b, pos, hs⟩ := row_of_legacy h
  have hb := batch_of_row hsteps hs
  obtain ⟨x, hx, own, hown, hs⟩ := mem_callSteps hsteps hs
  obtain ⟨-, -, hrow⟩ := row_of_batch hown hs
  have hisCdc := (isCdc_iff hb).1 hcdc
  obtain ⟨hitem, hcount⟩ := hrow hisCdc (hstream b (List.mem_of_getElem? hb) hisCdc)
  obtain ⟨m, hlines⟩ : ∃ m, b.items.map Item.line = List.range' (0 + 1) m := by
    rw [IngestBatch.items]
    split
    · exact flattenItems_lines 0 _
    · exact flattenItems_lines 0 _
    · exact ⟨0, rfl⟩
    · exact ⟨0, rfl⟩
  have hlength : b.items.length = m := by
    have h := congrArg List.length hlines
    simpa using h
  obtain ⟨hpos, hle, hidx, hbound, hiff⟩ := cdcRowIdx_spec 0 hlines hitem
  refine ⟨⟨r.batch, cdcRowIdx r.line 0 b.items⟩, ?_, ?_⟩
  · rw [metaOf, hb, Option.bind_some, rowCdcMeta, hcount]
    exact if_pos (by omega)
  · have hown : (⟨r.batch, cdcRowIdx r.line 0 b.items⟩ : Rec) = r ↔
        cdcRowIdx r.line 0 b.items = 0 + (r.line - 0) := by
      cases r
      simp
    rw [hown, hiff, InStep]
    constructor
    · intro h b' hb'
      cases hb.symm.trans hb'
      exact h
    · intro h
      exact h b hb

theorem metaOf_plain (h : r ∈ legacyRecs env steps k) (hcdc : ¬ IsCdc datas r) : metaOf datas r = none := by
  obtain ⟨value, b, pos, hs⟩ := row_of_legacy h
  have hb := batch_of_row hsteps hs
  rw [isCdc_iff hb] at hcdc
  rw [metaOf, hb, Option.bind_some, rowCdcMeta]
  cases hrows : b.cdcRows with
  | none => rfl
  | some count => exact absurd (by rw [IngestBatch.isCdc, hrows]; rfl) hcdc

theorem arrow_plain {key : PartitionKey} {ok : OffsetKey} {pos : UInt64} {rows : List Rec}
    (hs : Step.arrow key ok pos rows ∈ steps) (hr : r ∈ rows) : ¬ IsCdc datas r := by
  obtain ⟨x, hx, own, hown, hs⟩ := mem_callSteps hsteps hs
  have hbatch : r.batch = x.2 := (ownRecs_batch hown).batch r (List.mem_flatMap.2 ⟨_, hs, hr⟩)
  have hb : datas[r.batch]? = some x.1 := by
    rw [hbatch]
    exact List.mk_mem_zipIdx_iff_getElem?.1 hx
  rw [isCdc_iff hb]
  exact fun hcdc => arrow_of_cdc hown hcdc hs

theorem plainRows_plain (h : r ∈ plainRows env steps k) : ¬ IsCdc datas r := by
  rcases List.mem_append.1 h with h | h
  · obtain ⟨rows, hrows, hr⟩ := List.mem_flatten.1 h
    obtain ⟨s, hs, hrows⟩ := List.mem_flatMap.1 hrows
    cases s with
    | deadletter d offset | row r value b pos => cases hrows
    | arrow key ok pos rows' =>
      rw [Step.batches] at hrows
      split at hrows
      · cases List.mem_singleton.1 hrows
        exact arrow_plain hsteps hs hr
      · cases hrows
  · have hexact : r ∈ steps.flatMap (·.exactRows env k) := by
      simp only [exactBatch] at h
      split at h
      · cases h
      · simpa using h
    obtain ⟨s, hs, hr⟩ := List.mem_flatMap.1 hexact
    cases s with
    | deadletter d offset | arrow key ok pos rows => cases hr
    | row r' value b pos =>
      rw [exactRows_row] at hr
      split at hr
      · rename_i hoffered
        cases List.mem_singleton.1 hr
        rw [isCdc_iff (batch_of_row hsteps hs)]
        have := hoffered.1.1
        simp only [offered, Bool.and_eq_true] at this
        simpa using this.1.1.1
      · cases hr

theorem nodup_legacyRecs (k : PartitionKey) : (legacyRecs env steps k).Nodup := by
  refine (nodup_callSteps hsteps).1.sublist ?_
  rw [legacyRecs, List.map_flatMap]
  clear hsteps
  induction steps with
  | nil => exact List.nil_sublist _
  | cons s steps ih =>
    rw [List.flatMap_cons, List.flatMap_cons]
    refine List.Sublist.append ?_ ih
    cases s with
    | deadletter d offset | arrow key ok pos rows => exact List.nil_sublist _
    | row r value b pos =>
      rw [Step.legacy]
      split
      · split
        · exact List.Sublist.refl _
        · exact List.nil_sublist _
      · exact List.nil_sublist _

end Call

end Skippr.L4.Ingest
