import Skippr.Core.Batch
import Skippr.Core.MapSum
import Skippr.Core.PagedScan
import Skippr.L6Lake.CdcFinalState

/-!
# Stream state: keyed running aggregates (src/processor/mod.rs)

The stream processor keeps, for every configured aggregate, running measures
under the key of a row, the last row seen under each key, the key each entity
was last seen under, the event ids it has applied, and a cursor into the WAL.
`apply_events` folds one batch over these in memory and writes the result, with
the new cursor, in one commit of the store's `stream_state` family.

Measures are exact integers here (`f64` in the source), and what `str::parse`
gives for a text is a parameter of the model.
-/
namespace Skippr.L8.Stream

open Skippr.L6.Cdc (MutationKind hexEncode hexEncode_lt_iff)

/-! ## Rows, keys and identities -/

/-- `serde_json::Value`, as `array_value` builds it from a column. -/
inductive Value
  | null
  | bool (b : Bool)
  | number (n : Int)
  | string (s : Text)
deriving DecidableEq, Repr

/-- `BTreeMap<String, Value>`, in the order of its names. -/
abbrev Row := List (Text × Value)

/-- `row.get(name).unwrap_or(&Value::Null)`. -/
def column (row : Row) (name : Text) : Value := (row.lookup name).getD .null

def unitSeparator : Char := Char.ofNat 0x1f

/-- mirrors processor/mod.rs:598-606 -/
def jsonKeyPart : Value → Text
  | .string s => s
  | .number n => showInt n
  | .bool true => ['t', 'r', 'u', 'e']
  | .bool false => ['f', 'a', 'l', 's', 'e']
  | .null => []

/-- mirrors processor/mod.rs:590-596 -/
def encodeKey (fields : List Text) (row : Row) : Text :=
  [unitSeparator].intercalate (fields.map fun field => jsonKeyPart (column row field))

/-- mirrors processor/mod.rs:581-588; `parse` is what `str::parse` makes of a
text, and zero where it fails. -/
def jsonF64 (parse : Text → Int) : Value → Int
  | .number n => n
  | .string s => parse s
  | .bool true => 1
  | .bool false => 0
  | .null => 0

/-- mirrors helpers/configuration.rs:519-526 -/
structure AggregateMeasure where
  sum : Option Text
  count : Option Text
deriving DecidableEq, Repr

/-- mirrors configuration.rs:483-490 -/
structure TransformAggregate where
  id : Text
  keyFields : List Text
  measures : Map Text AggregateMeasure

inductive StreamError
  /-- `measure has neither sum nor count` -/
  | neither
  /-- `stream processor cannot read {data type} values` -/
  | unreadable (dataType : Text)
  /-- `float32`, `float64` -/
  | notFinite (dataType : Text)
deriving DecidableEq, Repr

/-- An Arrow column at a row: `int` for all integer types but `UInt64`; a float
that is not finite is `none`. -/
inductive Cell
  | null
  | utf8 (s : Text)
  | int (n : Int)
  | uint64 (n : UInt64)
  | float (dataType : Text) (n : Option Int)
  | bool (b : Bool)
  | other (dataType : Text)
deriving DecidableEq, Repr

/-- `UInt64` is cast `as i64`. mirrors processor/mod.rs:662-763 -/
def arrayValue : Cell → Except StreamError Value
  | .null => .ok .null
  | .utf8 s => .ok (.string s)
  | .int n => .ok (.number n)
  | .uint64 n => .ok (.number n.toInt64.toInt)
  | .float _ (some n) => .ok (.number n)
  | .float dataType none => .error (.notFinite dataType)
  | .bool b => .ok (.bool b)
  | .other dataType => .error (.unreadable dataType)

/-- mirrors processor/mod.rs:651-660 -/
def rowValues (cells : List (Text × Cell)) : Except StreamError Row :=
  (cells.foldlM (fun out c => (arrayValue c.2).map (out.insert c.1)) (∅ : Map Text Value)).map
    (rowsAfter · none)

namespace Cell

/-- What the cell holds; nothing where it cannot be read. -/
def value : Cell → Value
  | .null | .other _ | .float _ none => .null
  | .utf8 s => .string s
  | .int n | .float _ (some n) => .number n
  | .uint64 n => .number n.toNat
  | .bool b => .bool b

def readable : Cell → Bool
  | .uint64 n => n.toNat < 2 ^ 63
  | .float _ none | .other _ => false
  | _ => true

theorem arrayValue_eq {c : Cell} (h : c.readable = true) : arrayValue c = .ok c.value := by
  cases c with
  | uint64 n =>
    have hlt : 2 * n.toBitVec.toNat < 2 ^ 64 := by
      have := of_decide_eq_true h
      rw [← UInt64.toNat_toBitVec] at this
      omega
    have hcast : n.toInt64.toInt = n.toNat := BitVec.toInt_eq_toNat_of_lt hlt
    rw [arrayValue, value, hcast]
  | float dataType n =>
    cases n with
    | none => cases h
    | some n => rfl
  | other dataType => cases h
  | null | utf8 s | int n | bool b => rfl

end Cell

def exactRow (cells : List (Text × Cell)) : Row :=
  rowsAfter (cells.foldl (fun out c => out.insert c.1 c.2.value) (∅ : Map Text Value)) none

theorem rowValues_eq {cells : List (Text × Cell)} (h : ∀ c ∈ cells, c.2.readable = true) :
    rowValues cells = .ok (exactRow cells) := by
  have hfold : ∀ out : Map Text Value,
      cells.foldlM (fun out c => (arrayValue c.2).map (out.insert c.1)) out =
        .ok (cells.foldl (fun out c => out.insert c.1 c.2.value) out) := by
    induction cells with
    | nil => exact fun out => rfl
    | cons c cells ih =>
      intro out
      rw [List.foldlM_cons, Cell.arrayValue_eq (h c List.mem_cons_self)]
      exact ih (fun c' hc' => h c' (List.mem_cons_of_mem _ hc')) _
  rw [rowValues, hfold]
  rfl

def leftover (agg : TransformAggregate) (row : Row) : Row :=
  row.filter fun c => ¬ (c.1 ∈ agg.keyFields ∨
    ∃ m ∈ agg.measures.entries.map (·.2), m.sum = some c.1)

/-- mirrors processor/mod.rs:625-649 -/
def entityIdentity (agg : TransformAggregate) (row : Row) : Option Text :=
  match leftover agg row with
  | [] => none
  | cs => some ([unitSeparator].intercalate (cs.map fun c => c.1 ++ '=' :: jsonKeyPart c.2))

/-! ## The store -/

structure WalCursor where
  seq : Nat
  segmentId : Text
  sliceOrdinal : Nat
  rowIndex : Nat
deriving DecidableEq, Repr

def WalCursor.zero : WalCursor := ⟨0, [], 0, 0⟩

structure ProcessorMeta where
  cursor : WalCursor
  configHash : Text
deriving DecidableEq, Repr

/-- The `stream_state` family. Each of its key spaces (`meta/`, `agg/`, `row/`,
`ent/`, `dedup/`) is a map of its own, by what follows that word in the key. -/
structure Store where
  metas : Map Text ProcessorMeta
  measures : Map Text (Map Text Int)
  rows : Map Text Row
  entities : Map Text Text
  dedup : Map Text Unit

/-- `StreamState`, apart from the store it holds. -/
structure StreamState where
  pipeline : Text
  aggregates : List TransformAggregate
  configHash : Text
  parse : Text → Int

namespace StreamState
variable (st : StreamState)

/-- mirrors processor/mod.rs:165-167 -/
def metaKey (id : Text) : Text := st.pipeline ++ '/' :: id

/-- `{pipeline}/{id}/{rest}`, for measures, rows, entities and event ids.
mirrors processor/mod.rs:169-183 -/
def stateKey (id rest : Text) : Text := st.pipeline ++ '/' :: (id ++ '/' :: rest)

def dedupKey (id : Text) (eventId : List (Fin 256)) : Text := st.stateKey id (hexEncode eventId)

/-- mirrors processor/mod.rs:266-271 -/
def loadMeta (store : Store) (id : Text) : Option ProcessorMeta := Map.get store.metas (st.metaKey id)

/-- mirrors processor/mod.rs:420-426 -/
def loadMeasures (store : Store) (id key : Text) : Map Text Int :=
  (Map.get store.measures (st.stateKey id key)).getD ∅

/-- mirrors processor/mod.rs:273-282 -/
def measure (store : Store) (id key name : Text) : Int := (st.loadMeasures store id key).amount name

end StreamState

/-- `filter(|row| !row.is_empty())`: an empty row marks a deleted one. -/
def nonEmpty (row : Option Row) : Option Row := row.filter (· ≠ [])

/-- mirrors processor/mod.rs:467-485 -/
def StreamState.loadLastRow (st : StreamState) (store : Store) (id key : Text) : Option Row :=
  nonEmpty (Map.get store.rows (st.stateKey id key))

/-! ## One batch -/

structure WalRowMeta where
  mutation : MutationKind
  eventId : List (Fin 256)
deriving DecidableEq, Repr

/-- What `apply_events` gathers in memory before it commits. -/
structure Pending where
  measures : Map Text (Map Text Int)
  lastRows : Map Text Row
  entityIndex : Map Text Text
  dedup : List Text
  rowIndex : Nat

section Mutation
variable (parse : Text → Int) (agg : TransformAggregate)

/-- mirrors processor/mod.rs:571-579 -/
def measureValue (m : AggregateMeasure) (row : Row) : Except StreamError Int :=
  if m.count.isSome then .ok 1
  else
    match m.sum with
    | none => .error .neither
    | some name => .ok (jsonF64 parse (column row name))

def addEach (key : Text) (delta : AggregateMeasure → Except StreamError Int)
    (measures : Map Text (Map Text Int)) : Except StreamError (Map Text (Map Text Int)) :=
  (agg.measures.toList.mapM fun m => (delta m.2).map fun d => (m.1, d)).map fun ds =>
    measures.insert key (((Map.get measures key).getD ∅).bumps ds)

/-- mirrors processor/mod.rs:542-554 -/
def addDeltas (key : Text) (row : Row) (sign : Int) (measures : Map Text (Map Text Int)) :
    Except StreamError (Map Text (Map Text Int)) :=
  addEach agg key (fun m => (measureValue parse m row).map (sign * ·)) measures

/-- mirrors processor/mod.rs:556-569 -/
def addMeasureDelta (key : Text) (oldRow newRow : Row) (measures : Map Text (Map Text Int)) :
    Except StreamError (Map Text (Map Text Int)) :=
  addEach agg key (fun m => (measureValue parse m newRow).bind fun new =>
    (measureValue parse m oldRow).map (new - ·)) measures

/-- mirrors processor/mod.rs:488-540 -/
def applyMutation (mutation : MutationKind) (newKey : Text) (oldRow : Option Row) (newRow : Row)
    (measures : Map Text (Map Text Int)) (lastRows : Map Text Row) :
    Except StreamError (Map Text (Map Text Int) × Map Text Row) :=
  match mutation, oldRow with
  | .delete, none => .ok (measures, lastRows.insert newKey [])
  | .delete, some old =>
    let oldKey := encodeKey agg.keyFields old
    (addDeltas parse agg oldKey old (-1) measures).map fun measures =>
      (measures, if oldKey = newKey then lastRows.insert newKey []
        else (lastRows.insert newKey []).insert oldKey [])
  | .update, some old =>
    let oldKey := encodeKey agg.keyFields old
    if oldKey = newKey then
      (addMeasureDelta parse agg newKey old newRow measures).map fun measures =>
        (measures, lastRows.insert newKey newRow)
    else
      (addDeltas parse agg oldKey old (-1) measures).bind fun measures =>
        (addDeltas parse agg newKey newRow 1 measures).map fun measures =>
          (measures, (lastRows.insert oldKey []).insert newKey newRow)
  | _, _ =>
    -- an insert or a snapshot, or an update of a row that is not remembered
    (addDeltas parse agg newKey newRow 1 measures).map fun measures =>
      (measures, lastRows.insert newKey newRow)

end Mutation

namespace StreamState
variable (st : StreamState) (agg : TransformAggregate) (store : Store)

/-- mirrors processor/mod.rs:428-456 -/
def loadPreviousRow (newKey : Text) (newRow : Row) (pending : Map Text Row)
    (entityIndex : Map Text Text) : Option Row :=
  let byEntity := (entityIdentity agg newRow).bind fun entity =>
    ((Map.get entityIndex entity).bind fun oldKey => nonEmpty (Map.get pending oldKey)).or
      ((Map.get store.entities (st.stateKey agg.id entity)).bind fun oldKey =>
        (nonEmpty (Map.get pending oldKey)).or (st.loadLastRow store agg.id oldKey))
  (byEntity.or (nonEmpty (Map.get pending newKey))).or (st.loadLastRow store agg.id newKey)

/-- The event id of a row is looked up in the store and in the batch; `none`
means the row was applied before. mirrors processor/mod.rs:305-313 -/
def markSeen (p : Pending) : Option WalRowMeta → Option Pending
  | none => some p
  | some info =>
    if info.eventId = [] then some p
    else if (Map.get store.dedup (st.dedupKey agg.id info.eventId)).isSome ∨
        st.dedupKey agg.id info.eventId ∈ p.dedup then none
    else some { p with dedup := p.dedup ++ [st.dedupKey agg.id info.eventId] }

/-- mirrors processor/mod.rs:317-349 -/
def applyNew (p : Pending) (info : Option WalRowMeta) (newRow : Row) : Except StreamError Pending :=
  let key := encodeKey agg.keyFields newRow
  let mutation := (info.map (·.mutation)).getD .insert
  let oldRow :=
    match mutation with
    | .insert | .snapshot => none
    | .update | .delete => st.loadPreviousRow agg store key newRow p.lastRows p.entityIndex
  (applyMutation st.parse agg mutation key oldRow newRow p.measures p.lastRows).map fun r =>
    { p with
      measures := r.1
      lastRows := r.2
      entityIndex :=
        match entityIdentity agg newRow, mutation with
        | none, _ => p.entityIndex
        | some entity, .delete => p.entityIndex.erase entity
        | some entity, _ => p.entityIndex.insert entity key }

/-- One turn of the loop, on the row `row_values` reads at an index.
mirrors processor/mod.rs:303-350 -/
def applyRow (cdc : Option (List WalRowMeta)) (p : Pending) (row : Except StreamError Row × Nat) :
    Except StreamError Pending :=
  let info := cdc.bind fun rows => rows[row.2]?
  match st.markSeen agg store p info with
  | none => .ok { p with rowIndex := row.2 + 1 }
  | some p => row.1.bind fun newRow =>
    (st.applyNew agg store p info newRow).map fun p => { p with rowIndex := row.2 + 1 }

/-- The commit of a batch. mirrors processor/mod.rs:365-411 -/
def commitBatch (p : Pending) (cursor : WalCursor) : Store where
  metas := store.metas.insert (st.metaKey agg.id) ⟨cursor, st.configHash⟩
  measures := applyWrites store.measures ((rowsAfter p.measures none).map fun e =>
    .put (st.stateKey agg.id e.1) ((st.loadMeasures store agg.id e.1).bumps e.2.toList))
  rows := applyWrites store.rows ((rowsAfter p.lastRows none).map fun e =>
    .put (st.stateKey agg.id e.1) e.2)
  entities := applyWrites store.entities ((rowsAfter p.lastRows none).filterMap fun e =>
    (entityIdentity agg e.2).map fun entity => .put (st.stateKey agg.id entity) e.1)
  dedup := applyWrites store.dedup (p.dedup.map fun key => .put key ())

def rowsFrom (batch : List (Except StreamError Row)) (startRow : Nat) :
    List (Except StreamError Row × Nat) :=
  batch.zipIdx.drop startRow

/-- mirrors processor/mod.rs:284-418 -/
def applyEvents (cursor : WalCursor) (batch : List (Except StreamError Row))
    (cdc : Option (List WalRowMeta)) (startRow : Nat) : Except StreamError (WalCursor × Store) :=
  if batch.length ≤ startRow then .ok (cursor, store)
  else
    ((rowsFrom batch startRow).foldlM (st.applyRow agg store cdc)
        ⟨∅, ∅, ∅, [], cursor.rowIndex⟩).map fun p =>
      let next := { cursor with rowIndex := p.rowIndex }
      (next, st.commitBatch agg store p next)

/-! ## The start of a processor -/

/-- mirrors processor/mod.rs:258-264 -/
def writeMeta (id : Text) (m : ProcessorMeta) : Store :=
  { store with metas := store.metas.insert (st.metaKey id) m }

def deletePrefix {V : Type} (m : Map Text V) (start : Text) : Map Text V :=
  applyWrites m (((rowsAfter m none).filter fun e => start <+: e.1).map fun e => .delete e.1)

/-- mirrors processor/mod.rs:227-256 -/
def rebuild (id : Text) : Store :=
  let start := st.stateKey id []
  st.writeMeta { store with
      measures := deletePrefix store.measures start
      rows := deletePrefix store.rows start
      dedup := deletePrefix store.dedup start
      entities := deletePrefix store.entities start } id ⟨.zero, st.configHash⟩

def ensureAggregate (id : Text) : Store :=
  match st.loadMeta store id with
  | some m => if m.configHash = st.configHash then store else st.rebuild store id
  | none => st.writeMeta store id ⟨.zero, st.configHash⟩

/-- mirrors processor/mod.rs:189-225, without the reclaim hold -/
def ensureConfig : Store :=
  st.aggregates.foldl (fun store agg => st.ensureAggregate store agg.id) store

def minCursor : Option Nat :=
  (st.aggregates.filterMap fun agg => (st.loadMeta store agg.id).map (·.cursor.seq)).min?

end StreamState

/-! ## What a commit leaves under each key -/

section Keys
variable (st : StreamState)

theorem stateKey_inj {id a b : Text} : st.stateKey id a = st.stateKey id b ↔ a = b := by
  simp [StreamState.stateKey]

theorem metaKey_inj {a b : Text} : st.metaKey a = st.metaKey b ↔ a = b := by
  simp [StreamState.metaKey]

theorem dedupKey_inj {id : Text} {a b : List (Fin 256)} :
    st.dedupKey id a = st.dedupKey id b ↔ a = b := by
  unfold StreamState.dedupKey
  rw [stateKey_inj]
  refine ⟨fun h => ?_, congrArg hexEncode⟩
  rcases lt_trichotomy a b with hlt | heq | hgt
  · exact absurd (h ▸ (hexEncode_lt_iff a b).2 hlt) (lt_irrefl _)
  · exact heq
  · exact absurd (h ▸ (hexEncode_lt_iff b a).2 hgt) (lt_irrefl _)

end Keys

theorem get_putAll {V W : Type} (m : Map Text W) (f : Text → Text)
    (hf : ∀ a b, f a = f b ↔ a = b) (g : Text × W → V) (m₀ : Map Text V) (k : Text) :
    Map.get (applyWrites m₀ ((rowsAfter m none).map fun e => .put (f e.1) (g e))) (f k) =
      ((Map.get m k).map fun w => g (k, w)).or (Map.get m₀ (f k)) := by
  cases hk : Map.get m k with
  | none =>
    rw [get_applyWrites_of_unnamed]
    · rfl
    · refine List.forall_mem_map.2 fun e he => ?_
      intro heq
      have hget := (mem_rowsAfter.1 he).1
      rw [(hf _ _).1 heq, hk] at hget
      cases hget
  | some w =>
    have hmem : (k, w) ∈ rowsAfter m none := mem_rowsAfter.2 ⟨hk, fun a ha => by cases ha⟩
    refine get_applyWrites_of_agree m₀ (w := .put (f k) (g (k, w)))
      (List.mem_map.2 ⟨_, hmem, rfl⟩) ?_
    intro w' hw' heq
    obtain ⟨⟨k', v'⟩, he, rfl⟩ := List.mem_map.1 hw'
    obtain rfl : k' = k := (hf _ _).1 heq
    have hget := (mem_rowsAfter.1 he).1
    rw [hk] at hget
    cases hget
    rfl

section Commit
variable (st : StreamState) (agg : TransformAggregate) (store : Store) (p : Pending)
  (cursor : WalCursor)

def gathered (measures : Map Text (Map Text Int)) (key name : Text) : Int :=
  ((Map.get measures key).getD ∅).amount name

theorem commitBatch_rows (key : Text) :
    Map.get (st.commitBatch agg store p cursor).rows (st.stateKey agg.id key) =
      (Map.get p.lastRows key).or (Map.get store.rows (st.stateKey agg.id key)) := by
  have h := get_putAll p.lastRows (st.stateKey agg.id) (fun _ _ => stateKey_inj st)
    (fun e => e.2) store.rows key
  rw [Option.map_id'] at h
  exact h

theorem commitBatch_measure (key name : Text) :
    st.measure (st.commitBatch agg store p cursor) agg.id key name =
      st.measure store agg.id key name + gathered p.measures key name := by
  have h := get_putAll p.measures (st.stateKey agg.id) (fun _ _ => stateKey_inj st)
    (fun e => (st.loadMeasures store agg.id e.1).bumps e.2.toList) store.measures key
  have hload : st.loadMeasures (st.commitBatch agg store p cursor) agg.id key =
      ((Map.get p.measures key).map fun w => (st.loadMeasures store agg.id key).bumps w.toList).getD
        (st.loadMeasures store agg.id key) := by
    unfold StreamState.loadMeasures
    rw [StreamState.commitBatch, h]
    cases Map.get p.measures key with
    | none => rfl
    | some w => rfl
  unfold StreamState.measure gathered
  rw [hload]
  cases Map.get p.measures key with
  | none => simp [Map.amount]
  | some w =>
    show Map.amount (Map.bumps _ w.toList) name = _
    rw [Map.amount_bumps_toList]
    rfl

theorem commitBatch_entities_of_unique {key entity : Text} {row : Row}
    (hrow : Map.get p.lastRows key = some row) (hentity : entityIdentity agg row = some entity)
    (huniq : ∀ key' row', Map.get p.lastRows key' = some row' →
      entityIdentity agg row' = some entity → key' = key) :
    Map.get (st.commitBatch agg store p cursor).entities (st.stateKey agg.id entity) = some key := by
  have hmem : (key, row) ∈ rowsAfter p.lastRows none :=
    mem_rowsAfter.2 ⟨hrow, fun a ha => by cases ha⟩
  refine get_applyWrites_of_agree store.entities (w := .put (st.stateKey agg.id entity) key)
    (List.mem_filterMap.2 ⟨_, hmem, by simp [hentity]⟩) ?_
  intro w hw heq
  obtain ⟨⟨key', row'⟩, he, hput⟩ := List.mem_filterMap.1 hw
  obtain ⟨entity', hentity', rfl⟩ := Option.map_eq_some_iff.1 hput
  obtain rfl : entity' = entity := (stateKey_inj st).1 heq
  rw [huniq key' row' (mem_rowsAfter.1 he).1 hentity']

theorem commitBatch_entities_of_absent {entity : Text}
    (habs : ∀ key' row', Map.get p.lastRows key' = some row' →
      entityIdentity agg row' ≠ some entity) :
    Map.get (st.commitBatch agg store p cursor).entities (st.stateKey agg.id entity) =
      Map.get store.entities (st.stateKey agg.id entity) := by
  refine get_applyWrites_of_unnamed store.entities ?_
  intro w hw heq
  obtain ⟨⟨key', row'⟩, he, hput⟩ := List.mem_filterMap.1 hw
  obtain ⟨entity', hentity', rfl⟩ := Option.map_eq_some_iff.1 hput
  obtain rfl : entity' = entity := (stateKey_inj st).1 heq
  exact habs key' row' (mem_rowsAfter.1 he).1 hentity'

theorem commitBatch_dedup (key : Text) :
    (Map.get (st.commitBatch agg store p cursor).dedup key).isSome ↔
      key ∈ p.dedup ∨ (Map.get store.dedup key).isSome := by
  by_cases hmem : key ∈ p.dedup
  · have h := get_applyWrites_of_agree store.dedup (w := .put key ())
      (List.mem_map.2 ⟨key, hmem, rfl⟩ : Write.put key () ∈ p.dedup.map fun key => .put key ())
      (fun w hw _ => by
        obtain ⟨key', -, rfl⟩ := List.mem_map.1 hw
        rfl)
    have hsome : Map.get (st.commitBatch agg store p cursor).dedup key = some () := h
    simp [hsome, hmem]
  · have h : Map.get (st.commitBatch agg store p cursor).dedup key = Map.get store.dedup key := by
      refine get_applyWrites_of_unnamed store.dedup ?_
      intro w hw heq
      obtain ⟨key', hkey', rfl⟩ := List.mem_map.1 hw
      obtain rfl : key' = key := heq
      exact hmem hkey'
    simp [h, hmem]

end Commit

/-! ## What one batch does to the cursors -/

section Cursor
variable (st : StreamState) (agg : TransformAggregate) (store : Store)

theorem applyRow_rowIndex {cdc : Option (List WalRowMeta)} {p p' : Pending}
    {row : Except StreamError Row × Nat} (h : st.applyRow agg store cdc p row = .ok p') :
    p'.rowIndex = row.2 + 1 := by
  simp only [StreamState.applyRow] at h
  split at h
  · cases h
    rfl
  · cases hrow : row.1 with
    | error err =>
      rw [hrow] at h
      cases h
    | ok newRow =>
      rw [hrow] at h
      obtain ⟨p₁, -, rfl⟩ := map_eq_ok.1 h
      rfl

theorem applyRow_of_rowIndex (cdc : Option (List WalRowMeta)) (p : Pending) (n : Nat)
    (row : Except StreamError Row × Nat) :
    st.applyRow agg store cdc { p with rowIndex := n } row = st.applyRow agg store cdc p row := by
  have hnew : ∀ (q : Pending) (info : Option WalRowMeta) (newRow : Row),
      (st.applyNew agg store { q with rowIndex := n } info newRow).map
          (fun q => { q with rowIndex := row.2 + 1 }) =
        (st.applyNew agg store q info newRow).map fun q => { q with rowIndex := row.2 + 1 } := by
    intro q info newRow
    simp only [StreamState.applyNew]
    cases applyMutation st.parse agg _ _ _ newRow q.measures q.lastRows with
    | error err => rfl
    | ok r => rfl
  have hmark : ∀ info, st.markSeen agg store { p with rowIndex := n } info =
      (st.markSeen agg store p info).map fun q => { q with rowIndex := n } := by
    intro info
    cases info with
    | none => rfl
    | some info =>
      simp only [StreamState.markSeen]
      split
      · rfl
      · split
        · rfl
        · rfl
  simp only [StreamState.applyRow, hmark]
  cases st.markSeen agg store p _ with
  | none => rfl
  | some q => simp only [Option.map_some, hnew]

theorem applyEvents_of_rowIndex (cursor : WalCursor) (n : Nat) (batch : List (Except StreamError Row))
    (cdc : Option (List WalRowMeta)) {startRow : Nat} (hlt : startRow < batch.length) :
    st.applyEvents agg store { cursor with rowIndex := n } batch cdc startRow =
      st.applyEvents agg store cursor batch cdc startRow := by
  have hne : StreamState.rowsFrom batch startRow ≠ [] := by
    intro hnil
    have hlen := congrArg List.length hnil
    rw [StreamState.rowsFrom, List.length_drop, List.length_zipIdx, List.length_nil] at hlen
    omega
  obtain ⟨row, rows, hrows⟩ := List.exists_cons_of_ne_nil hne
  have hfirst := applyRow_of_rowIndex st agg store cdc ⟨∅, ∅, ∅, [], cursor.rowIndex⟩ n row
  rw [StreamState.applyEvents, StreamState.applyEvents, if_neg (by omega), if_neg (by omega), hrows,
    List.foldlM_cons, List.foldlM_cons, ← hfirst]

/-- A batch that is not empty from `startRow` on leaves the cursor after its last
row, and the cursors of the other aggregates where they were. -/
theorem applyEvents_ok {cursor next : WalCursor} {batch : List (Except StreamError Row)}
    {cdc : Option (List WalRowMeta)} {startRow : Nat} {store' : Store}
    (hlt : startRow < batch.length)
    (h : st.applyEvents agg store cursor batch cdc startRow = .ok (next, store')) :
    next = { cursor with rowIndex := batch.length } ∧
      st.loadMeta store' agg.id = some ⟨next, st.configHash⟩ ∧
      ∀ id, id ≠ agg.id → st.loadMeta store' id = st.loadMeta store id := by
  rw [StreamState.applyEvents, if_neg (by omega)] at h
  obtain ⟨p, hfold, hres⟩ := map_eq_ok.1 h
  have hindex : p.rowIndex = batch.length := by
    have hstep : ∀ (q : Pending) (n : Nat) (row : Except StreamError Row × Nat) (q' : Pending),
        q.rowIndex = n → st.applyRow agg store cdc q row = .ok q' → q'.rowIndex = row.2 + 1 :=
      fun _ _ _ _ _ hrow => applyRow_rowIndex st agg store hrow
    have hlast : p.rowIndex = (StreamState.rowsFrom batch startRow).foldl
        (fun _ row => row.2 + 1) cursor.rowIndex :=
      foldlM_simulates (fun (q : Pending) (n : Nat) => q.rowIndex = n) hstep _ rfl hfold
    obtain ⟨init, last, rfl⟩ : ∃ init last, batch = init ++ [last] :=
      ⟨batch.dropLast, batch.getLast (List.ne_nil_of_length_pos (by omega)),
        (List.dropLast_append_getLast _).symm⟩
    have hlen : startRow ≤ init.zipIdx.length := by
      rw [List.length_append, List.length_singleton] at hlt
      rw [List.length_zipIdx]
      omega
    rw [hlast, StreamState.rowsFrom, List.zipIdx_append, List.drop_append_of_le_length hlen,
      List.foldl_append]
    simp
  cases hres
  refine ⟨by rw [hindex], ?_, ?_⟩
  · rw [StreamState.loadMeta]
    show Map.get (store.metas.insert _ _) _ = _
    rw [Map.get_insert, if_pos rfl]
  · intro id hid
    rw [StreamState.loadMeta]
    show Map.get (store.metas.insert _ _) _ = _
    rw [Map.get_insert, if_neg (fun heq => hid ((metaKey_inj st).1 heq))]
    rfl

end Cursor

end Skippr.L8.Stream
