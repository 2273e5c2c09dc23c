import Skippr.Core.Lists
import Skippr.L11Sources.Pgoutput
import Skippr.L6Lake.CdcFinalState

/-!
# Postgres CDC: what `sync_cdc` makes of a table's history

`sync_cdc` follows a logical replication slot: it remembers the relations it is
told of, makes a CDC row of every change it can decode, with the WAL position as
order token, and submits the rows of a transaction at its commit
(plugins/data_source/postgres/src/source.rs). On the other side is a table with
a primary key, which starts empty and changes row by row.
-/
namespace Skippr.L11.Postgres

open Skippr.L6.Cdc

/-! ## `sync_cdc` -/

abbrev Json := Map Text (Option Text)

/-- mirrors source.rs:100-110 -/
def tupleToJson (columns : List PgColumn) (tuple : TupleData) : Json :=
  (columns.zip tuple).foldl (fun map cv => map.insert cv.1.name cv.2) ∅

structure IngestBatch where
  offsetKey : Text × Text
  data : Json
  offsetPos : UInt64
  sourceUri : Text
  dataNamespace : Text
  mutation : MutationKind
  eventId : OrderToken
  orderToken : OrderToken
deriving DecidableEq

def IngestBatch.event (b : IngestBatch) : Event Json := ⟨b.mutation, b.orderToken, b.data⟩

def postgresNamespace (table : Text) : Text := ['p', 'o', 's', 't', 'g', 'r', 'e', 's', '.'] ++ table

def lsnBytes (lsn : UInt64) : OrderToken := beBytes 8 lsn.toNat

/-- mirrors source.rs:176-204 -/
def cdcBatch (table : Text) (columns : List PgColumn) (tuple : TupleData) (mutation : MutationKind)
    (lsn : UInt64) : IngestBatch where
  offsetKey := (postgresNamespace table, table)
  data := tupleToJson columns tuple
  offsetPos := lsn
  sourceUri := ['p', 'o', 's', 't', 'g', 'r', 'e', 's', ':', '/', '/'] ++ table
  dataNamespace := postgresNamespace table
  mutation := mutation
  eventId := lsnBytes lsn
  orderToken := lsnBytes lsn

structure St where
  relationMap : Map UInt32 (Text × List PgColumn)
  pendingBatches : List IngestBatch
  submitted : List IngestBatch
  checkpoint : Option UInt64

/-- mirrors source.rs:533-537 -/
def qualified (schema name : Text) : Text :=
  if schema = ['p', 'u', 'b', 'l', 'i', 'c'] then name else schema ++ '.' :: name

/-- A row of a relation that is not known is passed over. -/
def St.push (s : St) (oid : UInt32) (tuple : TupleData) (mutation : MutationKind) (walEnd : UInt64) :
    St :=
  match s.relationMap.get oid with
  | none => s
  | some (table, cols) =>
    { s with pendingBatches := s.pendingBatches ++ [cdcBatch table cols tuple mutation walEnd] }

/-- mirrors source.rs:526-576 -/
def onMessage (s : St) (walEnd : UInt64) : PgOutputMessage → St
  | .relation oid schema name columns =>
    { s with relationMap := s.relationMap.insert oid (qualified schema name, columns) }
  | .insert oid newRow => s.push oid newRow .insert walEnd
  | .update oid _ newRow => s.push oid newRow .update walEnd
  | .delete oid oldRow => s.push oid oldRow .delete walEnd

inductive ReplicationEvent
  | xLogData (data : List UInt8) (walEnd : UInt64)
  | begin
  | commit (lsn : UInt64)
  | keepAlive
  | stoppedAt

/-- mirrors source.rs:520-588 -/
def onEvent (s : St) : ReplicationEvent → St
  | .xLogData data walEnd =>
    match parse data with
    | none => s
    | some msg => onMessage s walEnd msg
  | .commit lsn =>
    { s with
      pendingBatches := []
      submitted := s.submitted ++ s.pendingBatches
      checkpoint := some lsn }
  | _ => s

/-- mirrors source.rs:466-590 -/
def syncCdc (s : St) : List ReplicationEvent → St
  | [] => s
  | .stoppedAt :: _ => s
  | e :: events => syncCdc (onEvent s e) events

def start : St := ⟨∅, [], [], none⟩

/-! ## The table -/

structure Table where
  oid : UInt32
  schema : Text
  name : Text
  replicaIdentity : UInt8
  columns : List RelationColumn
  key : List Text
  distinct : (columns.map fun c => c.column.name).Nodup
  keyColumns : ∀ n ∈ key, n ∈ columns.map fun c => c.column.name
  fewColumns : columns.length < 2 ^ 16
  plainSchema : Char.ofNat 0 ∉ schema
  plainName : Char.ofNat 0 ∉ name
  plainColumns : ∀ c ∈ columns, Char.ofNat 0 ∉ c.column.name

abbrev Key := List (Option Text)

namespace Table
variable (t : Table)

def pgColumns : List PgColumn := t.columns.map RelationColumn.column

def qualifiedName : Text := qualified t.schema t.name

def rowKey (row : Json) : Key := t.key.map fun n => (row.get n).join

def keyOf (tuple : TupleData) : Key := t.rowKey (tupleToJson t.pgColumns tuple)

def oldTuple (row : TupleData) : OldTuple → TupleData
  | .full => row
  | .key => List.zipWith (fun (c : PgColumn) v => if c.name ∈ t.key then v else none) t.pgColumns row

def message : List UInt8 := relationMessage t.oid t.schema t.name t.replicaIdentity t.columns

/-- A tuple the table can have: its key has no NULL, and its texts can be sent. -/
def IsRow (tuple : TupleData) : Prop :=
  tuple.length = t.columns.length ∧ (∀ v ∈ t.keyOf tuple, v ≠ none) ∧
    ∀ v ∈ tuple, (SentColumn.ofValue v).Fits

end Table

abbrev Rows := Map Key TupleData

inductive Change
  | insert (row : TupleData)
  | update (old : TupleData) (sentOld : Option OldTuple) (new : List SentColumn)
  | delete (row : TupleData) (sentOld : OldTuple)
deriving DecidableEq, Repr

namespace Change
variable (t : Table)

def newRow (new : List SentColumn) : TupleData := new.map SentColumn.value

/-- The key of a new row is free; that of an update may be its own. The old
tuple goes with an update of the key, and an unchanged column is unchanged. -/
def Applies (rows : Rows) : Change → Prop
  | .insert row => t.IsRow row ∧ rows.get (t.keyOf row) = none
  | .update old sentOld new =>
    rows.get (t.keyOf old) = some old ∧ t.IsRow (newRow new) ∧
      (t.keyOf (newRow new) = t.keyOf old ∨
        rows.get (t.keyOf (newRow new)) = none ∧ sentOld ≠ none) ∧
      ∀ cv ∈ new.zip old, cv.1.sent = false → cv.1.value = cv.2
  | .delete row _ => rows.get (t.keyOf row) = some row

def apply (rows : Rows) : Change → Rows
  | .insert row => rows.insert (t.keyOf row) row
  | .update old _ new => (rows.erase (t.keyOf old)).insert (t.keyOf (newRow new)) (newRow new)
  | .delete row _ => rows.erase (t.keyOf row)

def keys : Change → List Key
  | .insert row => [t.keyOf row]
  | .update old _ new => [t.keyOf old, t.keyOf (newRow new)]
  | .delete row _ => [t.keyOf row]

def message : Change → List UInt8
  | .insert row => insertMessage t.oid (row.map SentColumn.ofValue)
  | .update old sentOld new =>
    updateMessage t.oid
      (sentOld.map fun kind => (kind, (t.oldTuple old kind).map SentColumn.ofValue)) new
  | .delete row kind => deleteMessage t.oid kind ((t.oldTuple row kind).map SentColumn.ofValue)

end Change

instance decidableIsRow (t : Table) : DecidablePred t.IsRow := fun _ =>
  inferInstanceAs (Decidable (_ ∧ _))

instance decidableApplies (t : Table) (rows : Rows) : DecidablePred (Change.Applies t rows)
  | .insert _ => inferInstanceAs (Decidable (_ ∧ _))
  | .update _ _ _ => inferInstanceAs (Decidable (_ ∧ _))
  | .delete _ _ => inferInstanceAs (Decidable (_ = _))

/-! ## Its history on the stream -/

inductive Entry
  | relation
  | change (c : Change)
  /-- A message of another relation, or one the decoder does not know. -/
  | other (data : List UInt8)
  | keepAlive

abbrev Sent := Entry × UInt64

structure Transaction where
  entries : List Sent
  commitLsn : UInt64

def changes (entries : List Sent) : List (Change × UInt64) :=
  entries.filterMap fun e =>
    match e.1 with
    | .change c => some (c, e.2)
    | _ => none

def Sent.event (t : Table) (e : Sent) : ReplicationEvent :=
  match e.1 with
  | .relation => .xLogData t.message e.2
  | .change c => .xLogData (c.message t) e.2
  | .other data => .xLogData data e.2
  | .keepAlive => .keepAlive

def Transaction.events (t : Table) (tx : Transaction) : List ReplicationEvent :=
  .begin :: tx.entries.map (Sent.event t) ++ [.commit tx.commitLsn]

def entriesOf (txs : List Transaction) : List Sent := txs.flatMap Transaction.entries

def applyAll (t : Table) (rows : Rows) (cs : List (Change × UInt64)) : Rows :=
  cs.foldl (fun rows c => c.1.apply t rows) rows

def PgOutputMessage.oid : PgOutputMessage → UInt32
  | .relation oid _ _ _ => oid
  | .insert oid _ => oid
  | .update oid _ _ => oid
  | .delete oid _ => oid

def PgOutputMessage.names : PgOutputMessage → Option Text
  | .relation _ schema name _ => some (qualified schema name)
  | _ => none

def Foreign (t : Table) (data : List UInt8) : Prop :=
  ∀ msg ∈ parse data, msg.oid ≠ t.oid ∧ msg.names ≠ some t.qualifiedName

/-- Every change applies to the rows the earlier ones have left, and the relation
is described before. -/
def Follows (t : Table) : Bool → Rows → List Sent → Prop
  | _, _, [] => True
  | known, rows, (e, _) :: entries =>
    match e with
    | .relation => Follows t true rows entries
    | .change c => known = true ∧ c.Applies t rows ∧ Follows t known (c.apply t rows) entries
    | .other data => Foreign t data ∧ Follows t known rows entries
    | .keepAlive => Follows t known rows entries

instance decidableForeign (t : Table) (data : List UInt8) : Decidable (Foreign t data) :=
  inferInstanceAs (Decidable (∀ msg ∈ parse data, _))

instance decidableFollows (t : Table) : (known : Bool) → (rows : Rows) → (entries : List Sent) →
    Decidable (Follows t known rows entries)
  | _, _, [] => .isTrue trivial
  | _, rows, (.relation, _) :: entries => decidableFollows t true rows entries
  | known, rows, (.change c, _) :: entries =>
    letI := decidableFollows t known (c.apply t rows) entries
    inferInstanceAs (Decidable (known = true ∧ c.Applies t rows ∧ _))
  | known, rows, (.other data, _) :: entries =>
    letI := decidableFollows t known rows entries
    inferInstanceAs (Decidable (Foreign t data ∧ _))
  | known, rows, (.keepAlive, _) :: entries => decidableFollows t known rows entries

/-- Two changes that concern one key are at increasing positions. -/
def InOrder (t : Table) (cs : List (Change × UInt64)) : Prop :=
  cs.Pairwise fun c c' => (∃ k ∈ c.1.keys t, k ∈ c'.1.keys t) → c.2 < c'.2

instance decidableInOrder (t : Table) (cs : List (Change × UInt64)) : Decidable (InOrder t cs) :=
  inferInstanceAs (Decidable (cs.Pairwise _))

structure Delivered (t : Table) (txs : List Transaction) : Prop where
  follows : Follows t false ∅ (entriesOf txs)
  inOrder : InOrder t (changes (entriesOf txs))

/-! ## The sink and the table -/

def Table.rows (t : Table) (batches : List IngestBatch) : List (Event Json) :=
  (batches.filter fun b => b.dataNamespace = postgresNamespace t.qualifiedName).map IngestBatch.event

/-- Of every key, the row of greatest token is what the table has of it. -/
def SinkIsTable (t : Table) (es : List (Event Json)) (rows : Rows) : Prop :=
  ∀ k, (latest (fun row => some (t.rowKey row)) k es).bind Event.effect =
    (rows.get k).map (tupleToJson t.pgColumns)

def AllSent (new : List SentColumn) : Prop := ∀ c ∈ new, c.sent = true

/-- No key column is left out of a new row. -/
def Change.KeySent (t : Table) : Change → Prop
  | .update _ _ new =>
    ∀ cv ∈ t.pgColumns.zip new, cv.1.name ∈ t.key → cv.2.sent = true
  | _ => True

/-- An update sends the whole of a row that it leaves under the key. -/
def Change.Keeps (t : Table) (k : Key) : Change → Prop
  | .update _ _ new => t.keyOf (newRow new) = k ∧ AllSent new
  | _ => True

/-- Every change keeps those of its keys that no later change concerns. -/
def LastKept (t : Table) : List (Change × UInt64) → Prop
  | [] => True
  | c :: cs =>
    (∀ k ∈ c.1.keys t, (∀ c' ∈ cs, k ∉ c'.1.keys t) → c.1.Keeps t k) ∧ LastKept t cs

instance decidableKeySent (t : Table) : DecidablePred (Change.KeySent t)
  | .insert _ => .isTrue trivial
  | .update _ _ new => inferInstanceAs (Decidable (∀ cv ∈ t.pgColumns.zip new, _))
  | .delete _ _ => .isTrue trivial

instance decidableKeeps (t : Table) (k : Key) : DecidablePred (Change.Keeps t k)
  | .insert _ => .isTrue trivial
  | .update _ _ new => inferInstanceAs (Decidable (_ ∧ ∀ c ∈ new, _))
  | .delete _ _ => .isTrue trivial

instance decidableLastKept (t : Table) : DecidablePred (LastKept t)
  | [] => .isTrue trivial
  | c :: cs =>
    letI := decidableLastKept t cs
    inferInstanceAs (Decidable ((∀ k ∈ c.1.keys t, _) ∧ _))

/-! ## Rows and keys -/

theorem get_tupleToJson {columns : List PgColumn} (hnodup : (columns.map PgColumn.name).Nodup)
    {tuple : TupleData} {n : Text} {v : Option Text} :
    (tupleToJson columns tuple).get n = some v ↔ ∃ c, (c, v) ∈ columns.zip tuple ∧ c.name = n := by
  have hjson : tupleToJson columns tuple =
      ((columns.zip tuple).map fun cv => (cv.1.name, cv.2)).foldl (fun map e => map.insert e.1 e.2) ∅ := by
    rw [tupleToJson, List.foldl_map]
  have hnames : (((columns.zip tuple).map fun cv => (cv.1.name, cv.2)).map Prod.fst).Nodup := by
    rw [List.map_map]
    have hsub := (map_fst_zip_sublist columns tuple).map PgColumn.name
    rw [List.map_map] at hsub
    exact hnodup.sublist hsub
  rw [hjson, Map.get_foldl_insert hnames, List.mem_map]
  constructor
  · rintro ⟨⟨c, v'⟩, hmem, heq⟩
    cases heq
    exact ⟨c, hmem, rfl⟩
  · rintro ⟨c, hmem, rfl⟩
    exact ⟨(c, v), hmem, rfl⟩

section Keys
variable {t : Table}

theorem Table.nodup_names (t : Table) : (t.pgColumns.map PgColumn.name).Nodup := by
  rw [Table.pgColumns, List.map_map]
  exact t.distinct

theorem keyOf_congr {a b : TupleData} (h : ∀ c v, c.name ∈ t.key →
    ((c, v) ∈ t.pgColumns.zip a ↔ (c, v) ∈ t.pgColumns.zip b)) : t.keyOf a = t.keyOf b := by
  unfold Table.keyOf Table.rowKey
  refine List.map_congr_left fun n hn => congrArg Option.join (Option.ext fun v => ?_)
  rw [get_tupleToJson t.nodup_names, get_tupleToJson t.nodup_names]
  constructor
  · rintro ⟨c, hmem, rfl⟩
    exact ⟨c, (h c v hn).1 hmem, rfl⟩
  · rintro ⟨c, hmem, rfl⟩
    exact ⟨c, (h c v hn).2 hmem, rfl⟩

theorem mem_zip_map {γ : Type} {l : List γ} {f : γ → Option Text} {c : PgColumn} {v : Option Text} :
    (c, v) ∈ t.pgColumns.zip (l.map f) ↔ ∃ x, (c, x) ∈ t.pgColumns.zip l ∧ f x = v := by
  rw [List.zip_map_right, List.mem_map]
  constructor
  · rintro ⟨⟨c', x⟩, hmem, heq⟩
    cases heq
    exact ⟨x, hmem, rfl⟩
  · rintro ⟨x, hmem, rfl⟩
    exact ⟨(c, x), hmem, rfl⟩

theorem get_json_of_mem {γ : Type} {l : List γ} (f : γ → Option Text) {c : PgColumn} {x : γ}
    (hmem : (c, x) ∈ t.pgColumns.zip l) :
    (tupleToJson t.pgColumns (l.map f)).get c.name = some (f x) :=
  (get_tupleToJson t.nodup_names).2 ⟨c, mem_zip_map.2 ⟨x, hmem, rfl⟩, rfl⟩

theorem keyOf_oldTuple (row : TupleData) (kind : OldTuple) :
    t.keyOf (t.oldTuple row kind) = t.keyOf row := by
  cases kind with
  | full => rfl
  | key =>
    refine keyOf_congr fun c v hc => ?_
    rw [Table.oldTuple, zip_zipWith, List.mem_map]
    constructor
    · rintro ⟨⟨c', v'⟩, hmem, heq⟩
      cases heq
      rw [if_pos hc]
      exact hmem
    · intro hmem
      exact ⟨(c, v), hmem, by simp only [if_pos hc]⟩

theorem null_mem_keyOf {old : TupleData} {sentOld : Option OldTuple} {new : List SentColumn}
    (h : ¬ (Change.update old sentOld new).KeySent t) :
    none ∈ t.keyOf (new.map SentColumn.parsed) := by
  simp only [Change.KeySent, not_forall] at h
  obtain ⟨⟨c, x⟩, hmem, hkey, hnot⟩ := h
  refine List.mem_map.2 ⟨c.name, hkey, ?_⟩
  rw [get_json_of_mem SentColumn.parsed hmem,
    (SentColumn.parsed_of_not_sent (Bool.eq_false_iff.2 hnot)).1]
  rfl

theorem json_parsed_iff {new : List SentColumn} (hlen : new.length = t.columns.length) :
    tupleToJson t.pgColumns (new.map SentColumn.parsed) =
      tupleToJson t.pgColumns (Change.newRow new) ↔ AllSent new := by
  constructor
  · intro heq x hx
    by_contra hnot
    obtain ⟨hparsed, hvalue⟩ := SentColumn.parsed_of_not_sent (Bool.eq_false_iff.2 hnot)
    have hcolumns : new.length ≤ t.pgColumns.length := by
      rw [Table.pgColumns, List.length_map]
      omega
    have hx' : x ∈ (t.pgColumns.zip new).map Prod.snd := by
      rw [List.map_snd_zip hcolumns]
      exact hx
    obtain ⟨⟨c, x'⟩, hmem, rfl⟩ := List.mem_map.1 hx'
    -- The two objects have the column's NULL and its value.
    have hleft := get_json_of_mem SentColumn.parsed hmem
    have hright := get_json_of_mem SentColumn.value hmem
    unfold Change.newRow at heq
    rw [heq, hright] at hleft
    exact hvalue ((Option.some.inj hleft).trans hparsed)
  · intro hall
    have hmap : new.map SentColumn.parsed = Change.newRow new :=
      List.map_congr_left fun x hx => SentColumn.parsed_of_sent (hall x hx)
    rw [hmap]

end Keys

/-! ## Every change gives its row -/

def Change.sentTuple (t : Table) : Change → TupleData
  | .insert row => row
  | .update _ _ new => new.map SentColumn.parsed
  | .delete row kind => t.oldTuple row kind

def Change.kind : Change → MutationKind
  | .insert _ => .insert
  | .update _ _ _ => .update
  | .delete _ _ => .delete

def Change.event (t : Table) (c : Change × UInt64) : Event Json :=
  ⟨c.1.kind, lsnBytes c.2, tupleToJson t.pgColumns (c.1.sentTuple t)⟩

section Run
variable {t : Table}

def RowsOk (t : Table) (rows : Rows) : Prop :=
  ∀ k row, rows.get k = some row → t.IsRow row ∧ t.keyOf row = k

theorem RowsOk.apply {rows : Rows} {c : Change} (h : RowsOk t rows) (hc : c.Applies t rows) :
    RowsOk t (c.apply t rows) := by
  intro k row hget
  cases c with
  | insert new =>
    rcases Map.get_insert_cases hget with ⟨hk, rfl⟩ | ⟨-, hget⟩
    · exact ⟨hc.1, hk.symm⟩
    · exact h k row hget
  | update old sentOld new =>
    rcases Map.get_insert_cases hget with ⟨hk, rfl⟩ | ⟨-, hget⟩
    · exact ⟨hc.2.1, hk.symm⟩
    · exact h k row (Map.of_get_erase hget).2
  | delete old kind =>
    exact h k row (Map.of_get_erase hget).2

theorem tupleFits_row {row : TupleData} (h : t.IsRow row) :
    TupleFits (row.map SentColumn.ofValue) := by
  refine ⟨?_, ?_⟩
  · rw [List.length_map, h.1]
    exact t.fewColumns
  · exact List.forall_mem_map.2 fun v hv => h.2.2 v hv

theorem tupleFits_new {new : List SentColumn} (h : t.IsRow (Change.newRow new)) : TupleFits new := by
  refine ⟨?_, ?_⟩
  · have hlen := h.1
    rw [Change.newRow, List.length_map] at hlen
    rw [hlen]
    exact t.fewColumns
  · intro c hc
    have hfits := h.2.2 c.value (List.mem_map_of_mem hc)
    cases c with
    | text s => exact hfits
    | _ => trivial

theorem tupleFits_oldTuple {row : TupleData} (h : t.IsRow row) (kind : OldTuple) :
    TupleFits ((t.oldTuple row kind).map SentColumn.ofValue) := by
  cases kind with
  | full => exact tupleFits_row h
  | key =>
    refine ⟨?_, ?_⟩
    · have hfew := t.fewColumns
      simp only [Table.oldTuple, Table.pgColumns, List.length_map, List.length_zipWith]
      omega
    · refine List.forall_mem_map.2 fun v hv => ?_
      obtain ⟨i, hi⟩ := List.mem_iff_getElem?.1 hv
      obtain ⟨col, v', -, hv', heq⟩ := List.getElem?_zipWith_eq_some.1 hi
      split at heq
      · rw [← heq]
        exact h.2.2 v' (List.mem_iff_getElem?.2 ⟨i, hv'⟩)
      · rw [← heq]
        trivial

theorem map_parsed_ofValue (row : TupleData) :
    (row.map SentColumn.ofValue).map SentColumn.parsed = row := by
  rw [List.map_map]
  exact (List.map_congr_left fun v _ => SentColumn.parsed_ofValue v).trans (List.map_id row)

theorem parse_message {rows : Rows} {c : Change} (hrows : RowsOk t rows) (hc : c.Applies t rows) :
    ∃ msg, parse (c.message t) = some msg ∧
      ∀ s lsn, onMessage s lsn msg = s.push t.oid (c.sentTuple t) c.kind lsn := by
  cases c with
  | insert row =>
    refine ⟨_, parse_insertMessage (tupleFits_row hc.1), fun s lsn => ?_⟩
    rw [map_parsed_ofValue]
    rfl
  | update old sentOld new =>
    have hold := (hrows _ _ hc.1).1
    refine ⟨_, parse_updateMessage ?_ (tupleFits_new hc.2.1), fun s lsn => rfl⟩
    intro tuple htuple
    obtain ⟨kind, -, rfl⟩ := Option.map_eq_some_iff.1 htuple
    exact tupleFits_oldTuple hold kind
  | delete row kind =>
    have hrow := (hrows _ _ hc).1
    refine ⟨_, parse_deleteMessage (tupleFits_oldTuple hrow kind), fun s lsn => ?_⟩
    rw [map_parsed_ofValue]
    rfl

structure Following (t : Table) (known : Bool) (s : St) (cs : List (Change × UInt64)) : Prop where
  relation : known = true → s.relationMap.get t.oid = some (t.qualifiedName, t.pgColumns)
  others : ∀ oid table cols, oid ≠ t.oid → s.relationMap.get oid = some (table, cols) →
    table ≠ t.qualifiedName
  rows : t.rows (s.submitted ++ s.pendingBatches) = cs.map (Change.event t)

theorem rows_append (a b : List IngestBatch) : t.rows (a ++ b) = t.rows a ++ t.rows b := by
  unfold Table.rows
  rw [List.filter_append, List.map_append]

theorem rows_cdcBatch {table : Text} {cols : List PgColumn} {tuple : TupleData} {kind : MutationKind}
    {lsn : UInt64} : t.rows [cdcBatch table cols tuple kind lsn] =
      if table = t.qualifiedName then [⟨kind, lsnBytes lsn, tupleToJson cols tuple⟩] else [] := by
  have hns : (cdcBatch table cols tuple kind lsn).dataNamespace = postgresNamespace t.qualifiedName ↔
      table = t.qualifiedName :=
    iff_of_eq (List.append_cancel_left_eq ..)
  unfold Table.rows
  by_cases htable : table = t.qualifiedName
  · rw [List.filter_cons_of_pos (by simpa using hns.2 htable), if_pos htable]
    rfl
  · rw [List.filter_cons_of_neg (by simpa using mt hns.1 htable), if_neg htable]
    rfl

variable {known : Bool} {s : St} {cs : List (Change × UInt64)}

theorem following_change (h : Following t known s cs) (hknown : known = true) (c : Change)
    (lsn : UInt64) :
    Following t known (s.push t.oid (c.sentTuple t) c.kind lsn) (cs ++ [(c, lsn)]) := by
  unfold St.push
  rw [h.relation hknown]
  refine ⟨h.relation, h.others, ?_⟩
  rw [← List.append_assoc, rows_append, h.rows, rows_cdcBatch, if_pos rfl, List.map_append]
  rfl

theorem following_relation (h : Following t known s cs) (lsn : UInt64) :
    Following t true (onMessage s lsn (.relation t.oid t.schema t.name t.pgColumns)) cs := by
  refine ⟨?_, ?_, h.rows⟩
  · intro _
    simp only [onMessage, Map.get_insert, if_true]
    rfl
  · intro oid table cols hne hget
    simp only [onMessage, Map.get_insert, if_neg hne] at hget
    exact h.others oid table cols hne hget

theorem following_push_other (h : Following t known s cs) {oid : UInt32} (hne : oid ≠ t.oid)
    (tuple : TupleData) (kind : MutationKind) (lsn : UInt64) :
    Following t known (s.push oid tuple kind lsn) cs := by
  unfold St.push
  split
  · exact h
  · rename_i table cols hget
    refine ⟨h.relation, h.others, ?_⟩
    rw [← List.append_assoc, rows_append, h.rows, rows_cdcBatch,
      if_neg (h.others oid table cols hne hget), List.append_nil]

theorem following_other (h : Following t known s cs) {data : List UInt8} (hdata : Foreign t data)
    (lsn : UInt64) : Following t known (onEvent s (.xLogData data lsn)) cs := by
  unfold onEvent
  dsimp only
  split
  · exact h
  · rename_i msg hmsg
    obtain ⟨hne, hname⟩ := hdata msg hmsg
    cases msg with
    | relation oid schema name columns =>
      refine ⟨?_, ?_, h.rows⟩
      · intro hknown
        simp only [onMessage, Map.get_insert]
        rw [if_neg fun heq : t.oid = oid => hne heq.symm]
        exact h.relation hknown
      · intro oid' table cols hne' hget
        simp only [onMessage, Map.get_insert] at hget
        split at hget
        · cases hget
          exact fun heq => hname (congrArg some heq)
        · exact h.others oid' table cols hne' hget
    | insert oid row => exact following_push_other h hne row .insert lsn
    | update oid old row => exact following_push_other h hne row .update lsn
    | delete oid row => exact following_push_other h hne row .delete lsn

theorem following_entry {rows : Rows} {e : Sent} {rest : List Sent} (h : Following t known s cs)
    (hrows : RowsOk t rows) (hf : Follows t known rows (e :: rest)) :
    ∃ known', Following t known' (onEvent s (e.event t)) (cs ++ changes [e]) ∧
      RowsOk t (applyAll t rows (changes [e])) ∧
      Follows t known' (applyAll t rows (changes [e])) rest := by
  obtain ⟨e, lsn⟩ := e
  cases e with
  | relation =>
    refine ⟨true, ?_, hrows, hf⟩
    simp only [Sent.event, onEvent, Table.message,
      parse_relationMessage t.plainSchema t.plainName t.fewColumns t.plainColumns]
    exact (List.append_nil cs).symm ▸ following_relation h lsn
  | change c =>
    obtain ⟨hknown, hc, hf⟩ := hf
    obtain ⟨msg, hparse, hpush⟩ := parse_message hrows hc
    refine ⟨known, ?_, hrows.apply hc, hf⟩
    simp only [Sent.event, onEvent, hparse, hpush]
    exact following_change h hknown c lsn
  | other data =>
    refine ⟨known, ?_, hrows, hf.2⟩
    exact (List.append_nil cs).symm ▸ following_other h hf.1 lsn
  | keepAlive =>
    exact ⟨known, (List.append_nil cs).symm ▸ h, hrows, hf⟩

theorem changes_cons (e : Sent) (entries : List Sent) :
    changes (e :: entries) = changes [e] ++ changes entries :=
  List.filterMap_append (l := [e]) ..

theorem applyAll_append (rows : Rows) (a b : List (Change × UInt64)) :
    applyAll t rows (a ++ b) = applyAll t (applyAll t rows a) b :=
  List.foldl_append

theorem following_entries {rest : List Sent} (entries : List Sent) :
    ∀ {known : Bool} {s : St} {cs : List (Change × UInt64)} {rows : Rows},
      Following t known s cs → RowsOk t rows → Follows t known rows (entries ++ rest) →
      ∃ known', Following t known' ((entries.map (Sent.event t)).foldl onEvent s) (cs ++ changes entries) ∧
        RowsOk t (applyAll t rows (changes entries)) ∧
        Follows t known' (applyAll t rows (changes entries)) rest := by
  induction entries with
  | nil =>
    intro known s cs rows h hrows hf
    exact ⟨known, by simpa [changes] using h, hrows, hf⟩
  | cons e entries ih =>
    intro known s cs rows h hrows hf
    obtain ⟨known₁, h₁, hrows₁, hf₁⟩ := following_entry h hrows hf
    obtain ⟨known₂, h₂, hrows₂, hf₂⟩ := ih h₁ hrows₁ hf₁
    rw [changes_cons, applyAll_append, ← List.append_assoc]
    exact ⟨known₂, h₂, hrows₂, hf₂⟩

theorem following_transactions (txs : List Transaction) :
    ∀ {known : Bool} {s : St} {cs : List (Change × UInt64)} {rows : Rows},
      Following t known s cs → s.pendingBatches = [] → RowsOk t rows →
      Follows t known rows (entriesOf txs) →
      t.rows ((txs.flatMap (Transaction.events t)).foldl onEvent s).submitted =
        (cs ++ changes (entriesOf txs)).map (Change.event t) := by
  induction txs with
  | nil =>
    intro known s cs rows h hpending _ _
    have hall := h.rows
    rw [hpending, List.append_nil] at hall
    simpa [entriesOf, changes] using hall
  | cons tx txs ih =>
    intro known s cs rows h hpending hrows hf
    obtain ⟨known', h', hrows', hf'⟩ := following_entries tx.entries h hrows hf
    have hcommitted : Following t known'
        (onEvent ((tx.entries.map (Sent.event t)).foldl onEvent s) (.commit tx.commitLsn))
        (cs ++ changes tx.entries) := by
      refine ⟨h'.relation, h'.others, ?_⟩
      simp only [onEvent, List.append_nil]
      exact h'.rows
    have hrest := ih hcommitted rfl hrows' hf'
    have hchanges : changes (entriesOf (tx :: txs)) = changes tx.entries ++ changes (entriesOf txs) :=
      List.filterMap_append
    rw [hchanges, ← List.append_assoc, ← hrest, List.flatMap_cons, List.foldl_append,
      Transaction.events, List.foldl_append]
    rfl

theorem syncCdc_eq_foldl (s : St) (events : List ReplicationEvent)
    (h : ReplicationEvent.stoppedAt ∉ events) : syncCdc s events = events.foldl onEvent s := by
  induction events generalizing s with
  | nil => rfl
  | cons e events ih =>
    rw [List.mem_cons, not_or] at h
    cases e with
    | stoppedAt => exact absurd rfl h.1
    | _ => exact ih _ h.2

theorem rows_syncCdc {txs : List Transaction} (h : Delivered t txs) :
    t.rows (syncCdc start (txs.flatMap (Transaction.events t))).submitted =
      (changes (entriesOf txs)).map (Change.event t) := by
  have hno : ReplicationEvent.stoppedAt ∉ txs.flatMap (Transaction.events t) := by
    intro hmem
    obtain ⟨tx, -, hmem⟩ := List.mem_flatMap.1 hmem
    simp only [Transaction.events, List.cons_append, List.mem_cons, reduceCtorEq, List.mem_append,
      List.mem_map, List.not_mem_nil, or_false, false_or] at hmem
    obtain ⟨⟨e, lsn⟩, -, heq⟩ := hmem
    cases e <;> cases heq
  have hempty : RowsOk t ∅ := by
    intro k row hget
    cases hget
  have hstart : Following t false start [] :=
    ⟨(fun h => by cases h), (fun _ _ _ _ hget => by cases hget), rfl⟩
  rw [syncCdc_eq_foldl _ _ hno]
  exact following_transactions txs hstart rfl hempty h.follows

end Run

/-! ## The last change of a key -/

section Last
variable {t : Table} {rows : Rows} {cs pre post : List (Change × UInt64)} {c : Change × UInt64} {k : Key}

def History (t : Table) : Rows → List (Change × UInt64) → Prop
  | _, [] => True
  | rows, c :: cs => c.1.Applies t rows ∧ History t (c.1.apply t rows) cs

theorem history_of_follows {known : Bool} {entries : List Sent} (h : Follows t known rows entries) :
    History t rows (changes entries) := by
  induction entries generalizing known rows with
  | nil => trivial
  | cons e entries ih =>
    obtain ⟨e, lsn⟩ := e
    cases e with
    | relation | keepAlive => exact ih h
    | change c => exact ⟨h.2.1, ih h.2.2⟩
    | other data => exact ih h.2

theorem history_append :
    History t rows (pre ++ post) ↔ History t rows pre ∧ History t (applyAll t rows pre) post := by
  induction pre generalizing rows with
  | nil => exact iff_of_eq (true_and _).symm
  | cons c pre ih =>
    rw [List.cons_append, History, History, ih, and_assoc]
    rfl

theorem RowsOk.applyAll (h : RowsOk t rows) (hcs : History t rows cs) :
    RowsOk t (applyAll t rows cs) := by
  induction cs generalizing rows with
  | nil => exact h
  | cons c cs ih => exact ih (h.apply hcs.1) hcs.2

theorem get_apply_of_notMem (h : k ∉ c.1.keys t) : (c.1.apply t rows).get k = rows.get k := by
  obtain ⟨c, lsn⟩ := c
  cases c with
  | insert row =>
    rw [Change.apply, Map.get_insert, if_neg]
    exact fun heq => h (List.mem_singleton.2 heq)
  | update old sentOld new =>
    simp only [Change.keys, List.mem_cons, List.not_mem_nil, or_false, not_or] at h
    rw [Change.apply, Map.get_insert, if_neg h.2, Map.get_erase, if_neg h.1]
  | delete row kind =>
    rw [Change.apply, Map.get_erase, if_neg]
    exact fun heq => h (List.mem_singleton.2 heq)

theorem get_applyAll_of_notMem (h : ∀ c ∈ cs, k ∉ c.1.keys t) :
    (applyAll t rows cs).get k = rows.get k := by
  induction cs generalizing rows with
  | nil => rfl
  | cons c cs ih =>
    have hrest : (applyAll t (c.1.apply t rows) cs).get k = (c.1.apply t rows).get k :=
      ih (List.forall_mem_cons.1 h).2
    exact hrest.trans (get_apply_of_notMem (h c List.mem_cons_self))

def Change.leaves (t : Table) (k : Key) : Change → Option TupleData
  | .insert row => some row
  | .update _ _ new => if t.keyOf (newRow new) = k then some (newRow new) else none
  | .delete _ _ => none

theorem get_apply_of_mem (h : k ∈ c.1.keys t) : (c.1.apply t rows).get k = c.1.leaves t k := by
  obtain ⟨c, lsn⟩ := c
  cases c with
  | insert row =>
    obtain rfl := List.mem_singleton.1 h
    rw [Change.apply, Map.get_insert, if_pos rfl, Change.leaves]
  | update old sentOld new =>
    simp only [Change.keys, List.mem_cons, List.not_mem_nil, or_false] at h
    rw [Change.apply, Map.get_insert, Map.get_erase, Change.leaves]
    by_cases hnew : k = t.keyOf (Change.newRow new)
    · rw [if_pos hnew, if_pos hnew.symm]
    · rw [if_neg hnew, if_neg (Ne.symm hnew), if_pos (h.resolve_right hnew)]
  | delete row kind =>
    obtain rfl := List.mem_singleton.1 h
    rw [Change.apply, Map.get_erase, if_pos rfl, Change.leaves]

theorem get_applyAll_last (hk : k ∈ c.1.keys t) (hpost : ∀ c' ∈ post, k ∉ c'.1.keys t) :
    (applyAll t rows (pre ++ c :: post)).get k = c.1.leaves t k := by
  rw [applyAll_append]
  exact (get_applyAll_of_notMem hpost).trans (get_apply_of_mem hk)

theorem exists_last (t : Table) (k : Key) (cs : List (Change × UInt64)) :
    (∀ c ∈ cs, k ∉ c.1.keys t) ∨
      ∃ pre c post, cs = pre ++ c :: post ∧ k ∈ c.1.keys t ∧ ∀ c' ∈ post, k ∉ c'.1.keys t := by
  induction cs with
  | nil => exact .inl fun c hc => absurd hc List.not_mem_nil
  | cons c cs ih =>
    rcases ih with hnone | ⟨pre, c', post, rfl, hc', hpost⟩
    · by_cases hc : k ∈ c.1.keys t
      · exact .inr ⟨[], c, cs, rfl, hc, hnone⟩
      · exact .inl (List.forall_mem_cons.2 ⟨hc, hnone⟩)
    · exact .inr ⟨c :: pre, c', post, rfl, hc', hpost⟩

theorem lastKept_iff : LastKept t cs ↔ ∀ pre c post, cs = pre ++ c :: post →
    ∀ k ∈ c.1.keys t, (∀ c' ∈ post, k ∉ c'.1.keys t) → c.1.Keeps t k := by
  induction cs with
  | nil => simp [LastKept]
  | cons c cs ih =>
    rw [LastKept, ih]
    constructor
    · rintro ⟨hc, hcs⟩ pre c' post heq
      cases pre with
      | nil =>
        cases heq
        exact hc
      | cons b pre =>
        cases heq
        exact hcs pre c' post rfl
    · intro h
      refine ⟨h [] c cs rfl, fun pre c' post heq => ?_⟩
      exact h (c :: pre) c' post (by rw [heq, List.cons_append])

/-! ### The row it leaves -/

def Change.target (t : Table) : Change → Key
  | .insert row => t.keyOf row
  | .update _ _ new => t.keyOf (newRow new)
  | .delete row _ => t.keyOf row

theorem target_mem_keys (c : Change) : c.target t ∈ c.keys t := by
  cases c <;> simp [Change.target, Change.keys]

theorem rowKey_event (h : c.1.KeySent t) : t.rowKey (Change.event t c).row = c.1.target t := by
  obtain ⟨c, lsn⟩ := c
  cases c with
  | insert row => rfl
  | update old sentOld new =>
    refine keyOf_congr fun c v hc => ?_
    simp only [Change.newRow, Change.sentTuple, mem_zip_map]
    refine exists_congr fun x => and_congr_right fun hmem => ?_
    rw [SentColumn.parsed_of_sent (h (c, x) hmem hc)]
  | delete row kind => exact keyOf_oldTuple row kind

def sinkRow (t : Table) (cs : List (Change × UInt64)) (k : Key) : Option Json :=
  (latest (fun row => some (t.rowKey row)) k (cs.map (Change.event t))).bind Event.effect

theorem lsnBytes_lt {a b : UInt64} (h : a < b) : lsnBytes a < lsnBytes b :=
  (beBytes_lt_iff a.toNat_lt b.toNat_lt).2 (UInt64.lt_iff_toNat_lt.1 h)

theorem sinkRow_of_last (hsent : ∀ c' ∈ pre ++ c :: post, c'.1.KeySent t)
    (horder : InOrder t (pre ++ c :: post)) (htarget : c.1.target t = k)
    (hpost : ∀ c' ∈ post, k ∉ c'.1.keys t) :
    sinkRow t (pre ++ c :: post) k = (Change.event t c).effect := by
  have hmem : c ∈ pre ++ c :: post := List.mem_append_right _ List.mem_cons_self
  have hwins : ∀ e ∈ ofKey (Event.key fun row => some (t.rowKey row)) k
      ((pre ++ c :: post).map (Change.event t)),
      e = Change.event t c ∨ e.orderToken < (Change.event t c).orderToken := by
    intro e he
    obtain ⟨he, hkey⟩ := (mem_ofKey _ _).1 he
    obtain ⟨c', hc', rfl⟩ := List.mem_map.1 he
    have hk : k ∈ c'.1.keys t := by
      rw [← Option.some.inj hkey, rowKey_event (hsent c' hc')]
      exact target_mem_keys c'.1
    rcases List.mem_append.1 hc' with hpre | hrest
    · have hbefore := (List.pairwise_append.1 horder).2.2 c' hpre c List.mem_cons_self
      refine .inr (lsnBytes_lt (hbefore ⟨k, hk, ?_⟩))
      rw [← htarget]
      exact target_mem_keys c.1
    · rcases List.mem_cons.1 hrest with rfl | hlater
      · exact .inl rfl
      · exact absurd hk (hpost c' hlater)
  have hshown : Event.key (fun row => some (t.rowKey row)) (Change.event t c) = some k := by
    rw [← htarget, ← rowKey_event (hsent c hmem)]
    rfl
  unfold sinkRow latest
  rw [greatest_eq_some Event.orderToken ((mem_ofKey _ _).2 ⟨List.mem_map_of_mem hmem, hshown⟩)
    (fun e he => (hwins e he).elim (fun heq => heq ▸ le_refl _) le_of_lt)
    (fun e he heq => (hwins e he).elim id fun hlt => absurd (heq ▸ hlt) (lt_irrefl _))]
  rfl

theorem sinkRow_append (hsent : ∀ c ∈ post, c.1.KeySent t) (hpost : ∀ c ∈ post, c.1.target t ≠ k) :
    sinkRow t (pre ++ post) k = sinkRow t pre k := by
  have hnil : ofKey (Event.key fun row => some (t.rowKey row)) k (post.map (Change.event t)) = [] := by
    refine List.eq_nil_iff_forall_not_mem.2 fun e he => ?_
    obtain ⟨he, hkey⟩ := (mem_ofKey _ _).1 he
    obtain ⟨c, hc, rfl⟩ := List.mem_map.1 he
    refine hpost c hc ?_
    rw [← rowKey_event (hsent c hc)]
    exact Option.some.inj hkey
  unfold sinkRow latest
  rw [List.map_append, ofKey_append, hnil, List.append_nil]

theorem sinkRow_of_notMem (hsent : ∀ c ∈ cs, c.1.KeySent t) (h : ∀ c ∈ cs, k ∉ c.1.keys t) :
    sinkRow t cs k = none := by
  have hother : ∀ c ∈ cs, c.1.target t ≠ k := fun c hc heq => h c hc (heq ▸ target_mem_keys c.1)
  have happend : sinkRow t ([] ++ cs) k = sinkRow t [] k := sinkRow_append hsent hother
  exact happend

theorem target_of_leaves {c : Change} (hk : k ∈ c.keys t) (h : c.leaves t k ≠ none) :
    c.target t = k ∧ c.kind ≠ .delete := by
  cases c with
  | insert row =>
    refine ⟨(List.mem_singleton.1 hk).symm, ?_⟩
    intro hkind
    cases hkind
  | update old sentOld new =>
    by_cases hnew : t.keyOf (Change.newRow new) = k
    · refine ⟨hnew, ?_⟩
      intro hkind
      cases hkind
    · exact absurd (if_neg hnew) h
  | delete row kind => exact absurd rfl h

theorem sinkRow_of_held (hsent : ∀ c ∈ cs, c.1.KeySent t) (horder : InOrder t cs)
    (hheld : (applyAll t ∅ cs).get k ≠ none) : sinkRow t cs k ≠ none := by
  rcases exists_last t k cs with hnone | ⟨pre, c, post, rfl, hk, hpost⟩
  · rw [get_applyAll_of_notMem hnone] at hheld
    exact absurd rfl hheld
  · rw [get_applyAll_last hk hpost] at hheld
    obtain ⟨htarget, hkind⟩ := target_of_leaves hk hheld
    have heffect : (Change.event t c).effect = some (Change.event t c).row := if_neg hkind
    rw [sinkRow_of_last hsent horder htarget hpost, heffect]
    exact Option.some_ne_none _

theorem sinkRow_last_iff (hhistory : History t ∅ (pre ++ c :: post))
    (hsent : ∀ c' ∈ pre ++ c :: post, c'.1.KeySent t) (horder : InOrder t (pre ++ c :: post))
    (hk : k ∈ c.1.keys t) (hpost : ∀ c' ∈ post, k ∉ c'.1.keys t) :
    sinkRow t (pre ++ c :: post) k =
        ((applyAll t ∅ (pre ++ c :: post)).get k).map (tupleToJson t.pgColumns) ↔
      c.1.Keeps t k := by
  rw [get_applyAll_last hk hpost]
  by_cases htarget : c.1.target t = k
  · rw [sinkRow_of_last hsent horder htarget hpost]
    obtain ⟨c, lsn⟩ := c
    cases c with
    | insert row | delete row kind => exact iff_of_true rfl trivial
    | update old sentOld new =>
      have hlen : new.length = t.columns.length := by
        have happlies := ((history_append.1 hhistory).2.1.2.1).1
        rw [Change.newRow, List.length_map] at happlies
        exact happlies
      have hnew : t.keyOf (Change.newRow new) = k := htarget
      rw [Change.leaves, if_pos hnew, Change.Keeps, and_iff_right hnew, ← json_parsed_iff hlen]
      exact Option.some_inj
  · -- The row went to another key, and nobody has told the sink.
    obtain ⟨c, lsn⟩ := c
    cases c with
    | insert row | delete row kind => exact absurd (List.mem_singleton.1 hk).symm htarget
    | update old sentOld new =>
      have hnew : t.keyOf (Change.newRow new) ≠ k := htarget
      refine iff_of_false ?_ fun hkeeps => hnew hkeeps.1
      have hold : k = t.keyOf old := by
        simp only [Change.keys, List.mem_cons, List.not_mem_nil, or_false] at hk
        exact hk.resolve_right (Ne.symm hnew)
      have hheld : (applyAll t ∅ pre).get k ≠ none := by
        rw [hold, (history_append.1 hhistory).2.1.1]
        exact Option.some_ne_none _
      have hothers : ∀ c' ∈ (Change.update old sentOld new, lsn) :: post, c'.1.target t ≠ k := by
        refine List.forall_mem_cons.2 ⟨htarget, fun c' hlater heq => ?_⟩
        exact hpost c' hlater (heq ▸ target_mem_keys c'.1)
      rw [sinkRow_append (List.forall_mem_append.1 hsent).2 hothers, Change.leaves,
        if_neg hnew]
      exact sinkRow_of_held (List.forall_mem_append.1 hsent).1
        (List.pairwise_append.1 horder).1 hheld

theorem exists_applies (hrows : RowsOk t rows) (hcs : History t rows cs) (hc : c ∈ cs) :
    ∃ rows', RowsOk t rows' ∧ c.1.Applies t rows' := by
  obtain ⟨pre, post, rfl⟩ := List.append_of_mem hc
  obtain ⟨hpre, happlies, -⟩ := history_append.1 hcs
  exact ⟨_, hrows.applyAll hpre, happlies⟩

theorem keySent_of_sink (hhistory : History t ∅ cs)
    (hsink : ∀ k, sinkRow t cs k = ((applyAll t ∅ cs).get k).map (tupleToJson t.pgColumns)) :
    ∀ c ∈ cs, c.1.KeySent t := by
  intro c hc
  by_contra hnot
  have hempty : RowsOk t ∅ := by
    intro k row hget
    cases hget
  obtain ⟨c, lsn⟩ := c
  cases c with
  | insert row | delete row kind => exact hnot trivial
  | update old sentOld new =>
    have hnull := null_mem_keyOf hnot
    have habsent : (applyAll t ∅ cs).get (t.keyOf (new.map SentColumn.parsed)) = none := by
      rw [Option.eq_none_iff_forall_ne_some]
      intro row hrow
      obtain ⟨hisRow, hkey⟩ := (hempty.applyAll hhistory) _ _ hrow
      rw [← hkey] at hnull
      exact hisRow.2.1 none hnull rfl
    have hnone := hsink (t.keyOf (new.map SentColumn.parsed))
    rw [habsent, Option.map_none, sinkRow, Option.bind_eq_none_iff] at hnone
    have hshown : Change.event t (.update old sentOld new, lsn) ∈
        ofKey (Event.key fun row => some (t.rowKey row)) (t.keyOf (new.map SentColumn.parsed))
          (cs.map (Change.event t)) := (mem_ofKey _ _).2 ⟨List.mem_map_of_mem hc, rfl⟩
    cases hlatest : latest (fun row => some (t.rowKey row)) (t.keyOf (new.map SentColumn.parsed))
        (cs.map (Change.event t)) with
    | none =>
      rw [(greatest_eq_none _).1 hlatest] at hshown
      cases hshown
    | some e =>
      obtain ⟨he, hkey⟩ := (mem_ofKey _ _).1 (mem_of_greatest _ hlatest)
      obtain ⟨⟨c', lsn'⟩, hc', rfl⟩ := List.mem_map.1 he
      have heffect := hnone _ hlatest
      cases c' with
      | insert row | update old' sentOld' new' => cases heffect
      | delete row kind =>
        obtain ⟨rows', hrows', happlies⟩ := exists_applies hempty hhistory hc'
        have hkey' : t.keyOf row = t.keyOf (new.map SentColumn.parsed) :=
          (keyOf_oldTuple row kind).symm.trans (Option.some.inj hkey)
        rw [← hkey'] at hnull
        exact (hrows' _ _ happlies).1.2.1 none hnull rfl

end Last

/-! ## The table's final rows -/

/-- The rows of greatest order token that `sync_cdc` has submitted are the rows of
the table, if and only if every update has sent the key columns, and the last
change that concerns a key has sent the whole row and left it under the key. -/
theorem replicated_iff (t : Table) (txs : List Transaction) (h : Delivered t txs) :
    SinkIsTable t (t.rows (syncCdc start (txs.flatMap (Transaction.events t))).submitted)
        (applyAll t ∅ (changes (entriesOf txs))) ↔
      (∀ c ∈ changes (entriesOf txs), c.1.KeySent t) ∧ LastKept t (changes (entriesOf txs)) := by
  have hhistory := history_of_follows h.follows
  rw [rows_syncCdc h]
  change (∀ k, sinkRow t (changes (entriesOf txs)) k = _) ↔ _
  have horder := h.inOrder
  generalize changes (entriesOf txs) = cs at hhistory horder
  constructor
  · intro hsink
    have hsent := keySent_of_sink hhistory hsink
    refine ⟨hsent, lastKept_iff.2 ?_⟩
    rintro pre c post rfl k hk hpost
    exact (sinkRow_last_iff hhistory hsent horder hk hpost).1 (hsink k)
  · rintro ⟨hsent, hkept⟩ k
    rcases exists_last t k cs with hnone | ⟨pre, c, post, rfl, hk, hpost⟩
    · rw [sinkRow_of_notMem hsent hnone, get_applyAll_of_notMem hnone]
      rfl
    · exact (sinkRow_last_iff hhistory hsent horder hk hpost).2
        (lastKept_iff.1 hkept pre c post rfl k hk hpost)

def notes : Table where
  oid := 16384
  schema := ['p', 'u', 'b', 'l', 'i', 'c']
  name := ['n', 'o', 't', 'e', 's']
  replicaIdentity := 'd'.toUInt8
  columns := [⟨1, ⟨['i', 'd'], 23⟩, 0⟩, ⟨0, ⟨['n', 'o', 't', 'e'], 25⟩, 0⟩]
  key := [['i', 'd']]
  distinct := by decide
  keyColumns := by decide
  fewColumns := by decide
  plainSchema := by decide
  plainName := by decide
  plainColumns := by decide

def note (id : Char) (text : Text) : TupleData := [some [id], some text]

def movedAndReplaced : List Transaction :=
  [⟨[(.relation, 10), (.change (.insert (note '1' ['a'])), 20)], 25⟩,
    ⟨[(.change (.update (note '1' ['a']) (some .key) [.text ['2'], .text ['a']]), 30),
      (.change (.insert (note '1' ['b'])), 40)], 45⟩]

theorem replicated_movedAndReplaced :
    Delivered notes movedAndReplaced ∧
      SinkIsTable notes
        (notes.rows (syncCdc start (movedAndReplaced.flatMap (Transaction.events notes))).submitted)
        (applyAll notes ∅ (changes (entriesOf movedAndReplaced))) := by
  have hdelivered : Delivered notes movedAndReplaced := ⟨by decide +kernel, by decide +kernel⟩
  have hkept : (∀ c ∈ changes (entriesOf movedAndReplaced), c.1.KeySent notes) ∧
      LastKept notes (changes (entriesOf movedAndReplaced)) := by decide +kernel
  exact ⟨hdelivered, (replicated_iff notes movedAndReplaced hdelivered).2 hkept⟩

def moved : List Transaction :=
  [⟨[(.relation, 10), (.change (.insert (note '1' ['a'])), 20)], 25⟩,
    ⟨[(.change (.update (note '1' ['a']) (some .key) [.text ['2'], .text ['a']]), 30)], 35⟩]

/-- The old tuple is decoded and not used: the row is still there under its old
key. -/
theorem moved_row_stays :
    Delivered notes moved ∧
      ¬ SinkIsTable notes
        (notes.rows (syncCdc start (moved.flatMap (Transaction.events notes))).submitted)
        (applyAll notes ∅ (changes (entriesOf moved))) := by
  have hdelivered : Delivered notes moved := ⟨by decide +kernel, by decide +kernel⟩
  refine ⟨hdelivered, fun hsink => ?_⟩
  rw [rows_syncCdc hdelivered] at hsink
  have hstays : sinkRow notes (changes (entriesOf moved)) [some ['1']] ≠
      ((applyAll notes ∅ (changes (entriesOf moved))).get [some ['1']]).map
        (tupleToJson notes.pgColumns) := by decide +kernel
  exact hstays (hsink [some ['1']])

end Skippr.L11.Postgres
