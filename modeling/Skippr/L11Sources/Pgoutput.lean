import Skippr.Core.ByteCursor

/-!
# pgoutput messages (plugins/data_source/postgres/src/pgoutput.rs)

The decoder of the logical replication protocol, and next to it what a server
writes: a tuple has for each column its text, a mark for NULL, or a mark for a
TOASTed value that the update has left alone. The decoder has one result for
the two marks.
-/
namespace Skippr.L11.Postgres

open ByteCursor

/-! ## The decoder -/

structure PgColumn where
  name : Text
  typeOid : UInt32
deriving DecidableEq, Repr

abbrev TupleData := List (Option Text)

inductive PgOutputMessage
  | relation (oid : UInt32) (schema name : Text) (columns : List PgColumn)
  | insert (oid : UInt32) (newRow : TupleData)
  | update (oid : UInt32) (oldRow : Option TupleData) (newRow : TupleData)
  | delete (oid : UInt32) (oldRow : TupleData)
deriving DecidableEq, Repr

def readU16 : ByteCursor Nat := readBe 2

def readU32 : ByteCursor UInt32 := do
  let n ← readBe 4
  return UInt32.ofNat n

/-- mirrors pgoutput.rs:122-132 -/
def parseColumn : ByteCursor (Option Text) := do
  let tag ← readU8
  if tag = 'n'.toUInt8 then return none
  else if tag = 't'.toUInt8 then
    let len ← readBe 4
    let text ← readText len
    return some text
  else return none

/-- mirrors pgoutput.rs:118-135 -/
def parseTuple : ByteCursor TupleData := do
  let nCols ← readU16
  times parseColumn nCols

/-- mirrors pgoutput.rs:146-155 -/
def parseRelationColumn : ByteCursor PgColumn := do
  let _flags ← readU8
  let name ← readCString
  let typeOid ← readU32
  let _typeModifier ← readU32
  return ⟨name, typeOid⟩

/-- mirrors pgoutput.rs:137-162 -/
def parseRelation : ByteCursor PgOutputMessage := do
  let oid ← readU32
  let schema ← readCString
  let name ← readCString
  let _replicaIdentity ← readU8
  let colCount ← readU16
  let columns ← times parseRelationColumn colCount
  return .relation oid schema name columns

/-- mirrors pgoutput.rs:164-173 -/
def parseInsert : ByteCursor PgOutputMessage := do
  let oid ← readU32
  let tag ← readU8
  if tag = 'N'.toUInt8 then
    let newRow ← parseTuple
    return .insert oid newRow
  else failure

/-- mirrors pgoutput.rs:175-192 -/
def parseUpdate : ByteCursor PgOutputMessage := do
  let oid ← readU32
  let tag ← readU8
  if tag = 'K'.toUInt8 ∨ tag = 'O'.toUInt8 then
    let tuple ← parseTuple
    let _newTag ← readU8
    let newRow ← parseTuple
    return .update oid (some tuple) newRow
  else
    let newRow ← parseTuple
    return .update oid none newRow

/-- mirrors pgoutput.rs:194-202 -/
def parseDelete : ByteCursor PgOutputMessage := do
  let oid ← readU32
  let tag ← readU8
  if tag = 'K'.toUInt8 ∨ tag = 'O'.toUInt8 then
    let oldRow ← parseTuple
    return .delete oid oldRow
  else failure

/-- mirrors pgoutput.rs:36-47 -/
def parse : List UInt8 → Option PgOutputMessage
  | [] => none
  | tag :: data =>
    if tag = 'R'.toUInt8 then parseRelation.run' data
    else if tag = 'I'.toUInt8 then parseInsert.run' data
    else if tag = 'U'.toUInt8 then parseUpdate.run' data
    else if tag = 'D'.toUInt8 then parseDelete.run' data
    else none

/-! ## What a server writes -/

/-- A column of a tuple. The value of an unchanged TOASTed column, which is not
NULL, does not go on the wire. -/
inductive SentColumn
  | null
  | text (s : Text)
  | unchangedToast (s : Text)
deriving DecidableEq, Repr

namespace SentColumn

def value : SentColumn → Option Text
  | .null => none
  | .text s => some s
  | .unchangedToast s => some s

def parsed : SentColumn → Option Text
  | .null => none
  | .text s => some s
  | .unchangedToast _ => none

def ofValue : Option Text → SentColumn
  | none => .null
  | some s => .text s

def sent : SentColumn → Bool
  | .unchangedToast _ => false
  | _ => true

theorem parsed_of_sent {c : SentColumn} (h : c.sent = true) : c.parsed = c.value := by
  cases c with
  | unchangedToast s => cases h
  | _ => rfl

theorem parsed_of_not_sent {c : SentColumn} (h : c.sent = false) :
    c.parsed = none ∧ c.value ≠ none := by
  cases c with
  | unchangedToast s => exact ⟨rfl, Option.some_ne_none s⟩
  | _ => cases h

@[simp] theorem parsed_ofValue (v : Option Text) : (ofValue v).parsed = v := by
  cases v <;> rfl

def bytes : SentColumn → List UInt8
  | .null => ['n'.toUInt8]
  | .text s => 't'.toUInt8 :: ((beBytes 4 (toUtf8 s).length).map UInt8.ofFin ++ toUtf8 s)
  | .unchangedToast _ => ['u'.toUInt8]

def Fits : SentColumn → Prop
  | .text s => (toUtf8 s).length < 2 ^ 32
  | _ => True

instance decidableFits : DecidablePred Fits
  | .null => .isTrue trivial
  | .text s => inferInstanceAs (Decidable ((toUtf8 s).length < 2 ^ 32))
  | .unchangedToast _ => .isTrue trivial

end SentColumn

def u16Bytes (n : Nat) : List UInt8 := (beBytes 2 n).map UInt8.ofFin

def u32Bytes (n : UInt32) : List UInt8 := (beBytes 4 n.toNat).map UInt8.ofFin

def cString (t : Text) : List UInt8 := toUtf8 t ++ [0]

def tupleBytes (tuple : List SentColumn) : List UInt8 :=
  u16Bytes tuple.length ++ tuple.flatMap SentColumn.bytes

def TupleFits (tuple : List SentColumn) : Prop := tuple.length < 2 ^ 16 ∧ ∀ c ∈ tuple, c.Fits

structure RelationColumn where
  flags : UInt8
  column : PgColumn
  typeModifier : UInt32
deriving DecidableEq, Repr

def RelationColumn.bytes (c : RelationColumn) : List UInt8 :=
  [c.flags] ++ (cString c.column.name ++ (u32Bytes c.column.typeOid ++ u32Bytes c.typeModifier))

inductive OldTuple
  | key
  | full
deriving DecidableEq, Repr

def OldTuple.tag : OldTuple → UInt8
  | .key => 'K'.toUInt8
  | .full => 'O'.toUInt8

def relationMessage (oid : UInt32) (schema name : Text) (replicaIdentity : UInt8)
    (columns : List RelationColumn) : List UInt8 :=
  'R'.toUInt8 :: (u32Bytes oid ++ (cString schema ++ (cString name ++ ([replicaIdentity] ++
    (u16Bytes columns.length ++ columns.flatMap RelationColumn.bytes)))))

def insertMessage (oid : UInt32) (newRow : List SentColumn) : List UInt8 :=
  'I'.toUInt8 :: (u32Bytes oid ++ (['N'.toUInt8] ++ tupleBytes newRow))

def updateMessage (oid : UInt32) (oldRow : Option (OldTuple × List SentColumn))
    (newRow : List SentColumn) : List UInt8 :=
  'U'.toUInt8 :: (u32Bytes oid ++ match oldRow with
    | none => ['N'.toUInt8] ++ tupleBytes newRow
    | some (kind, tuple) =>
      [kind.tag] ++ (tupleBytes tuple ++ (['N'.toUInt8] ++ tupleBytes newRow)))

def deleteMessage (oid : UInt32) (kind : OldTuple) (oldRow : List SentColumn) : List UInt8 :=
  'D'.toUInt8 :: (u32Bytes oid ++ ([kind.tag] ++ tupleBytes oldRow))

/-! ## The decoder reads it -/

theorem reads_readU16 {n : Nat} (h : n < 2 ^ 16) : Reads readU16 (u16Bytes n) n := reads_readBe h

theorem reads_readU32 (n : UInt32) : Reads readU32 (u32Bytes n) n := by
  have hlt : n.toNat < 256 ^ 4 := n.toNat_lt
  have hread := (reads_readBe hlt).map UInt32.ofNat
  rw [UInt32.ofNat_toNat] at hread
  exact hread

theorem reads_parseColumn {c : SentColumn} (h : c.Fits) : Reads parseColumn c.bytes c.parsed := by
  cases c with
  | null | unchangedToast s => exact fun _ => rfl
  | text s =>
    have hlen : (toUtf8 s).length < 256 ^ 4 := h
    exact (reads_readU8 _).bind ((reads_readBe hlen).bind ((reads_readText s).map some))

theorem reads_parseTuple {tuple : List SentColumn} (h : TupleFits tuple) :
    Reads parseTuple (tupleBytes tuple) (tuple.map SentColumn.parsed) :=
  (reads_readU16 h.1).bind (Reads.times fun c hc => reads_parseColumn (h.2 c hc))

theorem reads_parseRelationColumn {c : RelationColumn} (h : Char.ofNat 0 ∉ c.column.name) :
    Reads parseRelationColumn c.bytes c.column :=
  (reads_readU8 _).bind ((reads_readCString h).bind ((reads_readU32 _).bind
    ((reads_readU32 _).map fun _ => c.column)))

theorem run'_of_reads {p : ByteCursor PgOutputMessage} {bytes : List UInt8} {m : PgOutputMessage}
    (h : Reads p bytes m) : p.run' bytes = some m := by
  have hrun := h []
  rw [List.append_nil] at hrun
  change (fun x => x.1) <$> p bytes = some m
  rw [show p bytes = some (m, []) from hrun]
  rfl

theorem parse_relationMessage {oid : UInt32} {schema name : Text} {replicaIdentity : UInt8}
    {columns : List RelationColumn} (hschema : Char.ofNat 0 ∉ schema) (hname : Char.ofNat 0 ∉ name)
    (hlen : columns.length < 2 ^ 16) (hcolumns : ∀ c ∈ columns, Char.ofNat 0 ∉ c.column.name) :
    parse (relationMessage oid schema name replicaIdentity columns) =
      some (.relation oid schema name (columns.map RelationColumn.column)) := by
  have hread : Reads parseRelation _ _ := (reads_readU32 oid).bind ((reads_readCString hschema).bind
    ((reads_readCString hname).bind ((reads_readU8 replicaIdentity).bind ((reads_readU16 hlen).bind
      ((Reads.times fun c hc => reads_parseRelationColumn (hcolumns c hc)).map
        fun columns => PgOutputMessage.relation oid schema name columns)))))
  exact run'_of_reads hread

theorem parse_insertMessage {oid : UInt32} {newRow : List SentColumn} (h : TupleFits newRow) :
    parse (insertMessage oid newRow) = some (.insert oid (newRow.map SentColumn.parsed)) := by
  have hread : Reads parseInsert _ _ := (reads_readU32 oid).bind ((reads_readU8 'N'.toUInt8).bind
    ((reads_parseTuple h).map fun row => PgOutputMessage.insert oid row))
  exact run'_of_reads hread

theorem parse_updateMessage {oid : UInt32} {oldRow : Option (OldTuple × List SentColumn)}
    {newRow : List SentColumn} (hold : ∀ old ∈ oldRow, TupleFits old.2) (hnew : TupleFits newRow) :
    parse (updateMessage oid oldRow newRow) =
      some (.update oid (oldRow.map fun old => old.2.map SentColumn.parsed)
        (newRow.map SentColumn.parsed)) := by
  cases oldRow with
  | none =>
    have hread : Reads parseUpdate _ _ := (reads_readU32 oid).bind ((reads_readU8 'N'.toUInt8).bind
      ((reads_parseTuple hnew).map fun row => PgOutputMessage.update oid none row))
    exact run'_of_reads hread
  | some old =>
    obtain ⟨kind, tuple⟩ := old
    have htuple : TupleFits tuple := hold _ rfl
    have hrest : Reads (do
        let tuple ← parseTuple
        let _newTag ← readU8
        let newRow ← parseTuple
        return PgOutputMessage.update oid (some tuple) newRow) _ _ :=
      (reads_parseTuple htuple).bind ((reads_readU8 'N'.toUInt8).bind
      ((reads_parseTuple hnew).map fun row =>
        PgOutputMessage.update oid (some (tuple.map SentColumn.parsed)) row))
    cases kind with
    | key => exact run'_of_reads ((reads_readU32 oid).bind ((reads_readU8 'K'.toUInt8).bind hrest))
    | full => exact run'_of_reads ((reads_readU32 oid).bind ((reads_readU8 'O'.toUInt8).bind hrest))

theorem parse_deleteMessage {oid : UInt32} {kind : OldTuple} {oldRow : List SentColumn}
    (h : TupleFits oldRow) :
    parse (deleteMessage oid kind oldRow) = some (.delete oid (oldRow.map SentColumn.parsed)) := by
  have hrest := (reads_parseTuple h).map fun row => PgOutputMessage.delete oid row
  cases kind with
  | key => exact run'_of_reads ((reads_readU32 oid).bind ((reads_readU8 'K'.toUInt8).bind hrest))
  | full => exact run'_of_reads ((reads_readU32 oid).bind ((reads_readU8 'O'.toUInt8).bind hrest))

end Skippr.L11.Postgres
