import Skippr.Core.Sql
import Skippr.L6Lake.CdcFinalState

/-!
# CDC batches as warehouse SQL (plugins/shared/cdc_apply_core.rs)

A batch of CDC rows is applied to a warehouse table with the help of a table of
tombstones, which keeps the order token of the last delete of a key. The bulk
path stages the rows, picks one winner per business key and runs set-based
statements on both tables; the guarded path runs two statements per row.

A generated statement is given as what it does to the tables. The literals of the
values are as they are generated; what the warehouse reads from one, in a column
of a given type, is a parameter (`evaluate`), as is whether it takes it at all.
-/
namespace Skippr.L10

open Skippr.Sql Skippr.L6.Cdc

/-! ## Batches -/

inductive CdcApplyValue
  | null
  | boolean (b : Bool)
  | signed (n : Int)
  | unsigned (n : Nat)
  | float (text : Text)
  | text (text : Text)
  | binary (bytes : List (Fin 256))
  | date (text : Text)
  | timestamp (text : Text)
deriving DecidableEq, Repr

structure CdcApplyColumn where
  name : Text
  targetType : Text
deriving DecidableEq, Repr

inductive CdcApplyMutation
  | upsert
  | delete
deriving DecidableEq, Repr

structure CdcApplyRowMetadata where
  mutation : CdcApplyMutation
  orderToken : OrderToken
  sourceOrdinal : Nat
deriving DecidableEq, Repr

structure CdcApplyRow where
  metadata : CdcApplyRowMetadata
  values : List CdcApplyValue
deriving DecidableEq, Repr

structure CdcApplyBatch where
  columns : List CdcApplyColumn
  businessKeyColumns : List Text
  rows : List CdcApplyRow
deriving DecidableEq, Repr

/-- mirrors cdc_apply_core.rs:640-647 -/
inductive CdcWarehouseDialect
  | snowflake
  | bigQuery
  | redshift
  | synapse
  | motherDuck
deriving DecidableEq, Repr

inductive CdcApplyBatchError
  /-- `CDC apply batch has no target columns` -/
  | noColumns
  /-- `CDC apply batch has no business key columns` -/
  | noBusinessKeyColumns
  /-- `CDC apply batch has no rows` -/
  | noRows
  /-- `CDC target column {column:?} has no target type` -/
  | emptyTargetType (column : Text)
  /-- `CDC target column {column:?} is duplicated` -/
  | duplicateColumn (column : Text)
  /-- `CDC business key column {column:?} is not in the batch` -/
  | missingBusinessKeyColumn (column : Text)
  /-- `CDC row {row} has {actual} values; expected {expected}` -/
  | rowWidth (row expected actual : Nat)
  /-- `CDC row {row} has an empty order token` -/
  | emptyOrderToken (row : Nat)
  /-- `CDC source ordinal {ordinal} is duplicated` -/
  | duplicateSourceOrdinal (ordinal : Nat)
  /-- `{dialect} CDC staging row count is {actual}; limit is {limit}` -/
  | warehouseStageLimit (dialect : CdcWarehouseDialect) (actual limit : Nat)
deriving DecidableEq, Repr

def isWhitespace (c : Char) : Bool :=
  let n := c.toNat
  (9 ≤ n && n ≤ 13) || (0x2000 ≤ n && n ≤ 0x200A) ||
    n ∈ [0x20, 0x85, 0xA0, 0x1680, 0x2028, 0x2029, 0x202F, 0x205F, 0x3000]

/-- The names of the columns, which are checked on the way.
mirrors cdc_apply_core.rs:417-429 -/
def validateColumns : List Text → List CdcApplyColumn → Except CdcApplyBatchError (List Text)
  | names, [] => .ok names
  | names, column :: columns =>
    if column.targetType.all isWhitespace then .error (.emptyTargetType column.name)
    else if column.name ∈ names then .error (.duplicateColumn column.name)
    else validateColumns (column.name :: names) columns

/-- mirrors cdc_apply_core.rs:438-456 -/
def validateRows (width : Nat) : List Nat → Nat → List CdcApplyRow → Except CdcApplyBatchError Unit
  | _, _, [] => .ok ()
  | ordinals, idx, row :: rows =>
    if row.values.length ≠ width then .error (.rowWidth idx width row.values.length)
    else if row.metadata.orderToken = [] then .error (.emptyOrderToken idx)
    else if row.metadata.sourceOrdinal ∈ ordinals then
      .error (.duplicateSourceOrdinal row.metadata.sourceOrdinal)
    else validateRows width (row.metadata.sourceOrdinal :: ordinals) (idx + 1) rows

/-- mirrors cdc_apply_core.rs:409-458 -/
def CdcApplyBatch.validate (b : CdcApplyBatch) : Except CdcApplyBatchError Unit :=
  if b.columns = [] then .error .noColumns
  else if b.businessKeyColumns = [] then .error .noBusinessKeyColumns
  else match validateColumns [] b.columns with
    | .error e => .error e
    | .ok names =>
      match b.businessKeyColumns.find? (· ∉ names) with
      | some column => .error (.missingBusinessKeyColumn column)
      | none => validateRows b.columns.length [] 0 b.rows

/-- mirrors cdc_apply_core.rs:1235-1285 -/
def CdcWarehouseDialect.maxRows : CdcWarehouseDialect → Nat
  | .snowflake => 10000
  | .bigQuery => 10000
  | .redshift => 15000
  | .synapse => 100000
  | .motherDuck => 1000

/-! ## Literals -/

def apostrophe : Char := Char.ofNat 0x27

/-- mirrors cdc_apply_core.rs:1417-1419 -/
def sqlStringLiteral (value : Text) : Text :=
  apostrophe :: (value.flatMap fun c => if c = apostrophe then [c, c] else [c]) ++ [apostrophe]

namespace CdcWarehouseDialect

/-- mirrors cdc_apply_core.rs:1377-1384 -/
def binaryLiteral (hex : Text) : CdcWarehouseDialect → Text
  | .snowflake => "HEX_DECODE_BINARY(".toList ++ sqlStringLiteral hex ++ [')']
  | .bigQuery | .redshift => "FROM_HEX(".toList ++ sqlStringLiteral hex ++ [')']
  | .synapse => "CONVERT(VARBINARY(MAX), 0x".toList ++ hex ++ [')']
  | .motherDuck => sqlStringLiteral (Char.ofNat 0x5c :: 'x' :: hex) ++ "::BLOB".toList

/-- mirrors cdc_apply_core.rs:1386-1402 -/
def valueLiteral (dialect : CdcWarehouseDialect) (value : CdcApplyValue) (targetType : Text) : Text :=
  match value with
  | .null => ['N', 'U', 'L', 'L']
  | .boolean b =>
    if dialect = .synapse then [if b then '1' else '0']
    else if b then ['T', 'R', 'U', 'E'] else ['F', 'A', 'L', 'S', 'E']
  | .signed n => showInt n
  | .unsigned n => showNat n
  | .float text => text
  | .text text => sqlStringLiteral text
  | .binary bytes => dialect.binaryLiteral (hexEncode bytes)
  | .date text | .timestamp text =>
    "CAST(".toList ++ sqlStringLiteral text ++ " AS ".toList ++ targetType ++ [')']

end CdcWarehouseDialect

/-! ## Tables -/

structure LiveRow (V : Type) where
  cells : List (Option V)
  token : Option OrderToken
deriving DecidableEq

structure Tombstone (V : Type) where
  key : List (Option V)
  token : OrderToken
deriving DecidableEq

structure StageRow (V : Type) where
  ordinal : Nat
  mutation : Nat
  token : OrderToken
  cells : List (Option V)
deriving DecidableEq

structure Db (V : Type) where
  live : Table (LiveRow V)
  tombstones : Table (Tombstone V)
  stage : Table (StageRow V)
  winners : Table (StageRow V)
deriving DecidableEq

/-- What a statement does; `none` is an error. -/
abbrev Statement (V : Type) := Db V → Option (Db V)

def runAll {V : Type} (statements : List (Statement V)) (db : Db V) : Option (Db V) :=
  statements.foldlM (fun db statement => statement db) db

/-- A statement that the warehouse may refuse as it is written. -/
def checked {V : Type} (ok : Bool) (statement : Statement V) : Statement V := fun db =>
  if ok then statement db else none

/-- What the statements for one table are generated from. -/
structure Target (V : Type) where
  dialect : CdcWarehouseDialect
  columns : List CdcApplyColumn
  businessKeyColumns : List Text
  /-- What the warehouse reads from a literal in a column of a type, a value or
  NULL; `none` if it does not take it. -/
  evaluate : Text → Text → Option (Option V)

def stageOrdinal : Text := "_skippr_cdc_ordinal".toList

def stageMutation : Text := "_skippr_cdc_mutation".toList

def stageToken : Text := "_skippr_cdc_order_token".toList

def stageRank : Text := "_skippr_cdc_rank".toList

def targetToken : Text := "_skippr_order_token".toList

variable {V : Type} [DecidableEq V]

/-- The key columns of two rows, compared one by one.
mirrors cdc_apply_core.rs:1409-1415, 1513-1539 -/
def keyMatch : List (Option V) → List (Option V) → Truth
  | [], [] => .yes
  | a :: as, b :: bs => (equals a b).and (keyMatch as bs)
  | _, _ => .no

def hasMutation (code : Nat) (s : StageRow V) : Truth := equals (some s.mutation) (some code)

namespace Target

section Rows
omit [DecidableEq V]
variable (t : Target V)

def cell (value : CdcApplyValue) (column : CdcApplyColumn) : Option (Option V) :=
  t.evaluate (t.dialect.valueLiteral value column.targetType) column.targetType

/-- The cells of a row; one whose literal is not taken is never stored. -/
def cells (row : CdcApplyRow) : List (Option V) :=
  List.zipWith (fun value column => (t.cell value column).join) row.values t.columns

def accepts (row : CdcApplyRow) : Bool :=
  (row.values.zip t.columns).all fun x => (t.cell x.1 x.2).isSome

/-- mirrors cdc_apply_core.rs:1132-1142 -/
def keyIndexes : List Nat := t.businessKeyColumns.map fun key => t.columns.findIdx (·.name = key)

def acceptsKey (row : CdcApplyRow) : Bool :=
  t.keyIndexes.all fun i => ((row.values.zip t.columns)[i]?).all fun x => (t.cell x.1 x.2).isSome

def keyOf (cells : List (Option V)) : List (Option V) := t.keyIndexes.map fun i => (cells[i]?).join

/-- mirrors cdc_apply_core.rs:790-806 -/
def stageRow (row : CdcApplyRow) : StageRow V :=
  ⟨row.metadata.sourceOrdinal, match row.metadata.mutation with
    | .upsert => 0
    | .delete => 1, row.metadata.orderToken, t.cells row⟩

/-- The columns that are no business key are set.
mirrors cdc_apply_core.rs:877-884 -/
def assign (target source : List (Option V)) : List (Option V) :=
  List.zipWith (fun column cell => if column.name ∈ t.businessKeyColumns then cell.1 else cell.2)
    t.columns (target.zip source)

end Rows

variable (t : Target V)

/-- `target.k = source.k AND …`. -/
def liveMatch (target : LiveRow V) (source : StageRow V) : Truth :=
  keyMatch (t.keyOf target.cells) (t.keyOf source.cells)

def tombstoneMatch (tombstone : Tombstone V) (source : StageRow V) : Truth :=
  keyMatch tombstone.key (t.keyOf source.cells)

/-- `target.token IS NULL OR target.token < source.token`. -/
def older (target : LiveRow V) (source : StageRow V) : Truth :=
  (isNull target.token).or (less target.token (some source.token))

/-- `NOT EXISTS (SELECT 1 FROM tombstones WHERE … AND tombstone.token >= source.token)`. -/
def notBuried (tombstones : Table (Tombstone V)) (source : StageRow V) : Truth :=
  notExists (fun tombstone =>
    (t.tombstoneMatch tombstone source).and (atLeast (some tombstone.token) (some source.token))) tombstones

def updated (target : LiveRow V) (source : StageRow V) : LiveRow V :=
  ⟨t.assign target.cells source.cells, some source.token⟩

def inserted (source : StageRow V) : LiveRow V := ⟨source.cells, some source.token⟩

def tombstoneOf (source : StageRow V) : Tombstone V := ⟨t.keyOf source.cells, source.token⟩

/-! ## Merges -/

/-- mirrors cdc_apply_core.rs:98-112, 909-919 -/
def upsertMerge : Merge (LiveRow V) (StageRow V) where
  on := t.liveMatch
  matched := older
  change target source := some (t.updated target source)
  insert := some inserted

/-- mirrors cdc_apply_core.rs:922-930 -/
def deleteMerge : Merge (LiveRow V) (StageRow V) where
  on := t.liveMatch
  matched := older
  change _ _ := none
  insert := none

/-- mirrors cdc_apply_core.rs:183-189, 945-953 -/
def tombstoneMerge : Merge (Tombstone V) (StageRow V) where
  on := t.tombstoneMatch
  matched tombstone source := less (some tombstone.token) (some source.token)
  change tombstone source := some { tombstone with token := source.token }
  insert := some t.tombstoneOf

/-- mirrors cdc_apply_core.rs:956-962 -/
def clearMerge : Merge (Tombstone V) (StageRow V) where
  on := t.tombstoneMatch
  matched tombstone source := less (some tombstone.token) (some source.token)
  change _ _ := none
  insert := none

/-! ## The bulk path -/

/-- The order of the winner relation: greatest token, then least ordinal. -/
def rank (s : StageRow V) : OrderToken ×ₗ ℕᵒᵈ := toLex (s.token, OrderDual.toDual s.ordinal)

def createStage : Statement V := fun db => some { db with stage := 0 }

def loadStage (rows : List (StageRow V)) : Statement V := fun db =>
  some { db with stage := db.stage + (rows : Multiset (StageRow V)) }

/-! A list of columns that names one twice is refused. -/

def names : List Text := t.columns.map (·.name)

def stageNamed : Bool := ([stageOrdinal, stageMutation, stageToken] ++ t.names).Nodup

def winnersNamed : Bool := (stageRank :: [stageOrdinal, stageMutation, stageToken] ++ t.names).Nodup

def liveNamed : Bool := (t.names ++ [targetToken]).Nodup

def tombstonesNamed : Bool := (t.businessKeyColumns ++ [targetToken]).Nodup


/-- mirrors cdc_apply_core.rs:856-873 -/
def createWinners : Statement V := fun db =>
  some { db with winners := rowNumberOne (fun s => t.keyOf s.cells) rank db.stage }

/-- mirrors cdc_apply_core.rs:899-919 -/
def applyUpserts : Statement V := fun db =>
  (t.upsertMerge.exec (select (fun w => (hasMutation 0 w).and (t.notBuried db.tombstones w)) db.winners)
    db.live).map fun live => { db with live := live }

def applyDeletes : Statement V := fun db =>
  (t.deleteMerge.exec (select (hasMutation 1) db.winners) db.live).map fun live => { db with live := live }

def applyTombstones : Statement V := fun db =>
  (t.tombstoneMerge.exec (select (hasMutation 1) db.winners) db.tombstones).map fun tombstones =>
    { db with tombstones := tombstones }

def clearStaleTombstones : Statement V := fun db =>
  (t.clearMerge.exec (select (hasMutation 0) db.winners) db.tombstones).map fun tombstones =>
    { db with tombstones := tombstones }

/-! Redshift has no MERGE with these clauses. -/

/-- mirrors cdc_apply_core.rs:975-990 -/
def updateUpserts : Statement V := fun db =>
  (updateFrom (fun target winner => (hasMutation 0 winner).and ((t.liveMatch target winner).and
      ((older target winner).and (t.notBuried db.tombstones winner))))
    (fun target winner => some (t.updated target winner)) db.winners db.live).map fun live =>
      { db with live := live }

/-- mirrors cdc_apply_core.rs:991-1005 -/
def insertUpserts : Statement V := fun db =>
  some { db with
    live := insertSelect (fun source => (hasMutation 0 source).and
        ((notExists (fun target => t.liveMatch target source) db.live).and
          (t.notBuried db.tombstones source)))
      inserted db.winners db.live }

/-- mirrors cdc_apply_core.rs:1006-1015 -/
def deleteTargets : Statement V := fun db =>
  some { db with
    live := deleteUsing (fun target winner => (hasMutation 1 winner).and
      ((t.liveMatch target winner).and (older target winner))) db.winners db.live }

/-- mirrors cdc_apply_core.rs:1016-1023 -/
def updateTombstones : Statement V := fun db =>
  (updateFrom (fun tombstone winner => (hasMutation 1 winner).and ((t.tombstoneMatch tombstone winner).and
      (less (some tombstone.token) (some winner.token))))
    (fun tombstone winner => some { tombstone with token := winner.token }) db.winners
    db.tombstones).map fun tombstones => { db with tombstones := tombstones }

/-- mirrors cdc_apply_core.rs:1024-1033 -/
def insertTombstones : Statement V := fun db =>
  some { db with
    tombstones := insertSelect (fun source => (hasMutation 1 source).and
        (notExists (fun tombstone => t.tombstoneMatch tombstone source) db.tombstones))
      t.tombstoneOf db.winners db.tombstones }

/-- mirrors cdc_apply_core.rs:1034-1041 -/
def clearTombstones : Statement V := fun db =>
  some { db with
    tombstones := deleteUsing (fun tombstone winner => (hasMutation 0 winner).and
      ((t.tombstoneMatch tombstone winner).and (less (some tombstone.token) (some winner.token))))
      db.winners db.tombstones }

def dropTables : Statement V := fun db => some { db with stage := 0, winners := 0 }

def setupStatements (rows : List CdcApplyRow) : List (Statement V) :=
  [checked t.stageNamed createStage, checked (rows.all t.accepts) (loadStage (rows.map t.stageRow)),
    checked t.winnersNamed t.createWinners]

def applyStatements : List (Statement V) :=
  match t.dialect with
  | .redshift => [checked t.liveNamed t.updateUpserts, checked t.liveNamed t.insertUpserts,
      t.deleteTargets, t.updateTombstones, checked t.tombstonesNamed t.insertTombstones,
      t.clearTombstones]
  | _ => [checked t.liveNamed t.applyUpserts, t.applyDeletes,
      checked t.tombstonesNamed t.applyTombstones, t.clearStaleTombstones]

/-! ## The guarded path -/

/-- mirrors cdc_apply_core.rs:57-135 -/
def upsertIfNewer (row : StageRow V) : List (Statement V) :=
  [checked t.liveNamed fun db => (t.upsertMerge.exec (select (t.notBuried db.tombstones) {row}) db.live).map fun live =>
      { db with live := live },
    fun db => some { db with
      tombstones := deleteWhere (fun tombstone =>
        (t.tombstoneMatch tombstone row).and (less (some tombstone.token) (some row.token))) db.tombstones }]

/-- mirrors cdc_apply_core.rs:137-204 -/
def deleteIfNewer (row : StageRow V) : List (Statement V) :=
  [fun db => some { db with
      live := deleteWhere (fun target => (t.liveMatch target row).and (older target row)) db.live },
    checked t.tombstonesNamed fun db => (t.tombstoneMerge.exec {row} db.tombstones).map fun tombstones =>
      { db with tombstones := tombstones }]

def guardedRow (row : CdcApplyRow) : List (Statement V) :=
  match row.metadata.mutation with
  | .upsert => (t.upsertIfNewer (t.stageRow row)).map (checked (t.accepts row))
  | .delete => (t.deleteIfNewer (t.stageRow row)).map (checked (t.acceptsKey row))

end Target

/-! ## Generated SQL -/

structure WarehouseBulkCdcSql (V : Type) where
  setupStatements : List (Statement V)
  applyStatements : List (Statement V)
  cleanupStatements : List (Statement V)

def WarehouseBulkCdcSql.atomicStatements {V : Type} (sql : WarehouseBulkCdcSql V) : List (Statement V) :=
  sql.setupStatements ++ sql.applyStatements ++ sql.cleanupStatements

/-- mirrors cdc_apply_core.rs:724-1109 -/
def warehouseBulkCdcSql (dialect : CdcWarehouseDialect) (evaluate : Text → Text → Option (Option V))
    (batch : CdcApplyBatch) : Except CdcApplyBatchError (WarehouseBulkCdcSql V) :=
  match batch.validate with
  | .error e => .error e
  | .ok () =>
    if batch.rows = [] then .error .noRows
    else if dialect.maxRows < batch.rows.length then
      .error (.warehouseStageLimit dialect batch.rows.length dialect.maxRows)
    else
      let t : Target V := ⟨dialect, batch.columns, batch.businessKeyColumns, evaluate⟩
      .ok {
        setupStatements := t.setupStatements batch.rows
        applyStatements := t.applyStatements
        cleanupStatements := [Target.dropTables] }

/-- One transaction per row. mirrors cdc_apply_core.rs:1114-1196 -/
def guardedWarehouseCdcSql (dialect : CdcWarehouseDialect)
    (evaluate : Text → Text → Option (Option V)) (batch : CdcApplyBatch) :
    Except CdcApplyBatchError (List (List (Statement V))) :=
  match batch.validate with
  | .error e => .error e
  | .ok () =>
    let t : Target V := ⟨dialect, batch.columns, batch.businessKeyColumns, evaluate⟩
    .ok (batch.rows.map t.guardedRow)

end Skippr.L10
