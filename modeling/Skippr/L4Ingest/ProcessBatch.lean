import Skippr.L2Store.Offsets
import Skippr.L4Ingest.ExactArrow

/-!
# `Ingest::process_batch`: from payloads to one commit unit

One call takes a list of batches: each is decoded, its records are admitted or
skipped by the offset of its key, encoded by one of three paths (exact Arrow
builders, fast path, slow path) into the buffer of their partition, and all
buffers go to the WAL writer as one unit. Records no path takes become
deadletter records (src/ingest_work.rs). Append and CDC pipelines only; a Copy
pipeline has a loop of its own.

The decoders, the schema worker and the catalog are answers of an environment
(`Env`); whatever the code asks them for one record, one partition or one key it
asks once in a call, so an answer is a function of that.
-/
namespace Skippr.L4.Ingest

open Skippr.L1 Skippr.L2

/-! ## Input -/

/-- What the input decoder made of a payload: the parsed lines of an NDJSON
stream, decoded records, Arrow batches by their row counts, or an error. -/
inductive Decoded
  | lines (lines : List (Except String Json))
  | rows (records : List Json)
  | arrow (batches : List Nat)
  | error (err : String) (lineCount : Nat)

/-- mirrors ingest_work.rs:1318-1334 -/
structure IngestBatch where
  offsetKey : OffsetKey
  data : Decoded
  offsetPos : Option UInt64
  cdcRows : Option Nat

namespace IngestBatch

def isCdc (b : IngestBatch) : Bool := b.cdcRows.isSome

def trackPosition (b : IngestBatch) : Bool := b.isCdc || b.offsetPos.isSome

/-- mirrors ingest_work.rs:1421-1425 -/
def offsetPosForLine (b : IngestBatch) (line : Nat) : UInt64 :=
  match b.offsetPos with
  | none => .ofNat line
  | some base => .ofNat (min (base.toNat + (line - 1)) (2 ^ 64 - 1))

end IngestBatch

inductive FailureCode
  | inputFormat
  | emptyRecord
  | arrowSerialize
  | slowPath (code : String)
deriving DecidableEq, Repr

/-- A deadletter record is of one record, or of a payload that was not decoded. -/
inductive Origin
  | record (r : Rec)
  | payload (batch : Nat)
deriving DecidableEq, Repr

structure DeadletterRecord where
  origin : Origin
  code : FailureCode
  error : String
  offsetPos : UInt64
deriving DecidableEq, Repr

/-- mirrors ingest_work.rs:1211 -/
structure PartitionKey where
  sink : Text
  ns : Text
  part : Text
  time : Option Int
  schemaHash : Text
deriving DecidableEq

structure RowAnswers where
  ns : Text
  part : Text
  time : Option Int
  /-- The namespace has metadata. -/
  metadata : Bool
  /-- The namespace has an exact plan, at this schema version. -/
  planned : Bool
  exactHash : Text
  fast : Option Json
  slow : Except (String × String) Json
  /-- The schema version once the record is normalised. -/
  legacyHash : Text

inductive OffsetMap
  | deadletters
  | partition (key : PartitionKey)

structure Env where
  /-- DATA_DIR has room and the pipeline has a type. -/
  ready : Bool
  store : OffsetStore
  sink : Text
  deadletterSink : Option Text
  pipelineName : Text
  deadletterTime : Int
  flatten : Bool
  inject : Json → Json
  /-- Arrow batches of a payload as JSON records, for a flattening pipeline. -/
  toJson : Nat → Except String (List Json)
  /-- Coerce an Arrow batch of a payload and place it. -/
  coerce : Nat → Nat → Except String PartitionKey
  answers : Rec → RowAnswers
  /-- Plans are cached by namespace and schema version. -/
  plan : Text → Text → Plan
  typed : PartitionKey → Bool
  serialize : PartitionKey → List Json → Bool
  concat : PartitionKey → Bool
  opsFail : PartitionKey → Bool
  opsKeep : Rec → Bool
  buildDeadletters : Bool
  walHandle : Bool
  hintOk : OffsetKey → Bool
  /-- The order in which the entries of a hash map are met. -/
  order : OffsetMap → OffsetKey → Nat
  order_injective : ∀ m, Function.Injective (order m)
  schemaSynced : Text → Bool
  submitOk : Bool

/-! ## Items of a payload -/

/-- mirrors ingest_work.rs:335-349 -/
inductive Item
  | row (line : Nat) (value : Json)
  | notObject (line : Nat)
  | parseError (line : Nat) (error : String)

def queueRows : Nat → List Json → List Item
  | _, [] => []
  | n, v :: vs => .row (n + 1) v :: queueRows (n + 1) vs

/-- The iterator, from logical line `n` on. mirrors ingest_work.rs:383-468 -/
def flattenItems : Nat → List (Except String Json) → List Item
  | _, [] => []
  | n, .error e :: rest => .parseError (n + 1) e :: flattenItems (n + 1) rest
  | n, .ok (.obj fields) :: rest => .row (n + 1) (.obj fields) :: flattenItems (n + 1) rest
  | n, .ok (.arr values) :: rest => queueRows n values ++ flattenItems (n + values.length) rest
  | n, .ok _ :: rest => .notObject (n + 1) :: flattenItems (n + 1) rest

/-- mirrors ingest_work.rs:470-480 -/
def countLogicalIngestRecords : List Json → Nat
  | [] => 0
  | .arr values :: rest => values.length + countLogicalIngestRecords rest
  | _ :: rest => 1 + countLogicalIngestRecords rest

def Json.isNull : Json → Bool
  | .null => true
  | _ => false

/-- mirrors ingest_work.rs:3610-3613 -/
def Json.isEmptyRecord : Json → Bool
  | .null | .obj [] | .arr [] => true
  | _ => false

/-- What the loop does with one item of a payload; the state is not read. -/
inductive Step
  /-- Push a deadletter record, and its position to the deadletter offsets. -/
  | deadletter (d : DeadletterRecord) (offset : Option (OffsetKey × UInt64))
  | row (r : Rec) (value : Json) (batch : IngestBatch) (pos : UInt64)
  | arrow (key : PartitionKey) (offsetKey : OffsetKey) (pos : UInt64) (rows : List Rec)

/-- mirrors ingest_work.rs:3553-3651 -/
def itemStep (i : Nat) (b : IngestBatch) (snapshot : Option OffsetValue) : Item → Option Step
  | .notObject line =>
    let pos := .ofNat line
    some (.deadletter ⟨.record ⟨i, line⟩, .inputFormat, "Source data is not an object or array", pos⟩
      (some (b.offsetKey, pos)))
  | .parseError line error =>
    let pos := .ofNat line
    some (.deadletter ⟨.record ⟨i, line⟩, .inputFormat, error, pos⟩ (some (b.offsetKey, pos)))
  | .row line value =>
    let pos := b.offsetPosForLine line
    if value.isEmptyRecord then
      some (.deadletter ⟨.record ⟨i, line⟩, .emptyRecord, "Source data is empty", pos⟩
        (some (b.offsetKey, pos)))
    else if shouldIngestAtOffset snapshot b.isCdc b.trackPosition pos then
      some (.row ⟨i, line⟩ value b pos)
    else none

def itemSteps (i : Nat) (b : IngestBatch) (snapshot : Option OffsetValue)
    (values : List (Except String Json)) : List Step :=
  (flattenItems 0 values).filterMap (itemStep i b snapshot)

def arrowRows (i n count : Nat) : List Rec := (List.range count).map fun j => ⟨i, n + 1 + j⟩

/-- The first batch that is not coerced ends the payload with one deadletter
record, whatever went in before. mirrors ingest_work.rs:1003-1059, 3454-3490 -/
def arrowSteps (env : Env) (i : Nat) (b : IngestBatch) (pos : UInt64) : Nat → Nat → List Nat → List Step
  | _, _, [] => []
  | j, n, count :: rest =>
    match env.coerce i j with
    | .error e => [.deadletter ⟨.payload i, .inputFormat, e, 1⟩ none]
    | .ok key =>
      .arrow { key with sink := env.sink } b.offsetKey pos (arrowRows i n count) ::
        arrowSteps env i b pos (j + 1) (n + count) rest

/-- mirrors ingest_work.rs:994-1002 -/
def arrowPos (b : IngestBatch) (batches : List Nat) : UInt64 :=
  b.offsetPos.getD (.ofNat (max batches.sum 1))

/-- The steps of one batch, or a call that stops here: the offset could not be
read, or the CDC metadata does not fit. mirrors ingest_work.rs:3369-3545 -/
def batchSteps (env : Env) (i : Nat) (b : IngestBatch) : Option (List Step) :=
  match snapshotValue env.store b.offsetKey with
  | .error _ => none
  | .ok snapshot =>
    match b.data with
    | .lines lines => some (itemSteps i b snapshot lines)
    | .rows records =>
      if b.cdcRows.any (· ≠ countLogicalIngestRecords records) then none
      else some (itemSteps i b snapshot (records.map .ok))
    | .arrow batches =>
      if b.isCdc then none
      else if env.flatten then
        match env.toJson i with
        | .error e => some [.deadletter ⟨.payload i, .inputFormat, e, 1⟩ none]
        | .ok records => some (itemSteps i b snapshot (records.map .ok))
      else if shouldIngestAtOffset snapshot b.isCdc b.trackPosition (arrowPos b batches) then
        some (arrowSteps env i b (arrowPos b batches) 0 0 batches)
      else some []
    | .error err lineCount =>
      some [.deadletter ⟨.payload i, .inputFormat, err, 1⟩
        (some (b.offsetKey, .ofNat (max lineCount 1)))]

def callSteps (env : Env) : Nat → List IngestBatch → Option (List Step)
  | _, [] => some []
  | i, b :: rest =>
    match batchSteps env i b with
    | none => none
    | some steps => (callSteps env (i + 1) rest).map (steps ++ ·)

/-! ## Gathering -/

abbrev Offsets := Map OffsetKey UInt64

/-- mirrors ingest_work.rs:587-594, 961-970 -/
def mergeOffset (offsets : Offsets) (key : OffsetKey) (pos : UInt64) : Offsets :=
  offsets.insert key (match offsets.get key with
    | some old => max old pos
    | none => pos)

/-- A partition buffer: its record batches by their rows, and for the deadletter
batch its records. -/
structure BufferBatch where
  offsets : Offsets
  ns : Text
  payload : List (List Rec)
  deadletters : List DeadletterRecord

/-- mirrors src/ingest/mod.rs `IngestRecord` -/
structure LegacyRecord where
  record : Rec
  normalized : Json
  pos : UInt64

structure Gathered where
  buf : Map PartitionKey BufferBatch
  raw : Map PartitionKey (List LegacyRecord)
  exact : Map PartitionKey Builders
  deadletters : List DeadletterRecord
  deadletterOffsets : Offsets

def Gathered.empty : Gathered := ⟨∅, ∅, ∅, [], ∅⟩

/-- mirrors ingest_work.rs:576-594, 615-680 -/
def trackPartitionOffset (buf : Map PartitionKey BufferBatch) (key : PartitionKey) (ok : OffsetKey)
    (pos : UInt64) : Map PartitionKey BufferBatch :=
  let entry := (buf.get key).getD ⟨∅, key.ns, [], []⟩
  buf.insert key { entry with offsets := mergeOffset entry.offsets ok pos }

/-- mirrors ingest_work.rs:1042-1057 -/
def pushArrow (buf : Map PartitionKey BufferBatch) (key : PartitionKey) (ok : OffsetKey)
    (pos : UInt64) (rows : List Rec) : Map PartitionKey BufferBatch :=
  let tracked := trackPartitionOffset buf key ok pos
  match tracked.get key with
  | some entry => tracked.insert key { entry with payload := entry.payload ++ [rows] }
  | none => tracked

def exactKey (env : Env) (a : RowAnswers) : PartitionKey :=
  ⟨env.sink, a.ns, a.part, a.time, a.exactHash⟩

def legacyKey (env : Env) (a : RowAnswers) : PartitionKey :=
  ⟨env.sink, a.ns, a.part, a.time, a.legacyHash⟩

/-- The exact builders take a record that is not CDC, of a planned namespace.
mirrors ingest_work.rs:3741-3819 -/
def tryExact (env : Env) (exact : Map PartitionKey Builders) (r : Rec) (value : Json)
    (b : IngestBatch) : Map PartitionKey Builders × Bool :=
  let a := env.answers r
  if !b.isCdc && a.metadata && a.planned then
    appendRowToExactPartition exact (exactKey env a) (env.plan a.ns a.exactHash) (env.inject value) r
  else (exact, false)

/-- The fast path, and the slow path when it fails. mirrors ingest_work.rs:3827-3897 -/
def normalize (a : RowAnswers) : Except (String × String) Json :=
  match a.metadata, a.fast with
  | true, some v => .ok v
  | _, _ => a.slow

/-- mirrors ingest_work.rs:711-765 -/
def enqueueLegacyRecord (s : Gathered) (key : PartitionKey) (ok : OffsetKey) (r : LegacyRecord) :
    Gathered :=
  { s with
    buf := trackPartitionOffset s.buf key ok r.pos
    raw := s.raw.insert key ((s.raw.get key).getD [] ++ [r]) }

/-- mirrors ingest_work.rs:3741-3932 -/
def ingestRow (env : Env) (s : Gathered) (r : Rec) (value : Json) (b : IngestBatch) (pos : UInt64) :
    Gathered :=
  let a := env.answers r
  let tried := tryExact env s.exact r value b
  let s := { s with exact := tried.1 }
  if tried.2 then { s with buf := trackPartitionOffset s.buf (exactKey env a) b.offsetKey pos }
  else
    match normalize a with
    | .error e =>
      { s with
        deadletters := s.deadletters ++ [⟨.record r, .slowPath e.1, e.2, pos⟩]
        deadletterOffsets := mergeOffset s.deadletterOffsets b.offsetKey pos }
    | .ok v =>
      -- A record that evolved to null is dropped.
      if v.isNull then s else enqueueLegacyRecord s (legacyKey env a) b.offsetKey ⟨r, v, pos⟩

def applyStep (env : Env) (s : Gathered) : Step → Gathered
  | .deadletter d offset =>
    { s with
      deadletters := s.deadletters ++ [d]
      deadletterOffsets := match offset with
        | some (key, pos) => mergeOffset s.deadletterOffsets key pos
        | none => s.deadletterOffsets }
  | .row r value b pos => ingestRow env s r value b pos
  | .arrow key ok pos rows => { s with buf := pushArrow s.buf key ok pos rows }

def gather (env : Env) (steps : List Step) : Gathered := steps.foldl (applyStep env) .empty

/-! ## Encoding the partitions -/

/-- Bisection to a depth of `fuel`. -/
def bisectFrom (ok : List Json → Bool) :
    Nat → List LegacyRecord → List (List LegacyRecord) × List LegacyRecord
  | 0, records => ([], records)
  | fuel + 1, records =>
    if records = [] then ([], [])
    else if ok (records.map (·.normalized)) then ([records], [])
    else if records.length = 1 then ([], records)
    else
      let left := bisectFrom ok fuel (records.take (records.length / 2))
      let right := bisectFrom ok fuel (records.drop (records.length / 2))
      (left.1 ++ right.1, left.2 ++ right.2)

/-- mirrors ingest_work.rs:900-925 -/
def bisectSerialize (ok : List Json → Bool) (records : List LegacyRecord) :
    List (List LegacyRecord) × List LegacyRecord :=
  bisectFrom ok records.length records

theorem bisectFrom_eq (ok : List Json → Bool) :
    ∀ {fuel : Nat} {records : List LegacyRecord}, records.length ≤ fuel →
      bisectFrom ok fuel records = bisectSerialize ok records := by
  intro fuel records h
  -- Halves of two or more records are shorter, so any two depths agree on them.
  have agree : ∀ n m (records : List LegacyRecord), records.length ≤ n → records.length ≤ m →
      bisectFrom ok n records = bisectFrom ok m records := by
    intro n
    induction n with
    | zero =>
      intro m records hn _
      have : records = [] := List.eq_nil_of_length_eq_zero (by omega)
      subst this
      cases m <;> rfl
    | succ n ih =>
      intro m records hn hm
      cases m with
      | zero =>
        have : records = [] := List.eq_nil_of_length_eq_zero (by omega)
        subst this
        rfl
      | succ m =>
        unfold bisectFrom
        split
        · rfl
        split
        · rfl
        split
        · rfl
        rename_i hne _ hone
        have hpos : records.length ≠ 0 := fun h => hne (List.eq_nil_of_length_eq_zero h)
        rw [ih m (records.take (records.length / 2)) (by simp; omega) (by simp; omega),
          ih m (records.drop (records.length / 2)) (by simp; omega) (by simp; omega)]
  exact agree fuel _ records h le_rfl

theorem bisectSerialize_eq (ok : List Json → Bool) (records : List LegacyRecord) :
    bisectSerialize ok records =
      if records = [] then ([], [])
      else if ok (records.map (·.normalized)) then ([records], [])
      else if records.length = 1 then ([], records)
      else
        let left := bisectSerialize ok (records.take (records.length / 2))
        let right := bisectSerialize ok (records.drop (records.length / 2))
        (left.1 ++ right.1, left.2 ++ right.2) := by
  rw [← bisectFrom_eq ok (Nat.le_succ records.length), bisectFrom,
    bisectFrom_eq ok (by simp only [List.length_take]; omega), bisectFrom_eq ok (by simp)]

/-- The batches of a partition before they are merged: buffered Arrow batches,
the exact batch if it finishes, the serialised ones. -/
def partitionBatches (env : Env) (s : Gathered) (key : PartitionKey) (entry : BufferBatch) :
    List (List Rec) :=
  let exact := (s.exact.get key).bind (Builders.finish (env.typed key))
  let legacy := (bisectSerialize (env.serialize key) ((s.raw.get key).getD [])).1
  entry.payload ++ exact.toList ++ legacy.map (·.map (·.record))

def failedRecords (env : Env) (s : Gathered) (key : PartitionKey) : List LegacyRecord :=
  (bisectSerialize (env.serialize key) ((s.raw.get key).getD [])).2

/-- The merged and transformed rows; batches that do not concatenate are
dropped. mirrors ingest_work.rs:869-881, 4080-4129 -/
def mergedRows (env : Env) (key : PartitionKey) (batches : List (List Rec)) : List (List Rec) :=
  if batches = [] then []
  else if batches.length = 1 ∨ env.concat key then [batches.flatten.filter (env.opsKeep ·)]
  else []

def opsFailed (env : Env) (key : PartitionKey) (batches : List (List Rec)) : Bool :=
  batches ≠ [] && (batches.length = 1 || env.concat key) && env.opsFail key

/-- Offsets of a partition some of whose records failed are set to the last
position that did not. mirrors ingest_work.rs:927-945, 4013-4017 -/
def encodedOffsets (env : Env) (s : Gathered) (key : PartitionKey) (entry : BufferBatch) : Offsets :=
  let failed := failedRecords env s key
  let ok := (bisectSerialize (env.serialize key) ((s.raw.get key).getD [])).1.flatten
  if failed ≠ [] ∧ partitionBatches env s key entry ≠ [] then
    match (ok.map (·.pos)).max? with
    | some top => entry.offsets.filterMap fun _ => some top
    | none => entry.offsets
  else entry.offsets

/-- mirrors ingest_work.rs:3962-4128 -/
def encodeEntry (env : Env) (s : Gathered) (key : PartitionKey) (entry : BufferBatch) : BufferBatch :=
  { entry with
    offsets := encodedOffsets env s key entry
    payload := mergedRows env key (partitionBatches env s key entry) }

/-- mirrors ingest_work.rs:4048-4066 -/
def serializeDeadletter (r : LegacyRecord) : DeadletterRecord :=
  ⟨.record r.record, .arrowSerialize,
    "Arrow serialization invariant failed after ingest-time evolution", r.pos⟩

def Env.iterate (env : Env) (m : OffsetMap) (offsets : Offsets) : List OffsetKey :=
  offsets.keys.mergeSort fun a b => env.order m a ≤ env.order m b

/-- mirrors ingest_work.rs:947-959 -/
def mergeFailedOffsets (env : Env) (s : Gathered) (offsets : Offsets)
    (entry : PartitionKey × BufferBatch) : Offsets :=
  match ((failedRecords env s entry.1).map (·.pos)).max?,
    (env.iterate (.partition entry.1) (encodedOffsets env s entry.1 entry.2)).head? with
  | some pos, some key => mergeOffset offsets key pos
  | _, _ => offsets

structure Encoded where
  buf : List (PartitionKey × BufferBatch)
  deadletters : List DeadletterRecord
  deadletterOffsets : Offsets

/-- `none` when the transform ops fail on a partition. -/
def encodeAll (env : Env) (s : Gathered) : Option Encoded :=
  let entries := s.buf.toList
  if entries.any fun e => opsFailed env e.1 (partitionBatches env s e.1 e.2) then none
  else some {
    buf := entries.map fun e => (e.1, encodeEntry env s e.1 e.2)
    deadletters := s.deadletters ++
      entries.flatMap fun e => (failedRecords env s e.1).map serializeDeadletter
    deadletterOffsets := entries.foldl (mergeFailedOffsets env s) s.deadletterOffsets }

/-! ## Deadletters and the commit unit -/

/-- The hints written before the first one that fails, and whether all were.
mirrors ingest_work.rs:1286-1314 -/
def publishHints (env : Env) (offsets : Offsets) : List (OffsetKey × UInt64) × Bool :=
  let keys := env.iterate .deadletters offsets
  if keys = [] then ([], true)
  else if env.walHandle then
    ((keys.takeWhile env.hintOk).map fun key => (key, (offsets.get key).getD 0), keys.all env.hintOk)
  else ([], false)

/-- mirrors src/ingest/deadletter.rs:27-33 -/
def tableName (env : Env) : Text := ['_', 'd', 'l', '_'] ++ env.pipelineName

/-- mirrors ingest_work.rs:1250-1256 -/
def deadletterKey (env : Env) (sink : Text) : PartitionKey :=
  ⟨sink, tableName env, [], some env.deadletterTime, ['0']⟩

structure Committed where
  buf : List (PartitionKey × BufferBatch)
  hints : List (OffsetKey × UInt64)
  /-- Deadletter records discarded for want of a sink, at most five with a log line. -/
  discarded : List DeadletterRecord
  ok : Bool

/-- mirrors ingest_work.rs:1215-1316 -/
def commitDeadletters (env : Env) (e : Encoded) : Committed :=
  if e.deadletters = [] then ⟨e.buf, [], [], true⟩
  else match env.deadletterSink with
    | some sink =>
      if env.buildDeadletters then
        let key := deadletterKey env sink
        -- An entry of that key is replaced.
        ⟨(key, ⟨e.deadletterOffsets, tableName env, [], e.deadletters⟩) ::
          e.buf.filter (·.1 ≠ key), [], [], true⟩
      else
        let hints := publishHints env e.deadletterOffsets
        ⟨e.buf, hints.1, [], hints.2⟩
    | none =>
      let hints := publishHints env e.deadletterOffsets
      ⟨e.buf, hints.1, e.deadletters, hints.2⟩

/-- What a call leaves behind: the unit in the WAL writer's queue, the offset
hints in the catalog, the deadletter records it discarded, and whether the
request was failed. A panic fails it too. -/
structure Outcome where
  failed : Bool
  unit : Option (List BufferBatch)
  hints : List (OffsetKey × UInt64)
  discarded : List DeadletterRecord

def Outcome.abort : Outcome := ⟨true, none, [], []⟩

def isDeadletterNs (ns : Text) : Bool := ['_', 'd', 'l', '_'].isPrefixOf ns

/-- mirrors ingest_work.rs:4142-4246 -/
def submit (env : Env) (c : Committed) : Outcome :=
  if c.ok = false then ⟨true, none, c.hints, c.discarded⟩
  else if c.buf.any fun e => !isDeadletterNs e.2.ns && !env.schemaSynced e.2.ns then
    ⟨true, none, c.hints, c.discarded⟩
  else if c.buf = [] then ⟨false, none, c.hints, c.discarded⟩
  else if env.submitOk then ⟨false, some (c.buf.map (·.2)), c.hints, c.discarded⟩
  else ⟨true, none, c.hints, c.discarded⟩

/-- mirrors ingest_work.rs:3250-4247 -/
def processBatch (env : Env) (datas : List IngestBatch) : Outcome :=
  if env.ready = false then .abort
  else match callSteps env 0 datas with
    | none => .abort
    | some steps =>
      match encodeAll env (gather env steps) with
      | none => .abort
      | some encoded => submit env (commitDeadletters env encoded)

end Skippr.L4.Ingest
