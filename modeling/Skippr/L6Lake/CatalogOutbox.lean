import Skippr.Core.LTS
import Skippr.Core.Map
import Skippr.Core.Text

/-!
# The catalog outbox and its two drains

Partition intents wait in a durable outbox until a drain has brought them to
Glue (src/catalog_outbox.rs). The background worker and `drain_until_idle` both
run `drain_once` (src/catalog_coordinator.rs:337-580): load the eligible
entries, compare each with the partition Glue has, update or create it, and then
drop the entry if it is still the one that was loaded. The outbox checks that
generation; Glue is written without it.

The tasks of a drain take their steps in any order here, which includes the
order of the source: groups by table, all `get_partition` calls of a group, the
updates, then the creations.
-/
namespace Skippr.L6.Outbox

/-! ## Intents -/

inductive CatalogIntentKind
  | upsertPartition
deriving DecidableEq, Repr

/-- Entries are filed under the hash of their identity; here under the identity
itself. mirrors src/runtime_plugins/protocol.rs:591-602 -/
structure CatalogIntentIdentity where
  sinkRef : Text
  ns : Text
  kind : CatalogIntentKind
  key : Text
deriving DecidableEq, Repr

structure GlueColumnIntent where
  name : Text
  type : Text
  comment : Option Text
deriving DecidableEq, Repr

/-- mirrors protocol.rs:654-669 -/
structure GluePartitionCatalogIntentV1 where
  version : Nat
  region : Option Text
  catalogId : Option Text
  database : Text
  table : Text
  partitionValues : List Text
  location : Text
  storageColumns : List GlueColumnIntent
  partitionColumns : List GlueColumnIntent
  inputFormat : Text
  outputFormat : Text
  serdeLibrary : Text
  schemaNamespace : Text
  schemaVersion : Nat
deriving DecidableEq, Repr

structure CatalogIntent where
  version : Nat
  identity : CatalogIntentIdentity
  payload : GluePartitionCatalogIntentV1
deriving DecidableEq, Repr

def isWhite (c : Char) : Bool :=
  (9 ≤ c.toNat && c.toNat ≤ 13) || (0x2000 ≤ c.toNat && c.toNat ≤ 0x200A) ||
    [0x20, 0x85, 0xA0, 0x1680, 0x2028, 0x2029, 0x202F, 0x205F, 0x3000].contains c.toNat

def blank (t : Text) : Bool := t.all isWhite

/-- mirrors protocol.rs:612-633 -/
def CatalogIntent.isAdmissible (i : CatalogIntent) : Bool :=
  i.version == 2 && !blank i.identity.ns && !blank i.identity.key && i.payload.version == 1 &&
    !blank i.payload.database && !blank i.payload.table && !blank i.payload.location &&
    i.payload.schemaNamespace == i.identity.ns && !i.payload.partitionValues.isEmpty &&
    i.payload.partitionValues.length == i.payload.partitionColumns.length &&
    i.payload.partitionValues.all (!blank ·) && i.payload.partitionColumns.all (!blank ·.name)

/-- A partition of Glue. mirrors catalog_coordinator.rs:39-44 -/
structure GluePartition where
  region : Option Text
  catalogId : Option Text
  database : Text
  table : Text
  values : List Text
deriving DecidableEq, Repr

def CatalogIntent.partition (i : CatalogIntent) : GluePartition :=
  ⟨i.payload.region, i.payload.catalogId, i.payload.database, i.payload.table, i.payload.partitionValues⟩

def CatalogIntent.location (i : CatalogIntent) : Text := i.payload.location

/-! ## Failures -/

inductive GlueApiErrorKind
  | transient
  | notFound
  | alreadyExists
  | terminal
deriving DecidableEq, Repr

inductive Message
  /-- An answer of Glue. -/
  | glue (text : Text)
  /-- `Glue table partition layout mismatch for '{}.{}': actual={:?} expected={:?}` -/
  | layout (database table : Text) (actual expected : List GlueColumnIntent)
  /-- `AlreadyExistsException: recheck partition` -/
  | recheck
  /-- `terminal invalid Glue partition intent` -/
  | invalid
deriving DecidableEq, Repr

structure GlueApiError where
  kind : GlueApiErrorKind
  message : Message
deriving DecidableEq, Repr

/-! ## The outbox -/

/-- mirrors catalog_outbox.rs:28-38 -/
structure PendingCatalogIntent where
  intent : CatalogIntent
  createdAtMs : Nat
  updatedAtMs : Nat
  attempts : Nat
  nextAttemptAtMs : Nat
  lastError : Option Message
  terminal : Bool
deriving DecidableEq, Repr

abbrev CatalogOutbox := Map CatalogIntentIdentity PendingCatalogIntent

/-- The entry an intent is persisted as; none if the outbox has this intent
already. mirrors catalog_outbox.rs:172-226 -/
def persistEntry (outbox : CatalogOutbox) (intent : CatalogIntent) (now : Nat) :
    Option PendingCatalogIntent :=
  match outbox.get intent.identity with
  | some existing =>
    if existing.intent = intent then none
    else some ⟨intent, existing.createdAtMs, now, 0, 0, none, false⟩
  | none => some ⟨intent, now, now, 0, 0, none, false⟩

def persist (outbox : CatalogOutbox) (intent : CatalogIntent) (now : Nat) : CatalogOutbox :=
  match persistEntry outbox intent now with
  | some entry => outbox.insert intent.identity entry
  | none => outbox

/-- mirrors catalog_outbox.rs:107-113, 240-255 -/
def PendingCatalogIntent.eligible (e : PendingCatalogIntent) (now : Nat) : Bool :=
  !e.terminal && e.nextAttemptAtMs ≤ now

/-- mirrors catalog_outbox.rs:274-307 -/
def markDeliveredIf (outbox : CatalogOutbox) (expected : PendingCatalogIntent) : CatalogOutbox :=
  if outbox.get expected.intent.identity = some expected then outbox.erase expected.intent.identity
  else outbox

/-- The entry after a failure; counters saturate. mirrors catalog_outbox.rs:339-346 -/
def PendingCatalogIntent.fail (e : PendingCatalogIntent) (now : Nat) (error : Message)
    (retryAfter : Option Nat) (terminal : Bool) : PendingCatalogIntent :=
  { e with
    attempts := min (e.attempts + 1) (2 ^ 32 - 1)
    updatedAtMs := now
    nextAttemptAtMs := match retryAfter with
      | some delay => min (now + delay) (2 ^ 64 - 1)
      | none => 0
    lastError := some error
    terminal := terminal }

/-- mirrors catalog_outbox.rs:309-355 -/
def recordFailureIf (outbox : CatalogOutbox) (expected : PendingCatalogIntent) (now : Nat)
    (error : Message) (retryAfter : Option Nat) (terminal : Bool) : CatalogOutbox :=
  if outbox.get expected.intent.identity = some expected then
    outbox.insert expected.intent.identity (expected.fail now error retryAfter terminal)
  else outbox

/-! ## Drains -/

inductive Drainer
  | worker
  | untilIdle
deriving DecidableEq, Repr

inductive Stage
  | loaded
  /-- The intent is not admissible. -/
  | invalid
  /-- The table has the partition columns of the intent. -/
  | valid
  /-- Glue has the partition at another location. -/
  | differs
  | missing
  /-- Glue has been seen or set at the location of the intent. -/
  | delivered
  | failed (error : GlueApiError)
deriving DecidableEq, Repr

structure Task where
  pending : PendingCatalogIntent
  stage : Stage
deriving DecidableEq, Repr

abbrev Tasks := Map CatalogIntentIdentity Task

/-- mirrors catalog_coordinator.rs:368-376 -/
def PendingCatalogIntent.load (e : PendingCatalogIntent) : Task :=
  ⟨e, if e.intent.isAdmissible then .loaded else .invalid⟩

/-- What a drain loads; `ids` are the entries under the scan limit.
mirrors catalog_coordinator.rs:362-367 -/
def scanEligiblePending (outbox : CatalogOutbox) (now : Nat) (ids : List CatalogIntentIdentity) : Tasks :=
  outbox.filterMap fun e => if e.eligible now ∧ e.intent.identity ∈ ids then some e.load else none

/-- Names and types only. mirrors catalog_coordinator.rs:757-761 -/
def sameColumnLayout (left right : List GlueColumnIntent) : Bool :=
  left.map (fun c => (c.name, c.type)) == right.map fun c => (c.name, c.type)

/-- mirrors catalog_coordinator.rs:418-461 -/
def checkLayout (intent : CatalogIntent) : Except GlueApiError (List GlueColumnIntent) → Stage
  | .error e => .failed e
  | .ok columns =>
    if sameColumnLayout columns intent.payload.partitionColumns then .valid
    else .failed ⟨.transient,
      .layout intent.payload.database intent.payload.table columns intent.payload.partitionColumns⟩

/-- mirrors catalog_coordinator.rs:484-495 -/
def inspect (intent : CatalogIntent) : Option Text → Stage
  | some current => if current = intent.location then .delivered else .differs
  | none => .missing

/-- mirrors catalog_coordinator.rs:866-870 -/
def retryBase (attempts : Nat) : Nat := 250 * 2 ^ min attempts 8

/-- The error, retry delay and terminal mark of a task to be recorded as failed.
mirrors catalog_coordinator.rs:609-657 -/
def Task.failure (t : Task) (jitter : Nat) : Option (Message × Option Nat × Bool) :=
  match t.stage with
  | .failed ⟨.terminal, message⟩ => some (message, none, true)
  | .failed ⟨_, message⟩ =>
    some (message, some (min (retryBase t.pending.attempts + jitter) 60000), false)
  | .invalid => some (.invalid, none, true)
  | _ => none

/-- How Glue answers a write; one that fails may have been carried out. -/
inductive Answer
  | ok
  | error (e : GlueApiError) (applied : Bool)
deriving DecidableEq, Repr

def Answer.applied : Answer → Bool
  | .ok => true
  | .error _ applied => applied

def Answer.stage : Answer → Stage
  | .ok => .delivered
  | .error e _ => .failed e

structure St where
  outbox : CatalogOutbox
  glue : Map GluePartition Text
  tasks : Drainer → Tasks
  /-- The intent last persisted for an identity; no step reads it. -/
  last : Map CatalogIntentIdentity CatalogIntent

inductive Label
  | persist (intent : CatalogIntent) (now : Nat)
  | scan (d : Drainer) (now : Nat) (ids : List CatalogIntentIdentity)
  | tableLayout (d : Drainer) (id : CatalogIntentIdentity)
      (answer : Except GlueApiError (List GlueColumnIntent))
  | getPartition (d : Drainer) (id : CatalogIntentIdentity) (error : Option GlueApiError)
  | updatePartition (d : Drainer) (id : CatalogIntentIdentity) (answer : Answer)
  | createPartition (d : Drainer) (id : CatalogIntentIdentity) (answer : Answer)
  | markDelivered (d : Drainer) (id : CatalogIntentIdentity)
  | recordFailure (d : Drainer) (id : CatalogIntentIdentity) (now jitter : Nat)
  /-- The drain ends early: an I/O error, a timeout or a crash. -/
  | stop (d : Drainer)

namespace St

def task (s : St) (d : Drainer) (id : CatalogIntentIdentity) : Option Task := (s.tasks d).get id

def setTasks (s : St) (d : Drainer) (tasks : Tasks) : St :=
  { s with tasks := Function.update s.tasks d tasks }

def setStage (s : St) (d : Drainer) (id : CatalogIntentIdentity) (t : Task) (stage : Stage) : St :=
  s.setTasks d ((s.tasks d).insert id { t with stage := stage })

def dropTask (s : St) (d : Drainer) (id : CatalogIntentIdentity) : St :=
  s.setTasks d ((s.tasks d).erase id)

def write (s : St) (t : Task) (answer : Answer) : St :=
  if answer.applied then
    { s with glue := s.glue.insert t.pending.intent.partition t.pending.intent.location }
  else s

end St

/-- One atomic step. mirrors catalog_coordinator.rs:359-580 -/
def step (s : St) : Label → Option St
  | .persist intent now =>
    some { s with
      outbox := persist s.outbox intent now
      last := s.last.insert intent.identity intent }
  | .scan d now ids =>
    if (s.tasks d).keys = [] then some (s.setTasks d (scanEligiblePending s.outbox now ids)) else none
  | .tableLayout d id answer =>
    match s.task d id with
    | some ⟨e, .loaded⟩ => some (s.setStage d id ⟨e, .loaded⟩ (checkLayout e.intent answer))
    | _ => none
  | .getPartition d id error =>
    match s.task d id with
    | some ⟨e, .valid⟩ =>
      match error with
      | some err => some (s.setStage d id ⟨e, .valid⟩ (.failed err))
      | none => some (s.setStage d id ⟨e, .valid⟩ (inspect e.intent (s.glue.get e.intent.partition)))
    | _ => none
  | .updatePartition d id answer =>
    match s.task d id with
    | some ⟨e, .differs⟩ =>
      some ((s.write ⟨e, .differs⟩ answer).setStage d id ⟨e, .differs⟩ answer.stage)
    | _ => none
  | .createPartition d id answer =>
    match s.task d id with
    | some ⟨e, .missing⟩ =>
      if s.glue.get e.intent.partition = none then
        some ((s.write ⟨e, .missing⟩ answer).setStage d id ⟨e, .missing⟩ answer.stage)
      else some (s.setStage d id ⟨e, .missing⟩ (.failed ⟨.alreadyExists, .recheck⟩))
    | _ => none
  | .markDelivered d id =>
    match s.task d id with
    | some ⟨e, .delivered⟩ => some { s.dropTask d id with outbox := markDeliveredIf s.outbox e }
    | _ => none
  | .recordFailure d id now jitter =>
    match s.task d id with
    | some t =>
      match t.failure jitter with
      | some (message, retryAfter, terminal) =>
        if jitter ≤ retryBase t.pending.attempts / 4 then
          some { s.dropTask d id with
            outbox := recordFailureIf s.outbox t.pending now message retryAfter terminal }
        else none
      | none => none
    | none => none
  | .stop d => some (s.setTasks d ∅)

/-- Both drains start on whatever is pending and whatever Glue has. -/
def Init (s : St) : Prop :=
  (∀ id e, s.outbox.get id = some e → e.intent.identity = id) ∧
    (∀ d, s.tasks d = ∅) ∧ ∀ id, s.last.get id = (s.outbox.get id).map (·.intent)

def system : LTS St Label := LTS.ofFn Init step

/-! ## Glue in sync -/

/-- Where nothing is pending, Glue has the location last persisted. -/
def InSync (s : St) : Prop :=
  ∀ id intent, s.outbox.get id = none → s.last.get id = some intent →
    s.glue.get intent.partition = some intent.location

/-- A write is for an entry that has not changed, and to a partition of no other
identity. -/
def WritesCurrent (s : St) (d : Drainer) (id : CatalogIntentIdentity) : Prop :=
  ∀ t ∈ s.task d id, s.outbox.get id = some t.pending ∧
    ∀ x ∈ s.last.toList, x.1 ≠ id → x.2.partition ≠ t.pending.intent.partition

instance (s : St) (d : Drainer) (id : CatalogIntentIdentity) : Decidable (WritesCurrent s d id) :=
  inferInstanceAs (Decidable (∀ t ∈ s.task d id, _))

/-- No drain but `except` holds the entry. -/
def NotHeld (s : St) (except : Option Drainer) (entry : PendingCatalogIntent) : Prop :=
  ∀ d ∈ [Drainer.worker, .untilIdle], some d ≠ except →
    ∀ t ∈ s.task d entry.intent.identity, t.pending ≠ entry

instance (s : St) (except : Option Drainer) (entry : PendingCatalogIntent) :
    Decidable (NotHeld s except entry) :=
  inferInstanceAs (Decidable (∀ d ∈ [Drainer.worker, .untilIdle], _))

def failedEntry (s : St) (d : Drainer) (id : CatalogIntentIdentity) (now jitter : Nat) :
    Option PendingCatalogIntent :=
  (s.task d id).bind fun t => (t.failure jitter).map fun f => t.pending.fail now f.1 f.2.1 f.2.2

/-- The condition on a step, in the state before it. -/
def Ordered (s : St) : Label → Prop
  | .updatePartition d id _ => WritesCurrent s d id
  | .createPartition d id _ => WritesCurrent s d id
  | .persist intent now => ∀ entry ∈ persistEntry s.outbox intent now, NotHeld s none entry
  | .recordFailure d id now jitter => ∀ entry ∈ failedEntry s d id now jitter, NotHeld s (some d) entry
  | _ => True

instance (s : St) : (l : Label) → Decidable (Ordered s l)
  | .persist intent now =>
    inferInstanceAs (Decidable (∀ entry ∈ persistEntry s.outbox intent now, NotHeld s none entry))
  | .recordFailure d id now jitter =>
    inferInstanceAs (Decidable (∀ entry ∈ failedEntry s d id now jitter, NotHeld s (some d) entry))
  | .updatePartition d id _ => inferInstanceAs (Decidable (WritesCurrent s d id))
  | .createPartition d id _ => inferInstanceAs (Decidable (WritesCurrent s d id))
  | .scan .. => inferInstanceAs (Decidable True)
  | .tableLayout .. => inferInstanceAs (Decidable True)
  | .getPartition .. => inferInstanceAs (Decidable True)
  | .markDelivered .. => inferInstanceAs (Decidable True)
  | .stop _ => inferInstanceAs (Decidable True)

/-! ## What a step does -/

section Frame
variable (s : St) (d d' : Drainer) (id id' : CatalogIntentIdentity) (t : Task) (stage : Stage)

theorem task_setTasks (tasks : Tasks) : (s.setTasks d tasks).task d' id' =
    if d' = d then tasks.get id' else s.task d' id' := by
  unfold St.task St.setTasks
  dsimp only
  by_cases hd : d' = d
  · rw [hd, Function.update_self, if_pos rfl]
  · rw [Function.update_of_ne hd, if_neg hd]

theorem task_setStage : (s.setStage d id t stage).task d' id' =
    if d' = d ∧ id' = id then some { t with stage := stage } else s.task d' id' := by
  rw [St.setStage, task_setTasks, Map.get_insert]
  by_cases hd : d' = d
  · subst hd
    simp only [if_true, true_and]
    rfl
  · simp only [hd, if_false, false_and]

theorem task_dropTask : (s.dropTask d id).task d' id' =
    if d' = d ∧ id' = id then none else s.task d' id' := by
  rw [St.dropTask, task_setTasks, Map.get_erase]
  by_cases hd : d' = d
  · subst hd
    simp only [if_true, true_and]
    rfl
  · simp only [hd, if_false, false_and]

variable (answer : Answer)

end Frame

inductive Moves (s : St) : Label → St → Prop
  | persist (intent : CatalogIntent) (now : Nat) :
    Moves s (.persist intent now)
      { s with
        outbox := persist s.outbox intent now
        last := s.last.insert intent.identity intent }
  | scan (d : Drainer) (now : Nat) (ids : List CatalogIntentIdentity) :
    Moves s (.scan d now ids) (s.setTasks d (scanEligiblePending s.outbox now ids))
  /-- A task moves on; to be delivered, it saw its location in Glue. -/
  | look {l : Label} (d : Drainer) (id : CatalogIntentIdentity) (t : Task) (stage : Stage) :
    s.task d id = some t →
    (stage = .delivered →
      s.glue.get t.pending.intent.partition = some t.pending.intent.location) →
    Moves s l (s.setStage d id t stage)
  | write {l : Label} (d : Drainer) (id : CatalogIntentIdentity) (t : Task) (answer : Answer) :
    s.task d id = some t → (Ordered s l → WritesCurrent s d id) →
    Moves s l ((s.write t answer).setStage d id t answer.stage)
  | deliver (d : Drainer) (id : CatalogIntentIdentity) (t : Task) :
    s.task d id = some t → t.stage = .delivered →
    Moves s (.markDelivered d id) { s.dropTask d id with outbox := markDeliveredIf s.outbox t.pending }
  | fail (d : Drainer) (id : CatalogIntentIdentity) (now jitter : Nat) (t : Task)
      (f : Message × Option Nat × Bool) :
    s.task d id = some t → t.failure jitter = some f →
    Moves s (.recordFailure d id now jitter)
      { s.dropTask d id with outbox := recordFailureIf s.outbox t.pending now f.1 f.2.1 f.2.2 }
  | stop (d : Drainer) : Moves s (.stop d) (s.setTasks d ∅)

theorem inspect_delivered {intent : CatalogIntent} {current : Option Text}
    (h : inspect intent current = .delivered) : current = some intent.location := by
  unfold inspect at h
  split at h
  · split at h
    · rename_i hcurrent
      rw [hcurrent]
    · cases h
  · cases h

theorem moves_of_step {s s' : St} {l : Label} (h : step s l = some s') : Moves s l s' := by
  cases l with
  | persist intent now =>
    cases h
    exact .persist intent now
  | stop d =>
    cases h
    exact .stop d
  | scan d now ids =>
    obtain ⟨-, rfl⟩ := of_guard h
    exact .scan d now ids
  | tableLayout d id answer =>
    simp only [step] at h
    split at h
    · rename_i e ht
      cases h
      refine .look d id _ _ ht fun hd => ?_
      unfold checkLayout at hd
      split at hd
      · cases hd
      · split at hd <;> cases hd
    · cases h
  | getPartition d id error =>
    simp only [step] at h
    split at h
    · rename_i e ht
      split at h
      · cases h
        exact .look d id _ _ ht fun hd => by cases hd
      · cases h
        exact .look d id _ _ ht fun hd => inspect_delivered hd
    · cases h
  | updatePartition d id answer =>
    simp only [step] at h
    split at h
    · rename_i e ht
      cases h
      exact .write d id _ answer ht fun hordered => hordered
    · cases h
  | createPartition d id answer =>
    simp only [step] at h
    split at h
    · rename_i e ht
      split at h
      · cases h
        exact .write d id _ answer ht fun hordered => hordered
      · cases h
        exact .look d id _ _ ht fun hd => by cases hd
    · cases h
  | markDelivered d id =>
    simp only [step] at h
    split at h
    · rename_i e ht
      cases h
      exact .deliver d id _ ht rfl
    · cases h
  | recordFailure d id now jitter =>
    simp only [step] at h
    split at h
    · rename_i t ht
      split at h
      · rename_i message retryAfter terminal hf
        obtain ⟨-, rfl⟩ := of_guard h
        exact .fail d id now jitter t _ ht hf
      · cases h
    · cases h

/-! ## The invariant -/

structure Inv (s : St) : Prop where
  entry : ∀ id e, s.outbox.get id = some e → e.intent.identity = id ∧ s.last.get id = some e.intent
  held : ∀ d id t, s.task d id = some t → t.pending.intent.identity = id
  /-- Glue has the location of a delivered task, as long as its entry stands. -/
  delivered : ∀ d id t, s.task d id = some t → t.stage = .delivered →
    s.outbox.get id = some t.pending →
    s.glue.get t.pending.intent.partition = some t.pending.intent.location
  inSync : InSync s

theorem inv_init {s : St} (h : Init s) : Inv s := by
  obtain ⟨hkeyed, hidle, hlast⟩ := h
  have hnone : ∀ d id, s.task d id = none := by
    intro d id
    rw [St.task, hidle d, Map.get_empty]
  refine ⟨?_, ?_, ?_, ?_⟩
  · intro id e he
    exact ⟨hkeyed id e he, by rw [hlast, he, Option.map_some]⟩
  · intro d id t ht
    rw [hnone] at ht
    cases ht
  · intro d id t ht
    rw [hnone] at ht
    cases ht
  · intro id intent hout hl
    rw [hlast, hout] at hl
    cases hl

variable {s : St}

theorem NotHeld.ne {except : Option Drainer} {entry : PendingCatalogIntent} {d : Drainer} {t : Task}
    (h : NotHeld s except entry) (hd : some d ≠ except)
    (ht : s.task d entry.intent.identity = some t) : t.pending ≠ entry :=
  h d (by cases d <;> decide) hd t ht

theorem Inv.put (hinv : Inv s) (entry : PendingCatalogIntent) {outbox : CatalogOutbox}
    {last : Map CatalogIntentIdentity CatalogIntent}
    (hput : ∀ id, outbox.get id =
      if id = entry.intent.identity then some entry else s.outbox.get id)
    (hlast : ∀ id, last.get id =
      if id = entry.intent.identity then some entry.intent else s.last.get id)
    (hheld : ∀ d t, s.task d entry.intent.identity = some t → t.pending ≠ entry) :
    Inv { s with outbox := outbox, last := last } := by
  refine ⟨?_, hinv.held, ?_, ?_⟩
  · intro id e he
    dsimp only at he ⊢
    rw [hput] at he
    rw [hlast]
    split at he
    · rename_i hid
      cases he
      rw [if_pos hid]
      exact ⟨hid.symm, rfl⟩
    · rename_i hid
      rw [if_neg hid]
      exact hinv.entry id e he
  · intro d id t ht hstage hout
    dsimp only at hout
    rw [hput] at hout
    split at hout
    · rename_i hid
      subst hid
      exact absurd (Option.some.inj hout).symm (hheld d t ht)
    · exact hinv.delivered d id t ht hstage hout
  · intro id i hout hl
    dsimp only at hout hl
    rw [hput] at hout
    split at hout
    · cases hout
    · rename_i hid
      rw [hlast, if_neg hid] at hl
      exact hinv.inSync id i hout hl

theorem inv_persist (hinv : Inv s) (intent : CatalogIntent) (now : Nat)
    (hfresh : ∀ entry ∈ persistEntry s.outbox intent now, NotHeld s none entry) :
    Inv { s with
      outbox := persist s.outbox intent now
      last := s.last.insert intent.identity intent } := by
  cases hentry : persistEntry s.outbox intent now with
  | none =>
    have hsame : ∃ e, s.outbox.get intent.identity = some e ∧ e.intent = intent := by
      unfold persistEntry at hentry
      split at hentry
      · rename_i existing hexisting
        split at hentry
        · exact ⟨existing, hexisting, by assumption⟩
        · cases hentry
      · cases hentry
    obtain ⟨e, he, hintent⟩ := hsame
    have hpersist : persist s.outbox intent now = s.outbox := by rw [persist, hentry]
    have hlast : ∀ id, Map.get (s.last.insert intent.identity intent) id = s.last.get id := by
      intro id
      rw [Map.get_insert]
      split
      · rename_i hid
        rw [hid, (hinv.entry _ e he).2, hintent]
      · rfl
    rw [hpersist]
    refine ⟨?_, hinv.held, hinv.delivered, ?_⟩
    · intro id e he
      refine ⟨(hinv.entry id e he).1, ?_⟩
      rw [hlast]
      exact (hinv.entry id e he).2
    · intro id i hout hl
      rw [hlast] at hl
      exact hinv.inSync id i hout hl
  | some entry =>
    obtain rfl : entry.intent = intent := by
      unfold persistEntry at hentry
      split at hentry
      · obtain ⟨-, rfl⟩ := of_guard_not hentry
        rfl
      · cases hentry
        rfl
    rw [persist, hentry]
    exact hinv.put entry (fun id => Map.get_insert _ _ id _) (fun id => Map.get_insert _ _ id _)
      fun d t => (hfresh entry hentry).ne (by simp)

theorem inv_scan (hinv : Inv s) (d : Drainer) (now : Nat) (ids : List CatalogIntentIdentity) :
    Inv (s.setTasks d (scanEligiblePending s.outbox now ids)) := by
  -- A loaded task holds the entry of the outbox and is not delivered.
  have hloaded : ∀ d' id t, (s.setTasks d (scanEligiblePending s.outbox now ids)).task d' id = some t →
      s.task d' id = some t ∨ ∃ e, s.outbox.get id = some e ∧ t = e.load := by
    intro d' id t ht
    rw [task_setTasks] at ht
    split at ht
    · rw [scanEligiblePending, Map.get_filterMap] at ht
      obtain ⟨e, he, hload⟩ := Option.bind_eq_some_iff.1 ht
      obtain ⟨-, rfl⟩ := of_guard hload
      exact .inr ⟨e, he, rfl⟩
    · exact .inl ht
  refine ⟨hinv.entry, ?_, ?_, hinv.inSync⟩
  · intro d' id t ht
    rcases hloaded d' id t ht with hold | ⟨e, he, rfl⟩
    · exact hinv.held d' id t hold
    · exact (hinv.entry id e he).1
  · intro d' id t ht hstage hout
    rcases hloaded d' id t ht with hold | ⟨e, he, rfl⟩
    · exact hinv.delivered d' id t hold hstage hout
    · unfold PendingCatalogIntent.load at hstage
      dsimp only at hstage
      split at hstage <;> cases hstage

theorem Inv.fewer {tasks : Drainer → Tasks} (hinv : Inv s)
    (h : ∀ d id t, (tasks d).get id = some t → s.task d id = some t) : Inv { s with tasks := tasks } :=
  ⟨hinv.entry, fun d id t ht => hinv.held d id t (h d id t ht),
    fun d id t ht => hinv.delivered d id t (h d id t ht), hinv.inSync⟩

theorem inv_stop (hinv : Inv s) (d : Drainer) : Inv (s.setTasks d ∅) := by
  refine hinv.fewer fun d' id t ht => ?_
  change (s.setTasks d ∅).task d' id = some t at ht
  rw [task_setTasks] at ht
  split at ht
  · cases ht
  · exact ht

theorem inv_dropTask (hinv : Inv s) (d : Drainer) (id : CatalogIntentIdentity) :
    Inv (s.dropTask d id) := by
  refine hinv.fewer fun d' id' t ht => ?_
  change (s.dropTask d id).task d' id' = some t at ht
  rw [task_dropTask] at ht
  split at ht
  · cases ht
  · exact ht

variable {d : Drainer} {id : CatalogIntentIdentity} {t : Task}

theorem inv_look (hinv : Inv s) {stage : Stage} (ht : s.task d id = some t)
    (hseen : stage = .delivered →
      s.glue.get t.pending.intent.partition = some t.pending.intent.location) :
    Inv (s.setStage d id t stage) := by
  refine ⟨hinv.entry, ?_, ?_, hinv.inSync⟩
  · intro d' id' t' ht'
    rw [task_setStage] at ht'
    split at ht'
    · rename_i hsame
      cases ht'
      rw [hsame.2]
      exact hinv.held d id t ht
    · exact hinv.held d' id' t' ht'
  · intro d' id' t' ht' hstage hout
    rw [task_setStage] at ht'
    split at ht'
    · cases ht'
      exact hseen hstage
    · exact hinv.delivered d' id' t' ht' hstage hout

/-- A write for the current entry: the tasks that hold the same entry have the
same location, and other identities have other partitions. -/
theorem inv_glue (hinv : Inv s) (answer : Answer) (ht : s.task d id = some t)
    (hcurrent : WritesCurrent s d id) : Inv (s.write t answer) := by
  unfold St.write
  split
  swap
  · exact hinv
  obtain ⟨hout, hothers⟩ := hcurrent t ht
  have hother : ∀ id' i, s.last.get id' = some i → id' ≠ id →
      Map.get (s.glue.insert t.pending.intent.partition t.pending.intent.location) i.partition =
        s.glue.get i.partition := by
    intro id' i hl hne
    rw [Map.get_insert, if_neg (hothers (id', i) ((Map.mem_toList _ _ _).2 hl) hne)]
  refine ⟨hinv.entry, hinv.held, ?_, ?_⟩
  · intro d' id' t' ht' hstage hout'
    dsimp only at hout' ⊢
    by_cases hid : id' = id
    · subst hid
      rw [Option.some.inj (hout'.symm.trans hout), Map.get_insert, if_pos rfl]
    · rw [hother id' _ (hinv.entry id' _ hout').2 hid]
      exact hinv.delivered d' id' t' ht' hstage hout'
  · intro id' i hout' hl
    have hid : id' ≠ id := by
      rintro rfl
      cases hout.symm.trans hout'
    dsimp only
    rw [hother id' i hl hid]
    exact hinv.inSync id' i hout' hl

theorem inv_write (hinv : Inv s) (answer : Answer) (ht : s.task d id = some t)
    (hcurrent : WritesCurrent s d id) : Inv ((s.write t answer).setStage d id t answer.stage) := by
  refine inv_look (inv_glue hinv answer ht hcurrent) (by
    unfold St.write
    split <;> exact ht) fun hstage => ?_
  cases answer with
  | ok => simp [St.write, Answer.applied, Map.get_insert]
  | error e applied => cases hstage

theorem inv_deliver (hinv : Inv s) (ht : s.task d id = some t) (hstage : t.stage = .delivered) :
    Inv { s.dropTask d id with outbox := markDeliveredIf s.outbox t.pending } := by
  have hdrop := inv_dropTask hinv d id
  rw [markDeliveredIf, hinv.held d id t ht]
  split
  swap
  · exact hdrop
  rename_i hcur
  refine ⟨?_, hdrop.held, ?_, ?_⟩
  · intro id' e he
    dsimp only at he
    exact hdrop.entry id' e (Map.of_get_erase he).2
  · intro d' id' t' ht' hstage' hout
    dsimp only at hout
    exact hdrop.delivered d' id' t' ht' hstage' (Map.of_get_erase hout).2
  · intro id' i hout hl
    dsimp only at hout
    rw [Map.get_erase] at hout
    split at hout
    · rename_i hid
      subst hid
      cases hl.symm.trans (hinv.entry id' _ hcur).2
      exact hinv.delivered d id' t ht hstage hcur
    · exact hdrop.inSync id' i hout hl

theorem inv_fail (hinv : Inv s) {now : Nat} {f : Message × Option Nat × Bool}
    (ht : s.task d id = some t) (hfresh : NotHeld s (some d) (t.pending.fail now f.1 f.2.1 f.2.2)) :
    Inv { s.dropTask d id with
      outbox := recordFailureIf s.outbox t.pending now f.1 f.2.1 f.2.2 } := by
  have hdrop := inv_dropTask hinv d id
  obtain rfl := hinv.held d id t ht
  rw [recordFailureIf]
  split
  swap
  · exact hdrop
  rename_i hcur
  refine hdrop.put (t.pending.fail now f.1 f.2.1 f.2.2) (fun id' => Map.get_insert _ _ id' _)
    (fun id' => ?_) fun d' t' ht' => ?_
  · split
    · rename_i hid
      subst hid
      exact (hinv.entry _ _ hcur).2
    · rfl
  · rw [task_dropTask] at ht'
    split at ht'
    · cases ht'
    · rename_i hother
      exact hfresh.ne (fun hd => hother ⟨Option.some.inj hd, rfl⟩) ht'

theorem inv_step {s' : St} {l : Label} (hinv : Inv s) (hordered : Ordered s l)
    (h : step s l = some s') : Inv s' := by
  cases moves_of_step h with
  | persist intent now => exact inv_persist hinv intent now hordered
  | scan d now ids => exact inv_scan hinv d now ids
  | look d id t stage ht hseen => exact inv_look hinv ht hseen
  | write d id t answer ht hcurrent => exact inv_write hinv answer ht (hcurrent hordered)
  | deliver d id t ht hstage => exact inv_deliver hinv ht hstage
  | fail d id now jitter t f ht hf =>
    refine inv_fail hinv ht (hordered _ ?_)
    rw [failedEntry, ht, Option.bind_some, hf, Option.map_some]
    rfl
  | stop d => exact inv_stop hinv d

/-- **Glue is in sync** in every state of a run whose steps are ordered. -/
theorem in_sync (s : St) (h : (system.restrict Ordered).Reachable s) : InSync s := by
  have hind : (system.restrict Ordered).Inductive Inv :=
    ⟨fun s => inv_init, fun s l s' hinv hstep => inv_step hinv hstep.1 hstep.2⟩
  exact (hind.reachable s h).inSync

/-! ## Two intents for one day -/

def dayIntent (location : Text) : CatalogIntent :=
  ⟨2, ⟨['p'], ['e'], .upsertPartition, ['d']⟩,
    ⟨1, none, none, ['a'], ['t'], [['d']], location, [], [⟨['d'], ['s'], none⟩], [], [], [], ['e'], 1⟩⟩

def day : CatalogIntentIdentity := (dayIntent []).identity

def start : St := ⟨∅, (∅ : Map GluePartition Text).insert (dayIntent []).partition ['o'], fun _ => ∅, ∅⟩

theorem init_start : Init start := by
  refine ⟨?_, fun _ => rfl, fun _ => rfl⟩
  intro id e he
  cases he

def inspectRun (d : Drainer) (now : Nat) : List Label :=
  [.scan d now [day], .tableLayout d day (.ok [⟨['d'], ['s'], none⟩]), .getPartition d day none]

def deliverRun (d : Drainer) : List Label := [.updatePartition d day .ok, .markDelivered d day]

/-- Each drain delivers before the next intent. -/
theorem in_sync_in_turn : ∃ s, (system.restrict Ordered).Reachable s ∧ s.outbox.get day = none ∧
    s.last.get day = some (dayIntent ['2']) ∧ InSync s := by
  obtain ⟨s, hreach, hout, hlast⟩ : ∃ s, (system.restrict Ordered).Reachable s ∧
      s.outbox.get day = none ∧ s.last.get day = some (dayIntent ['2']) :=
    exists_restrict_reachable ([.persist (dayIntent ['1']) 1] ++ inspectRun .worker 1 ++
      deliverRun .worker ++ [.persist (dayIntent ['2']) 2] ++ inspectRun .untilIdle 2 ++
      deliverRun .untilIdle) init_start (by decide +kernel)
  exact ⟨s, hreach, hout, hlast, in_sync s hreach⟩

/-- The worker has compared the first intent with Glue; the second one is
persisted and delivered by the other drain; then the worker writes the first. -/
theorem stale_update : ∃ s, system.Reachable s ∧ s.outbox.get day = none ∧
    s.last.get day = some (dayIntent ['2']) ∧
    s.glue.get (dayIntent ['2']).partition = some ['1'] ∧ ¬ InSync s := by
  obtain ⟨s, hreach, hout, hlast, hglue⟩ : ∃ s, system.Reachable s ∧ s.outbox.get day = none ∧
      s.last.get day = some (dayIntent ['2']) ∧ s.glue.get (dayIntent ['2']).partition = some ['1'] :=
    exists_reachable ([.persist (dayIntent ['1']) 1] ++ inspectRun .worker 1 ++
      [.persist (dayIntent ['2']) 2] ++ inspectRun .untilIdle 2 ++ deliverRun .untilIdle ++
      deliverRun .worker) init_start (by decide +kernel)
  refine ⟨s, hreach, hout, hlast, hglue, ?_⟩
  intro hsync
  have hnew := hsync day _ hout hlast
  rw [hglue] at hnew
  cases hnew

end Skippr.L6.Outbox
