import Skippr.Core.LTS
import Skippr.L9Schema.SchemaAlter

/-!
# Migrations

`apply_with` takes a migration through three durable phases: the live WAL is
rewritten, the destination is altered, the metadata is stored; the journal
records each, and a run that finds a phase recorded goes on from there
(src/migration/apply.rs:124-200). Any run can be cut between two durable steps, by
a crash or by an error.

The WAL and the destination are the lists of what was done to them.
-/
namespace Skippr.L9.Migration

/-! ## The journal -/

inductive MigrationDirection
  | up
  | down
deriving DecidableEq, Repr

inductive MigrationPhase
  | walRewritten
  | destApplied
  | committed
deriving DecidableEq, Repr

/-- mirrors src/migration/journal.rs:57-63 -/
structure MigrationRecord where
  id : Text
  checksum : Text
  direction : MigrationDirection
  phase : MigrationPhase
deriving DecidableEq, Repr

structure MigrationApply where
  id : Text
  checksum : Text
  direction : MigrationDirection
deriving DecidableEq, Repr

inductive JournalError
  /-- `migration '{id}' checksum mismatch: expected {expected}, got {actual}` -/
  | checksumMismatch (id expected actual : Text)
deriving DecidableEq, Repr

abbrev MigrationLog := List MigrationRecord

def lastRecord (log : MigrationLog) (a : MigrationApply) : Option MigrationRecord :=
  log.reverse.find? (·.id = a.id)

/-- mirrors journal.rs:109-129 -/
def latestPhase (log : MigrationLog) (a : MigrationApply) : Except JournalError (Option MigrationPhase) :=
  match lastRecord log a with
  | some record =>
    if record.checksum ≠ a.checksum then .error (.checksumMismatch a.id record.checksum a.checksum)
    else if record.direction ≠ a.direction then .ok none
    else .ok (some record.phase)
  | none => .ok none

/-- mirrors journal.rs:146-185 -/
def commit (log : MigrationLog) (a : MigrationApply) (phase : MigrationPhase) :
    Except JournalError MigrationLog :=
  match lastRecord log a with
  | some record =>
    if record.checksum ≠ a.checksum then .error (.checksumMismatch a.id record.checksum a.checksum)
    else .ok (log ++ [⟨a.id, a.checksum, a.direction, phase⟩])
  | none => .ok (log ++ [⟨a.id, a.checksum, a.direction, phase⟩])

theorem latestPhase_commit {log : MigrationLog} {a : MigrationApply} {phase : MigrationPhase}
    {found : Option MigrationPhase} (h : latestPhase log a = .ok found) :
    ∃ log', commit log a phase = .ok log' ∧ latestPhase log' a = .ok (some phase) := by
  have hlatest : latestPhase (log ++ [⟨a.id, a.checksum, a.direction, phase⟩]) a = .ok (some phase) := by
    simp [latestPhase, lastRecord]
  refine ⟨_, ?_, hlatest⟩
  rw [latestPhase] at h
  rw [commit]
  cases hlast : lastRecord log a with
  | none => rfl
  | some record =>
    rw [hlast] at h
    dsimp only at h ⊢
    obtain ⟨hsum, h⟩ := of_check h
    rw [if_neg hsum]

/-! ## A run -/

/-- mirrors src/migration/file.rs:18-23 -/
structure AlterStmt where
  pipeline : Text
  ns : Text
  op : SchemaAlterOp
deriving DecidableEq, Repr

structure WalRewrite where
  ns : Text
  op : SchemaAlterOp
  fieldId : Int
deriving DecidableEq

structure Alteration where
  ns : Text
  output : Metadata
  op : SchemaAlterOp
  fieldId : Int
deriving DecidableEq

def Alteration.rewrite (alteration : Alteration) : WalRewrite :=
  ⟨alteration.ns, alteration.op, alteration.fieldId⟩

inductive MigrationError
  /-- `Schema '{}' not found for pipeline '{}'` -/
  | schemaNotFound (ns pipeline : Text)
  | alter (e : SchemaAlterError)
deriving DecidableEq, Repr

abbrev PipelineMetadata := Map Text Metadata

/-- mirrors apply.rs:153-164 -/
def planStmt (metadata : PipelineMetadata) (stmt : AlterStmt) :
    Except MigrationError (PipelineMetadata × Alteration) :=
  match metadata.get stmt.ns with
  | none => .error (.schemaNotFound stmt.ns stmt.pipeline)
  | some m =>
    match (do
      let op ← canonicalizeOp m stmt.op
      let fieldId ← fieldIdForOp m op
      let altered ← apply m op
      return (altered, op, fieldId) : Except SchemaAlterError (Metadata × SchemaAlterOp × Int)) with
    | .error e => .error (.alter e)
    | .ok (altered, op, fieldId) =>
      .ok (metadata.insert stmt.ns altered, ⟨stmt.ns, altered, op, fieldId⟩)

def plan : PipelineMetadata → List AlterStmt → Except MigrationError (PipelineMetadata × List Alteration)
  | metadata, [] => .ok (metadata, [])
  | metadata, stmt :: stmts => do
    let (metadata, alteration) ← planStmt metadata stmt
    let (metadata, alterations) ← plan metadata stmts
    return (metadata, alteration :: alterations)

inductive Pc
  /-- Statements to go, and the alterations of those before. -/
  | planning (todo : List AlterStmt) (done : List Alteration)
  | walRewritten (alterations : List Alteration)
  | altering (done todo : List Alteration)
  | destApplied (alterations : List Alteration)
  | storing
  | committing

structure Run where
  /-- The phase found in the journal at the start. -/
  phase : Option MigrationPhase
  metadata : PipelineMetadata
  pc : Pc

inductive Control
  | idle
  | running (run : Run)
  | returned

structure St where
  journal : MigrationLog
  metadata : PipelineMetadata
  wal : List WalRewrite
  dest : List Alteration
  control : Control

inductive Label
  | start
  | next
  /-- A crash, or an error of the step at hand. -/
  | cut

section Step
variable (native : Bool) (a : MigrationApply) (stmts : List AlterStmt)

/-- mirrors apply.rs:132-149 -/
def start (s : St) : St :=
  match latestPhase s.journal a with
  | .error _ => { s with control := .idle }
  | .ok (some .committed) => { s with control := .returned }
  | .ok phase =>
    -- The sink does not support migrations.
    if native = false then { s with control := .idle }
    else
      let pc := if phase = some .destApplied then .storing else .planning stmts []
      { s with control := .running ⟨phase, s.metadata, pc⟩ }

def record (s : St) (phase : MigrationPhase) (control : Control) : St :=
  match commit s.journal a phase with
  | .error _ => { s with control := .idle }
  | .ok journal => { s with journal := journal, control := control }

/-- mirrors apply.rs:151-199 -/
def next (s : St) (run : Run) : St :=
  match run.pc with
  | .planning [] done =>
    let pc := if run.phase = some .walRewritten then .altering [] done else .walRewritten done
    { s with control := .running { run with pc := pc } }
  | .planning (stmt :: todo) done =>
    match planStmt run.metadata stmt with
    | .error _ => { s with control := .idle }
    | .ok (metadata, alteration) =>
      { s with
        wal := if run.phase = some .walRewritten then s.wal else s.wal ++ [alteration.rewrite]
        control := .running { run with
          metadata := metadata
          pc := .planning todo (done ++ [alteration]) } }
  | .walRewritten alterations =>
    record a s .walRewritten (.running { run with pc := .altering [] alterations })
  | .altering done [] => { s with control := .running { run with pc := .destApplied done } }
  | .altering done (alteration :: todo) =>
    { s with
      dest := s.dest ++ [alteration]
      control := .running { run with pc := .altering (done ++ [alteration]) todo } }
  | .destApplied _ => record a s .destApplied (.running { run with pc := .storing })
  | .storing => { s with metadata := run.metadata, control := .running { run with pc := .committing } }
  | .committing => record a s .committed .returned

def step (s : St) : Label → Option St
  | .start =>
    match s.control with
    | .running _ => none
    | _ => some (start native a stmts s)
  | .next =>
    match s.control with
    | .running run => some (next a s run)
    | _ => none
  | .cut =>
    match s.control with
    | .running _ => some { s with control := .idle }
    | _ => none

def Init (m₀ : PipelineMetadata) (w₀ : List WalRewrite) (d₀ : List Alteration) (s : St) : Prop :=
  latestPhase s.journal a = .ok none ∧ s.metadata = m₀ ∧ s.wal = w₀ ∧ s.dest = d₀ ∧ s.control = .idle

def system (m₀ : PipelineMetadata) (w₀ : List WalRewrite) (d₀ : List Alteration) : LTS St Label :=
  LTS.ofFn (Init a m₀ w₀ d₀) (step native a stmts)

end Step

/-! ## Applied once -/

/-- The migration has been applied once, to all three, and is recorded. -/
def AppliedOnce (a : MigrationApply) (stmts : List AlterStmt) (m₀ : PipelineMetadata)
    (w₀ : List WalRewrite) (d₀ : List Alteration) (s : St) : Prop :=
  ∃ metadata alterations, plan m₀ stmts = .ok (metadata, alterations) ∧ s.metadata = metadata ∧
    s.wal = w₀ ++ alterations.map Alteration.rewrite ∧ s.dest = d₀ ++ alterations ∧
    latestPhase s.journal a = .ok (some .committed)

/-- What the run has done since the last phase in the journal: nothing that a
new run does again, or leaves undone. -/
def Run.Recorded (run : Run) (stored : PipelineMetadata) : Prop :=
  match run.pc with
  | .planning _ done => run.phase = some .walRewritten ∨ done = []
  | .walRewritten alterations => alterations = []
  | .altering done _ => done = []
  | .destApplied alterations => alterations = []
  | .storing => run.metadata = stored
  | .committing => True

instance (run : Run) (stored : PipelineMetadata) : Decidable (run.Recorded stored) :=
  match run with
  | ⟨_, _, .planning ..⟩ => inferInstanceAs (Decidable (_ ∨ _))
  | ⟨_, _, .walRewritten _⟩ => inferInstanceAs (Decidable (_ = _))
  | ⟨_, _, .altering ..⟩ => inferInstanceAs (Decidable (_ = _))
  | ⟨_, _, .destApplied _⟩ => inferInstanceAs (Decidable (_ = _))
  | ⟨_, _, .storing⟩ => inferInstanceAs (Decidable (_ = _))
  | ⟨_, _, .committing⟩ => inferInstanceAs (Decidable True)

/-- The condition on a step: a run is cut only where it is recorded. -/
def CutRecorded (s : St) : Label → Prop
  | .start => True
  | .next => True
  | .cut => ∀ run, s.control = .running run → run.Recorded s.metadata

instance (s : St) : (l : Label) → Decidable (CutRecorded s l)
  | .start => inferInstanceAs (Decidable True)
  | .next => inferInstanceAs (Decidable True)
  | .cut =>
    match h : s.control with
    | .running run =>
      decidable_of_iff (run.Recorded s.metadata)
        ⟨fun hr _ h' => Control.running.inj (h.symm.trans h') ▸ hr, fun hr => hr run h⟩
    | .idle => isTrue fun _ h' => Control.noConfusion (h.symm.trans h')
    | .returned => isTrue fun _ h' => Control.noConfusion (h.symm.trans h')

/-! ## Steps -/

inductive Moves (native : Bool) (a : MigrationApply) (stmts : List AlterStmt) (s : St) : Label → St → Prop
  | start (hidle : ∀ run, s.control ≠ .running run) : Moves native a stmts s .start (start native a stmts s)
  | next {run : Run} (hrun : s.control = .running run) : Moves native a stmts s .next (next a s run)
  | cut {run : Run} (hrun : s.control = .running run) :
    Moves native a stmts s .cut { s with control := .idle }

theorem moves_of_step {native : Bool} {a : MigrationApply} {stmts : List AlterStmt} {s s' : St} {l : Label}
    (h : step native a stmts s l = some s') : Moves native a stmts s l s' := by
  cases l with
  | start =>
    simp only [step] at h
    split at h
    · cases h
    · rename_i hidle
      cases h
      exact .start hidle
  | next =>
    simp only [step] at h
    split at h
    · rename_i run hrun
      cases h
      exact .next hrun
    · cases h
  | cut =>
    simp only [step] at h
    split at h
    · rename_i run hrun
      cases h
      exact .cut hrun
    · cases h

theorem plan_cons {metadata metadata' : PipelineMetadata} {stmt : AlterStmt} {stmts : List AlterStmt}
    {alterations : List Alteration} (h : plan metadata (stmt :: stmts) = .ok (metadata', alterations)) :
    ∃ first rest, planStmt metadata stmt = .ok first ∧ plan first.1 stmts = .ok (metadata', rest) ∧
      alterations = first.2 :: rest := by
  rw [plan] at h
  cases hstmt : planStmt metadata stmt with
  | error e =>
    rw [hstmt] at h
    cases h
  | ok first =>
    rw [hstmt] at h
    simp only [bind, Except.bind, pure, Except.pure] at h
    cases hrest : plan first.1 stmts with
    | error e =>
      rw [hrest] at h
      cases h
    | ok rest =>
      rw [hrest] at h
      cases h
      exact ⟨first, rest.2, rfl, hrest, rfl⟩

/-! ## A migration that cannot be planned never returns -/

/-- The journal stays empty, and every run ends at the statement that fails. -/
structure Doomed (a : MigrationApply) (m₀ : PipelineMetadata) (s : St) : Prop where
  phase : latestPhase s.journal a = .ok none
  metadata : s.metadata = m₀
  control : s.control = .idle ∨ ∃ run todo done, s.control = .running run ∧
    run.pc = .planning todo done ∧ ∀ r, plan run.metadata todo ≠ .ok r

section Doomed
variable {native : Bool} {a : MigrationApply} {stmts : List AlterStmt} {m₀ : PipelineMetadata}

theorem doomed_start (hplan : ∀ r, plan m₀ stmts ≠ .ok r) {s : St} (h : Doomed a m₀ s) :
    Doomed a m₀ (start native a stmts s) := by
  unfold start
  rw [h.phase]
  dsimp only
  split
  · exact ⟨h.phase, h.metadata, .inl rfl⟩
  · refine ⟨h.phase, h.metadata, .inr ⟨_, stmts, [], rfl, rfl, ?_⟩⟩
    rw [h.metadata]
    exact hplan

theorem doomed_next {s : St} {run : Run} (hrun : s.control = .running run) (h : Doomed a m₀ s) :
    Doomed a m₀ (next a s run) := by
  obtain hidle | ⟨run', todo, done, hrun', hpc, hfails⟩ := h.control
  · rw [hrun] at hidle
    cases hidle
  obtain rfl := Control.running.inj (hrun.symm.trans hrun')
  unfold next
  rw [hpc]
  cases todo with
  | nil => exact absurd rfl (hfails (run.metadata, []))
  | cons stmt todo =>
    dsimp only
    cases hstmt : planStmt run.metadata stmt with
    | error e => exact ⟨h.phase, h.metadata, .inl rfl⟩
    | ok first =>
      refine ⟨h.phase, h.metadata, .inr ⟨_, todo, _, rfl, rfl, ?_⟩⟩
      intro rest hrest
      apply hfails (rest.1, first.2 :: rest.2)
      simp only [plan, hstmt, bind, Except.bind] at hrest ⊢
      rw [hrest]
      rfl

theorem doomed_inductive (hplan : ∀ r, plan m₀ stmts ≠ .ok r) {w₀ : List WalRewrite}
    {d₀ : List Alteration} {ok : St → Label → Prop} :
    ((system native a stmts m₀ w₀ d₀).restrict ok).Inductive (Doomed a m₀) where
  init := by
    intro s hs
    obtain ⟨hphase, hmeta, -, -, hidle⟩ := hs
    exact ⟨hphase, hmeta, .inl hidle⟩
  step := by
    intro s l s' h hstep
    cases moves_of_step hstep.2 with
    | start hidle => exact doomed_start hplan h
    | next hrun => exact doomed_next hrun h
    | cut hrun => exact ⟨h.phase, h.metadata, .inl rfl⟩

end Doomed

/-! ## A migration whose runs are cut where they are recorded -/

structure Ends where
  metadata₀ : PipelineMetadata
  wal₀ : List WalRewrite
  dest₀ : List Alteration
  metadata : PipelineMetadata
  alterations : List Alteration

def Ends.wal (E : Ends) : List WalRewrite :=
  E.wal₀ ++ E.alterations.map Alteration.rewrite

def Ends.dest (E : Ends) : List Alteration :=
  E.dest₀ ++ E.alterations

def Ends.Rest (E : Ends) (s : St) : Option MigrationPhase → Prop
  | none => s.metadata = E.metadata₀ ∧ s.wal = E.wal₀ ∧ s.dest = E.dest₀
  | some .walRewritten => s.metadata = E.metadata₀ ∧ s.wal = E.wal ∧ s.dest = E.dest₀
  | some .destApplied => s.metadata = E.metadata ∧ s.wal = E.wal ∧ s.dest = E.dest
  | some .committed => s.metadata = E.metadata ∧ s.wal = E.wal ∧ s.dest = E.dest

inductive Ends.Mid (E : Ends) (s : St) : Option MigrationPhase → Run → Prop
  | planning {metadata : PipelineMetadata} {todo : List AlterStmt} {done rest : List Alteration}
    (hplan : plan metadata todo = .ok (E.metadata, rest)) (hall : done ++ rest = E.alterations)
    (hmeta : s.metadata = E.metadata₀) (hwal : s.wal = E.wal₀ ++ done.map Alteration.rewrite)
    (hdest : s.dest = E.dest₀) : E.Mid s none ⟨none, metadata, .planning todo done⟩
  /-- The WAL was rewritten by an earlier run. -/
  | replanning {metadata : PipelineMetadata} {todo : List AlterStmt} {done rest : List Alteration}
    (hplan : plan metadata todo = .ok (E.metadata, rest)) (hall : done ++ rest = E.alterations)
    (hrest : E.Rest s (some .walRewritten)) :
    E.Mid s (some .walRewritten) ⟨some .walRewritten, metadata, .planning todo done⟩
  | walRewritten {phase : Option MigrationPhase} (hmeta : s.metadata = E.metadata₀)
    (hwal : s.wal = E.wal) (hdest : s.dest = E.dest₀) :
    E.Mid s none ⟨phase, E.metadata, .walRewritten E.alterations⟩
  | altering {phase : Option MigrationPhase} {done todo : List Alteration}
    (hall : done ++ todo = E.alterations) (hmeta : s.metadata = E.metadata₀) (hwal : s.wal = E.wal)
    (hdest : s.dest = E.dest₀ ++ done) :
    E.Mid s (some .walRewritten) ⟨phase, E.metadata, .altering done todo⟩
  | destApplied {phase : Option MigrationPhase} (hmeta : s.metadata = E.metadata₀)
    (hwal : s.wal = E.wal) (hdest : s.dest = E.dest) :
    E.Mid s (some .walRewritten) ⟨phase, E.metadata, .destApplied E.alterations⟩
  | storing {phase : Option MigrationPhase} (hwal : s.wal = E.wal) (hdest : s.dest = E.dest) :
    E.Mid s (some .destApplied) ⟨phase, E.metadata, .storing⟩
  | committing {phase : Option MigrationPhase} (hrest : E.Rest s (some .destApplied)) :
    E.Mid s (some .destApplied) ⟨phase, E.metadata, .committing⟩

inductive Ends.At (E : Ends) (s : St) (phase : Option MigrationPhase) : Control → Prop
  | idle (hrest : E.Rest s phase) : E.At s phase .idle
  | running {run : Run} (hmid : E.Mid s phase run) : E.At s phase (.running run)
  | returned (hphase : phase = some .committed) (hrest : E.Rest s phase) : E.At s phase .returned

def Inv (a : MigrationApply) (E : Ends) (s : St) : Prop :=
  ∃ phase, latestPhase s.journal a = .ok phase ∧ E.At s phase s.control

section Inv
variable {native : Bool} {a : MigrationApply} {stmts : List AlterStmt} {E : Ends}

variable {s : St} {phase : Option MigrationPhase} {run : Run}

theorem rest_of_recorded (h : E.Mid s phase run) (hrec : run.Recorded s.metadata) :
    E.Rest s phase := by
  cases h with
  | planning hplan hall hmeta hwal hdest =>
    obtain hphase | hdone := hrec
    · cases hphase
    · rw [hdone, List.map_nil, List.append_nil] at hwal
      exact ⟨hmeta, hwal, hdest⟩
  | replanning hplan hall hrest | committing hrest => exact hrest
  | walRewritten hmeta hwal hdest =>
    have hnone : E.alterations = [] := hrec
    rw [Ends.wal, hnone, List.map_nil, List.append_nil] at hwal
    exact ⟨hmeta, hwal, hdest⟩
  | altering hall hmeta hwal hdest =>
    rw [show _ = [] from hrec, List.append_nil] at hdest
    exact ⟨hmeta, hwal, hdest⟩
  | destApplied hmeta hwal hdest =>
    have hnone : E.alterations = [] := hrec
    rw [Ends.dest, hnone, List.append_nil] at hdest
    exact ⟨hmeta, hwal, hdest⟩
  | storing hwal hdest => exact ⟨Eq.symm hrec, hwal, hdest⟩

theorem inv_record {recorded : MigrationPhase} {control : Control}
    (hphase : latestPhase s.journal a = .ok phase)
    (hnext : ∀ journal, E.At { s with journal := journal, control := control } (some recorded) control) :
    Inv a E (record a s recorded control) := by
  obtain ⟨journal, hcommit, hlatest⟩ := latestPhase_commit hphase
  rw [record, hcommit]
  exact ⟨some recorded, hlatest, hnext journal⟩

theorem inv_next (hphase : latestPhase s.journal a = .ok phase) (h : E.Mid s phase run) :
    Inv a E (next a s run) := by
  cases h with
  | @planning metadata todo done rest hplan hall hmeta hwal hdest =>
    cases todo with
    | nil =>
      cases hplan
      rw [List.append_nil] at hall
      subst hall
      exact ⟨none, hphase, .running (.walRewritten hmeta hwal hdest)⟩
    | cons stmt todo =>
      obtain ⟨first, rest', hstmt, hplan', rfl⟩ := plan_cons hplan
      simp only [next, hstmt]
      refine ⟨none, hphase, .running (.planning hplan' ?_ hmeta ?_ hdest)⟩
      · rw [List.append_assoc]
        exact hall
      · rw [if_neg (by simp), hwal, List.map_append, List.append_assoc]
        rfl
  | @replanning metadata todo done rest hplan hall hrest =>
    obtain ⟨hmeta, hwal, hdest⟩ := hrest
    cases todo with
    | nil =>
      cases hplan
      rw [List.append_nil] at hall
      refine ⟨_, hphase, .running (.altering hall hmeta hwal ?_)⟩
      rw [List.append_nil]
      exact hdest
    | cons stmt todo =>
      obtain ⟨first, rest', hstmt, hplan', rfl⟩ := plan_cons hplan
      simp only [next, hstmt]
      refine ⟨_, hphase, .running (.replanning hplan' ?_ ⟨hmeta, hwal, hdest⟩)⟩
      rw [List.append_assoc]
      exact hall
  | walRewritten hmeta hwal hdest =>
    refine inv_record hphase fun journal => .running (.altering rfl hmeta hwal ?_)
    rw [List.append_nil]
    exact hdest
  | @altering _ done todo hall hmeta hwal hdest =>
    cases todo with
    | nil =>
      rw [List.append_nil] at hall
      subst hall
      exact ⟨_, hphase, .running (.destApplied hmeta hwal hdest)⟩
    | cons alteration todo =>
      refine ⟨_, hphase, .running (.altering ?_ hmeta hwal ?_)⟩
      · rw [List.append_assoc]
        exact hall
      · rw [← List.append_assoc, ← hdest]
        rfl
  | destApplied hmeta hwal hdest => exact inv_record hphase fun journal => .running (.storing hwal hdest)
  | storing hwal hdest => exact ⟨_, hphase, .running (.committing ⟨rfl, hwal, hdest⟩)⟩
  | committing hrest => exact inv_record hphase fun journal => .returned rfl hrest

theorem inv_start (hplan : plan E.metadata₀ stmts = .ok (E.metadata, E.alterations))
    (hphase : latestPhase s.journal a = .ok phase) (h : E.Rest s phase) :
    Inv a E (start native a stmts s) := by
  unfold start
  rw [hphase]
  cases native with
  | false =>
    cases phase with
    | none => exact ⟨_, hphase, .idle h⟩
    | some phase =>
      cases phase with
      | walRewritten | destApplied => exact ⟨_, hphase, .idle h⟩
      | committed => exact ⟨_, hphase, .returned rfl h⟩
  | true =>
    cases phase with
    | none =>
      obtain ⟨hmeta, hwal, hdest⟩ := h
      rw [← hmeta] at hplan
      refine ⟨_, hphase, .running (.planning hplan rfl hmeta ?_ hdest)⟩
      rw [List.map_nil, List.append_nil]
      exact hwal
    | some phase =>
      cases phase with
      | walRewritten =>
        rw [← h.1] at hplan
        exact ⟨_, hphase, .running (.replanning hplan rfl h)⟩
      | destApplied =>
        obtain ⟨hmeta, hwal, hdest⟩ := h
        refine ⟨_, hphase, .running ?_⟩
        rw [hmeta]
        exact .storing hwal hdest
      | committed => exact ⟨_, hphase, .returned rfl h⟩

theorem rest_of_at (h : E.At s phase s.control) (hidle : ∀ run, s.control ≠ .running run) :
    E.Rest s phase := by
  cases hcontrol : s.control with
  | running run => exact absurd hcontrol (hidle run)
  | idle =>
    rw [hcontrol] at h
    cases h with
    | idle hrest => exact hrest
  | returned =>
    rw [hcontrol] at h
    cases h with
    | returned hphase hrest => exact hrest

theorem mid_of_at (h : E.At s phase s.control) (hrun : s.control = .running run) :
    E.Mid s phase run := by
  rw [hrun] at h
  cases h with
  | running hmid => exact hmid

theorem inv_inductive (hplan : plan E.metadata₀ stmts = .ok (E.metadata, E.alterations)) :
    ((system native a stmts E.metadata₀ E.wal₀ E.dest₀).restrict CutRecorded).Inductive (Inv a E) where
  init := by
    intro s hs
    obtain ⟨hphase, hmeta, hwal, hdest, hidle⟩ := hs
    refine ⟨none, hphase, ?_⟩
    rw [hidle]
    exact .idle ⟨hmeta, hwal, hdest⟩
  step := by
    intro s l s' h hstep
    obtain ⟨hok, hstep⟩ := hstep
    obtain ⟨phase, hphase, hat⟩ := h
    cases moves_of_step hstep with
    | start hidle => exact inv_start hplan hphase (rest_of_at hat hidle)
    | next hrun => exact inv_next hphase (mid_of_at hat hrun)
    | cut hrun =>
      have hrest := rest_of_recorded (mid_of_at hat hrun) (hok _ hrun)
      refine ⟨phase, hphase, .idle ?_⟩
      cases phase with
      | none => exact hrest
      | some phase => cases phase <;> exact hrest

end Inv

section Returned
variable {native : Bool} {a : MigrationApply} {stmts : List AlterStmt} {m₀ : PipelineMetadata}
  {w₀ : List WalRewrite} {d₀ : List Alteration} {s : St}

theorem appliedOnce_of_returned
    (h : ((system native a stmts m₀ w₀ d₀).restrict CutRecorded).Reachable s)
    (hret : s.control = .returned) : AppliedOnce a stmts m₀ w₀ d₀ s := by
  by_cases hplan : ∃ r, plan m₀ stmts = .ok r
  · obtain ⟨r, hplan⟩ := hplan
    obtain ⟨phase, hphase, hat⟩ :=
      (inv_inductive (E := ⟨m₀, w₀, d₀, r.1, r.2⟩) hplan).reachable s h
    rw [hret] at hat
    cases hat with
    | returned hcommitted hrest =>
      subst hcommitted
      obtain ⟨hmeta, hwal, hdest⟩ := hrest
      exact ⟨r.1, r.2, hplan, hmeta, hwal, hdest, hphase⟩
  · exfalso
    have hdoomed := (doomed_inductive (fun r hr => hplan ⟨r, hr⟩)).reachable s h
    obtain hidle | ⟨run, todo, done, hrun, -⟩ := hdoomed.control
    · rw [hret] at hidle
      cases hidle
    · rw [hret] at hrun
      cases hrun

end Returned

/-- A run that returns Ok, after runs that were cut only where their last phase
was recorded, leaves the migration applied once. -/
theorem migrated_once (native : Bool) (a : MigrationApply) (stmts : List AlterStmt) (m₀ : PipelineMetadata)
    (w₀ : List WalRewrite) (d₀ : List Alteration) (s : St)
    (h : ((system native a stmts m₀ w₀ d₀).restrict CutRecorded).Reachable s)
    (hret : s.control = .returned) : AppliedOnce a stmts m₀ w₀ d₀ s :=
  appliedOnce_of_returned h hret

/-! ## A rename -/

def oneColumn : PipelineMetadata :=
  (∅ : PipelineMetadata).insert ['n']
    ⟨⟨0, [], [], .record, ∅, 0, 1, []⟩, .cons ['a'] ⟨1, ['a'], ['a'], .string, ∅, 7, 1, []⟩ .nil .nil⟩

def renameStmt : AlterStmt := ⟨['p'], ['n'], .rename ['a'] ['b']⟩

def renameApply : MigrationApply := ⟨['1'], ['c'], .up⟩

def beforeRename : St := ⟨[], oneColumn, [], [], .idle⟩

theorem beforeRename_init : (system true renameApply [renameStmt] oneColumn [] []).init beforeRename :=
  ⟨rfl, rfl, rfl, rfl, rfl⟩

def wholeRun : List Label :=
  [.start, .next, .next, .next, .next, .next, .next, .next, .next]

def Control.isReturned : Control → Bool
  | .idle => false
  | .running _ => false
  | .returned => true

theorem control_of_isReturned {control : Control} (h : control.isReturned = true) : control = .returned := by
  cases control with
  | idle | running run => cases h
  | returned => rfl

theorem migrated_once_rename : ∃ s,
    ((system true renameApply [renameStmt] oneColumn [] []).restrict CutRecorded).Reachable s ∧
      s.control = .returned ∧ AppliedOnce renameApply [renameStmt] oneColumn [] [] s := by
  -- A run cut before it did anything, and one that is not cut.
  obtain ⟨s, hreach, hs⟩ : ∃ s, ((system true renameApply [renameStmt] oneColumn [] []).restrict
      CutRecorded).Reachable s ∧ s.control.isReturned :=
    exists_restrict_reachable (.start :: .cut :: wholeRun) beforeRename_init (by decide +kernel)
  have hret := control_of_isReturned hs
  exact ⟨s, hreach, hret, migrated_once true renameApply [renameStmt] oneColumn [] [] s hreach hret⟩

theorem plan_rename_ne : ∀ r, plan oneColumn [renameStmt] = .ok r → r.1 ≠ oneColumn := by
  have hplan : (plan oneColumn [renameStmt]).toOption.all fun r => r.1 ≠ oneColumn := by decide +kernel
  intro r hr
  rw [hr] at hplan
  exact of_decide_eq_true hplan

/-- The first run is cut after it recorded that the destination is altered and
before it stored the metadata. The second finds that record, leaves out the
statements, stores the metadata it loaded and returns Ok: the column has its old
name in the metadata and the new one in the WAL and the destination. -/
theorem metadata_never_stored : ∃ s,
    (system true renameApply [renameStmt] oneColumn [] []).Reachable s ∧ s.control = .returned ∧
      ¬ AppliedOnce renameApply [renameStmt] oneColumn [] [] s := by
  obtain ⟨s, hreach, hret, hmeta⟩ : ∃ s, (system true renameApply [renameStmt] oneColumn [] []).Reachable s ∧
      s.control.isReturned ∧ s.metadata = oneColumn :=
    exists_reachable [.start, .next, .next, .next, .next, .next, .next, .cut, .start, .next, .next]
      beforeRename_init (by decide +kernel)
  refine ⟨s, hreach, control_of_isReturned hret, ?_⟩
  intro happlied
  obtain ⟨metadata, alterations, hplan, hmeta', -⟩ := happlied
  exact plan_rename_ne _ hplan (hmeta'.symm.trans hmeta)

end Skippr.L9.Migration
