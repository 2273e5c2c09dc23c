import Skippr.L9Schema.Migration

/-!
# Migrations one after another

`apply_query_alter` runs a statement as a migration named after the digest of
its text, and `apply_loaded` a migration file, up or down
(src/migration/apply.rs:35-60, 215-235). A call whose id the journal shows
committed, in the direction of the call, returns Ok and does nothing: a
statement that was reversed by another one cannot be applied again.
-/
namespace Skippr.L9.Migration

/-! ## Calls -/

/-- mirrors src/migration/file.rs:25-32 -/
structure LoadedMigration where
  id : Text
  checksum : Text
  up : List AlterStmt
  down : Option (List AlterStmt)

/-- mirrors apply.rs:222-234 -/
def LoadedMigration.run (m : LoadedMigration) (direction : MigrationDirection) :
    Option (MigrationApply × List AlterStmt) :=
  let stmts := match direction with
    | .up => some m.up
    | .down => m.down
  stmts.map (⟨m.id, m.checksum, direction⟩, ·)

inductive Call
  | queryAlter (sql : Text)
  | loaded (m : LoadedMigration) (direction : MigrationDirection)

/-- What a text parses to: the checksum of its parts, and their statements. -/
abbrev Parse := Text → Option (Text × List AlterStmt × Option (List AlterStmt))

section Calls
variable (native : Bool) (digest : Text → Text) (parse : Parse)

/-- mirrors file.rs:34-56 -/
def loadSqlFile (id sql : Text) : Option LoadedMigration :=
  (parse sql).map fun parts => ⟨id, parts.1, parts.2.1, parts.2.2⟩

/-- mirrors apply.rs:49-60 -/
def Call.run : Call → Option (MigrationApply × List AlterStmt)
  | .queryAlter sql => (loadSqlFile parse ("query-".toList ++ digest sql) sql).bind (·.run .up)
  | .loaded m direction => m.run direction

/-- A call that takes this many steps and returns Ok. -/
def Call.exec (call : Call × Nat) (s : St) : Option St := do
  let (a, stmts) ← call.1.run digest parse
  let s' ← Skippr.exec (step native a stmts) { s with control := .idle }
    (.start :: List.replicate call.2 .next)
  if s'.control.isReturned then some s' else none

def execAll : List (Call × Nat) → St → Option St
  | [], s => some s
  | call :: calls, s => do execAll calls (← Call.exec native digest parse call s)

def applyAll : List Call → PipelineMetadata → Option PipelineMetadata
  | [], metadata => some metadata
  | call :: calls, metadata => do
    let (_, stmts) ← call.run digest parse
    let (metadata, _) ← (plan metadata stmts).toOption
    applyAll calls metadata

def applies (calls : List Call) : List MigrationApply :=
  calls.filterMap fun call => (call.run digest parse).map (·.1)

end Calls

/-- Two calls of one id, with none of that id between them, go opposite ways. -/
def Alternate : List MigrationApply → Bool
  | [] => true
  | a :: rest => (rest.find? (·.id = a.id)).all (·.direction ≠ a.direction) && Alternate rest

/-! ## One call -/

section OneCall
variable {native : Bool} {digest : Text → Text} {parse : Parse}
  {a b : MigrationApply} {stmts : List AlterStmt} {s s' : St}

theorem record_other (h : b.id ≠ a.id) (phase : MigrationPhase) (control : Control) :
    lastRecord (record a s phase control).journal b = lastRecord s.journal b := by
  have happend : ∀ r : MigrationRecord, b.id ≠ r.id →
      lastRecord (s.journal ++ [r]) b = lastRecord s.journal b := by
    intro r hr
    simp [lastRecord, Ne.symm hr]
  unfold record commit
  split
  · rfl
  rename_i heq
  split at heq
  · split at heq <;> cases heq
    exact happend _ h
  · cases heq
    exact happend _ h

theorem next_other (h : b.id ≠ a.id) (run : Run) :
    lastRecord (next a s run).journal b = lastRecord s.journal b := by
  unfold next
  split
  case h_2 => split <;> rfl
  case h_3 => exact record_other h _ _
  case h_6 => exact record_other h _ _
  case h_8 => exact record_other h _ _
  all_goals rfl

theorem run_other (h : b.id ≠ a.id) {init : St → Prop} {ls : List Label}
    (hrun : (LTS.ofFn init (step native a stmts)).Run s ls s') :
    lastRecord s'.journal b = lastRecord s.journal b := by
  induction hrun with
  | nil s => rfl
  | cons hstep _ ih =>
    rw [ih]
    cases moves_of_step hstep with
    | start hidle =>
      unfold start
      split
      · rfl
      · rfl
      · split <;> rfl
    | next hrun => exact next_other h _
    | cut hrun => rfl

theorem latestPhase_opposite {log : MigrationLog} {phase : MigrationPhase}
    (h : latestPhase log a = .ok (some phase)) (hid : b.id = a.id) (hdir : b.direction ≠ a.direction)
    (phase' : MigrationPhase) : latestPhase log b ≠ .ok (some phase') := by
  have hlast : lastRecord log b = lastRecord log a := by rw [lastRecord, lastRecord, hid]
  unfold latestPhase at h ⊢
  rw [hlast]
  cases hrecord : lastRecord log a with
  | none => simp [hrecord] at h
  | some r =>
    simp only [hrecord] at h ⊢
    split at h
    · cases h
    split at h
    · cases h
    rename_i hsame
    split
    · simp
    · rw [if_pos fun heq => hdir (heq.symm.trans (not_not.mp hsame))]
      simp

theorem latestPhase_ok (hret : s'.control = .returned) {n : Nat}
    (h : exec (step native a stmts) { s with control := .idle } (.start :: List.replicate n .next) = some s') :
    ∃ phase, latestPhase s.journal a = .ok phase := by
  cases hphase : latestPhase s.journal a with
  | ok phase => exact ⟨phase, rfl⟩
  | error e =>
    have hstart : start native a stmts { s with control := .idle } = { s with control := .idle } := by
      simp [start, hphase]
    simp only [exec, step, hstart, Option.bind_some] at h
    cases n with
    | zero =>
      cases h
      cases hret
    | succ n => cases h

theorem Call.exec_spec {call : Call × Nat} (h : Call.exec native digest parse call s = some s') :
    ∃ a stmts, call.1.run digest parse = some (a, stmts) ∧
      ((∀ phase, latestPhase s.journal a ≠ .ok (some phase)) →
        (∃ alterations, plan s.metadata stmts = .ok (s'.metadata, alterations)) ∧
          latestPhase s'.journal a = .ok (some .committed)) ∧
      ∀ b : MigrationApply, b.id ≠ a.id → latestPhase s'.journal b = latestPhase s.journal b := by
  simp only [Call.exec, bind, Option.bind_eq_some_iff] at h
  obtain ⟨⟨a, stmts⟩, hcall, s₁, hexec, hret⟩ := h
  split at hret
  swap
  · cases hret
  rename_i hreturned
  cases hret
  have hret := control_of_isReturned hreturned
  refine ⟨a, stmts, hcall, fun hnew => ?_, fun b hid => ?_⟩
  · have hnone : latestPhase s.journal a = .ok none := by
      obtain ⟨phase, hphase⟩ := latestPhase_ok hret hexec
      cases phase with
      | none => exact hphase
      | some phase => exact absurd hphase (hnew phase)
    have hreach : ((system native a stmts s.metadata s.wal s.dest).restrict CutRecorded).Reachable s' := by
      refine ⟨{ s with control := .idle }, _, ⟨hnone, rfl, rfl, rfl, rfl⟩,
        (run_of_exec hexec).restrict fun l hl s => ?_⟩
      rcases List.mem_cons.mp hl with rfl | hl
      · trivial
      · rw [List.eq_of_mem_replicate hl]
        trivial
    obtain ⟨metadata, alterations, hplan, hmeta, -, -, hphase⟩ := appliedOnce_of_returned hreach hret
    exact ⟨⟨alterations, by rw [hplan, hmeta]⟩, hphase⟩
  · have hrun : (LTS.ofFn (fun _ => True) (step native a stmts)).Run _ _ s' := run_of_exec hexec
    rw [latestPhase, latestPhase, run_other hid hrun]

end OneCall

/-! ## All calls -/

def Ready (log : MigrationLog) (as : List MigrationApply) : Prop :=
  ∀ a, as.find? (·.id = a.id) = some a → ∀ phase, latestPhase log a ≠ .ok (some phase)

theorem applyAll_of_execAll {native : Bool} {digest : Text → Text} {parse : Parse}
    {calls : List (Call × Nat)} {s s' : St} (h : execAll native digest parse calls s = some s')
    (halt : Alternate (applies digest parse (calls.map (·.1))) = true)
    (hready : Ready s.journal (applies digest parse (calls.map (·.1)))) :
    applyAll digest parse (calls.map (·.1)) s.metadata = some s'.metadata := by
  induction calls generalizing s with
  | nil =>
    cases h
    rfl
  | cons call calls ih =>
    simp only [execAll, bind, Option.bind_eq_some_iff] at h
    obtain ⟨s₁, hexec, hrest⟩ := h
    obtain ⟨a, stmts, hcall, hnew, hother⟩ := Call.exec_spec hexec
    have happlies : applies digest parse ((call :: calls).map (·.1)) =
        a :: applies digest parse (calls.map (·.1)) := by simp [applies, hcall]
    rw [happlies] at halt hready
    rw [Alternate, Bool.and_eq_true] at halt
    obtain ⟨⟨alterations, hplan⟩, hcommitted⟩ := hnew (hready a (by simp))
    have hready' : Ready s₁.journal (applies digest parse (calls.map (·.1))) := by
      intro b hb phase
      by_cases hid : b.id = a.id
      · rw [hid] at hb
        rw [hb] at halt
        exact latestPhase_opposite hcommitted hid (by simpa using halt.1) phase
      · rw [hother b hid]
        exact hready b (by simpa [Ne.symm hid] using hb) phase
    simp only [List.map_cons, applyAll, hcall, hplan, Except.toOption, bind, Option.bind_some]
    exact ih hrest halt.2 hready'

def reverseStmt : AlterStmt := ⟨['p'], ['n'], .rename ['b'] ['a']⟩

def parseRename : Parse := fun sql =>
  if sql = ['1'] then some (['c'], [renameStmt], none) else some (['d'], [reverseStmt], none)

def reversedByFile : List (Call × Nat) :=
  let file : LoadedMigration := ⟨['f'], ['e'], [reverseStmt], some [renameStmt]⟩
  [(.queryAlter ['1'], 8), (.loaded file .up, 8), (.loaded file .down, 8)]

def repeatedStatement : List (Call × Nat) :=
  [(.queryAlter ['1'], 8), (.queryAlter ['2'], 8), (.queryAlter ['1'], 0)]

end Skippr.L9.Migration
