import Skippr.Core.LTS

/-!
# The schema barrier

`apply_with` sets the barrier, polls the in-flight counters up to 1000 times and
then rewrites the WAL and alters the table; the compactor looks at the barrier
once, at the start of a cycle, and the cycle then starts jobs as slots get free
(src/migration/apply.rs, src/buffer/ingest_buffer.rs). Each load of the barrier
or of a counter, each update of one and each yield is a step. A job counts
itself, then its sink write; a failed one leaves the second count last.
-/
namespace Skippr.L9.Barrier

/-- Where `apply_with` stands: outside the barrier, about to load the sink
counter or the compaction counter in poll `n`, at the yield after it, after the
wait, or with a rewrite or an alter begun. -/
inductive Pc
  | idle
  | loadSink (n : Nat)
  | loadCompact (n : Nat) (sinkBusy : Bool)
  | yield (n : Nat)
  | ready
  | applying
deriving DecidableEq, Repr

structure St where
  /-- `SCHEMA_BARRIER` -/
  barrier : Bool
  pc : Pc
  /-- The compactor is in a cycle that passed its check. -/
  cycle : Bool
  /-- Jobs counted in `WAL_COMPACTIONS_IN_FLIGHT` only. -/
  building : Nat
  /-- Jobs counted there and as sink work. -/
  uploading : Nat
  /-- Jobs that have ended and still count as sink work. -/
  leaving : Nat
deriving DecidableEq, Repr

def init : St := ⟨false, .idle, false, 0, 0, 0⟩

inductive Lbl
  /-- `set_schema_barrier(true)` -/
  | hold
  | loadSink
  | loadCompact
  | yield
  /-- The first `rewrite_live_wal` or `apply_alter`. -/
  | apply
  /-- `SchemaBarrierGuard` is dropped, after an error too. -/
  | release
  /-- `schema_barrier_held` at the start of a cycle. -/
  | check
  /-- The cycle ends, all its jobs done. -/
  | endCycle
  /-- `inc_wal_compactions_in_flight` -/
  | start
  /-- `set_phase(UploadingToSink)` -/
  | upload
  /-- `progress.finish` -/
  | finish
  /-- `dec_wal_compactions_in_flight`, before or after the sink write. -/
  | leave (uploading : Bool)
  /-- The tracker of a failed job is dropped. -/
  | drop
deriving DecidableEq, Repr

/-- mirrors apply.rs:140-213, ingest_buffer.rs:1551-1646 and 3512-3748 -/
def step (s : St) : Lbl → Option St
  | .hold => if s.pc = .idle then some { s with barrier := true, pc := .loadSink 0 } else none
  | .loadSink =>
    match s.pc with
    | .loadSink n => some { s with pc := .loadCompact n (0 < s.uploading + s.leaving) }
    | _ => none
  | .loadCompact =>
    match s.pc with
    | .loadCompact n sinkBusy =>
      if sinkBusy = false ∧ s.building + s.uploading = 0 then some { s with pc := .ready }
      else some { s with pc := .yield n }
    | _ => none
  | .yield =>
    match s.pc with
    | .yield n => some { s with pc := if n + 1 < 1000 then .loadSink (n + 1) else .ready }
    | _ => none
  | .apply => if s.pc = .ready then some { s with pc := .applying } else none
  | .release =>
    if s.pc = .ready ∨ s.pc = .applying then some { s with barrier := false, pc := .idle } else none
  | .check => if s.cycle then none else some { s with cycle := !s.barrier }
  | .endCycle =>
    if s.building + s.uploading + s.leaving = 0 then some { s with cycle := false } else none
  | .start => if s.cycle then some { s with building := s.building + 1 } else none
  | .upload =>
    if 0 < s.building then
      some { s with building := s.building - 1, uploading := s.uploading + 1 }
    else none
  | .finish =>
    if 0 < s.uploading then
      some { s with building := s.building + 1, uploading := s.uploading - 1 }
    else none
  | .leave false => if 0 < s.building then some { s with building := s.building - 1 } else none
  | .leave true =>
    if 0 < s.uploading then
      some { s with uploading := s.uploading - 1, leaving := s.leaving + 1 }
    else none
  | .drop => if 0 < s.leaving then some { s with leaving := s.leaving - 1 } else none

def lts : LTS St Lbl := LTS.ofFn (· = init) step

def inFlight (s : St) : Nat := s.building + s.uploading

def lastPoll : Pc → Bool
  | .yield n => 1000 ≤ n + 1
  | _ => false

/-- A job starts only while the barrier is free, and after the last poll none
is in flight. -/
def Patient (s : St) (l : Lbl) : Prop :=
  (l = .start → s.barrier = false) ∧ (l = .yield → lastPoll s.pc = true → inFlight s = 0)

instance decidablePatient (s : St) (l : Lbl) : Decidable (Patient s l) :=
  inferInstanceAs (Decidable (_ ∧ _))

structure Inv (s : St) : Prop where
  held : s.pc ≠ .idle → s.barrier = true
  alone : s.pc = .ready ∨ s.pc = .applying → inFlight s = 0

variable {s s' : St} {l : Lbl}

theorem inv_apply (h : Inv s) (hok : Patient s l) (hstep : step s l = some s')
    (hl : l = .hold ∨ l = .loadSink ∨ l = .loadCompact ∨ l = .yield ∨ l = .apply ∨ l = .release) :
    Inv s' := by
  rcases hl with rfl | rfl | rfl | rfl | rfl | rfl
  · obtain ⟨-, rfl⟩ := of_guard hstep
    exact ⟨fun _ => rfl, by simp⟩
  · simp only [step] at hstep
    split at hstep
    · rename_i n hpc
      cases hstep
      exact ⟨fun _ => h.held (by simp [hpc]), by simp⟩
    · cases hstep
  · simp only [step] at hstep
    split at hstep
    · rename_i n sinkBusy hpc
      have hbarrier := h.held (by simp [hpc])
      split at hstep
      · rename_i hnone
        cases hstep
        exact ⟨fun _ => hbarrier, fun _ => hnone.2⟩
      · cases hstep
        exact ⟨fun _ => hbarrier, by simp⟩
    · cases hstep
  · simp only [step] at hstep
    split at hstep
    · rename_i n hpc
      cases hstep
      refine ⟨fun _ => h.held (by simp [hpc]), fun hready => hok.2 rfl ?_⟩
      by_cases hn : n + 1 < 1000
      · simp [hn] at hready
      · simp only [hpc, lastPoll, decide_eq_true_eq]
        omega
    · cases hstep
  · obtain ⟨hpc, rfl⟩ := of_guard hstep
    exact ⟨fun _ => h.held (by simp [hpc]), fun _ => h.alone (.inl hpc)⟩
  · obtain ⟨-, rfl⟩ := of_guard hstep
    exact ⟨fun hpc => (hpc rfl).elim, by simp⟩

theorem inv_step (h : Inv s) (hok : Patient s l) (hstep : step s l = some s') : Inv s' := by
  -- A move of a job keeps the place of the migration.
  have moved : ∀ {b u v : Nat}, (inFlight s = 0 → b + u = 0) →
      Inv { s with building := b, uploading := u, leaving := v } :=
    fun hsum => ⟨h.held, fun hpc => hsum (h.alone hpc)⟩
  cases l with
  | start =>
    obtain ⟨-, rfl⟩ := of_guard hstep
    refine ⟨h.held, fun hpc => ?_⟩
    have hbarrier := h.held (by rintro hidle; simp [hidle] at hpc)
    rw [hok.1 rfl] at hbarrier
    cases hbarrier
  | check =>
    obtain ⟨-, rfl⟩ := of_guard_not hstep
    exact ⟨h.held, h.alone⟩
  | endCycle =>
    obtain ⟨-, rfl⟩ := of_guard hstep
    exact ⟨h.held, h.alone⟩
  | leave uploading =>
    cases uploading <;>
    · obtain ⟨-, rfl⟩ := of_guard hstep
      exact moved (by unfold inFlight; omega)
  | upload | finish | drop =>
    simp only [step] at hstep
    split at hstep
    · cases hstep
      exact moved (by unfold inFlight; omega)
    · cases hstep
  | _ => exact inv_apply h hok hstep (by simp)

theorem inv_inductive : (lts.restrict Patient).Inductive Inv where
  init s h := by
    subst h
    exact ⟨fun h => (h rfl).elim, by simp [init]⟩
  step s l s' h hstep := inv_step h hstep.1 hstep.2

theorem applying_alone (h : (lts.restrict Patient).Reachable s) (hpc : s.pc = .applying) :
    inFlight s = 0 :=
  (inv_inductive.reachable s h).alone (.inr hpc)

/-- A job that was in flight when the barrier went up ends during the wait. -/
theorem applying_alone_after_wait : ∃ s, (lts.restrict Patient).Reachable s ∧
    s.pc = .applying ∧ inFlight s = 0 := by
  obtain ⟨s, hreach, hpc⟩ : ∃ s, (lts.restrict Patient).Reachable s ∧ s.pc = .applying :=
    exists_restrict_reachable [.check, .start, .hold, .loadSink, .loadCompact, .yield, .leave false,
      .loadSink, .loadCompact, .apply] rfl (by decide)
  exact ⟨s, hreach, hpc, applying_alone hreach hpc⟩

theorem late_job_meets_migration : ∃ s, lts.Reachable s ∧ s.pc = .applying ∧ inFlight s = 1 :=
  exists_reachable [.check, .hold, .loadSink, .loadCompact, .apply, .start] rfl (by decide)

end Skippr.L9.Barrier
