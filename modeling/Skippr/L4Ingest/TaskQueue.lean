import Skippr.Core.LTS

/-!
# The ingest task queue (src/ingest_work.rs)

`ingest_file` starts a task while fewer than `num_cpus` are active and queues it
otherwise; the monitor thread takes queued tasks up when a completion message
comes in. The count is read before the queue is locked, so every active task may
end, and its message find the queue empty, before the task is queued.
-/
namespace Skippr.L4.TaskQueue

/-- Where the monitor thread is; from `popping` on it holds the queue's lock. -/
inductive Monitor
  | waiting
  | received
  | subtracted
  | locking
  | popping
  | popped
  | admitted
  | added
deriving DecidableEq

/-- The tasks in the queue, of calls about to queue or start one, of calls that
have counted it, and in the pool; and the completion messages. -/
structure St where
  activeCount : Nat
  taskQueue : Nat
  queueing : Nat
  starting : Nat
  counted : Nat
  running : Nat
  messages : Nat
  monitor : Monitor
deriving DecidableEq

inductive Lbl
  | load
  | pushBack
  | fetchAdd
  | execute
  | complete
  | monitor
deriving DecidableEq

/-- mirrors ingest_work.rs:2402-2495; the monitor's next step. -/
def monitorStep (numCpus : Nat) (s : St) : Option St :=
  match s.monitor with
  | .waiting =>
    if 0 < s.messages then some { s with messages := s.messages - 1, monitor := .received } else none
  | .received => some { s with activeCount := s.activeCount - 1, monitor := .subtracted }
  | .subtracted => some { s with monitor := if s.activeCount < numCpus then .locking else .waiting }
  | .locking => some { s with monitor := .popping }
  | .popping =>
    if 0 < s.taskQueue then some { s with taskQueue := s.taskQueue - 1, monitor := .popped }
    else some { s with monitor := .waiting }
  | .popped =>
    if numCpus ≤ s.activeCount then some { s with taskQueue := s.taskQueue + 1, monitor := .waiting }
    else some { s with monitor := .admitted }
  | .admitted => some { s with activeCount := s.activeCount + 1, monitor := .added }
  | .added => some { s with running := s.running + 1, monitor := .popping }

/-- The calls of `ingest_file` and the tasks of the pool.
mirrors ingest_work.rs:2807-2866 -/
def step (numCpus : Nat) (s : St) : Lbl → Option St
  | .load =>
    if s.activeCount < numCpus then some { s with starting := s.starting + 1 }
    else some { s with queueing := s.queueing + 1 }
  | .pushBack =>
    if 0 < s.queueing ∧ s.monitor ∈ [.waiting, .received, .subtracted, .locking] then
      some { s with queueing := s.queueing - 1, taskQueue := s.taskQueue + 1 }
    else none
  | .fetchAdd =>
    if 0 < s.starting then
      some { s with
        starting := s.starting - 1, counted := s.counted + 1, activeCount := s.activeCount + 1 }
    else none
  | .execute =>
    if 0 < s.counted then some { s with counted := s.counted - 1, running := s.running + 1 } else none
  | .complete =>
    if 0 < s.running then some { s with running := s.running - 1, messages := s.messages + 1 } else none
  | .monitor => monitorStep numCpus s

def lts (numCpus : Nat) : LTS St Lbl :=
  LTS.ofFn (· = ⟨0, 0, 0, 0, 0, 0, 0, .waiting⟩) (step numCpus)

/-- A started task has not ended, or a completion message is not dealt with. -/
def UnderWay (s : St) : Prop := 0 < s.counted + s.running + s.messages ∨ s.monitor ≠ .waiting

/-- A task is queued while something is under way. -/
def Timely (s : St) (l : Lbl) : Prop := l = .pushBack → UnderWay s

instance decidableTimely (s : St) (l : Lbl) : Decidable (Timely s l) :=
  inferInstanceAs (Decidable (_ → _ ∨ _))

def Monitor.held : Monitor → Nat
  | .received | .added => 1
  | _ => 0

structure Inv (s : St) : Prop where
  counts : s.activeCount = s.counted + s.running + s.messages + s.monitor.held
  woken : 0 < s.taskQueue → UnderWay s

theorem inv_inductive (numCpus : Nat) (hpos : 0 < numCpus) :
    ((lts numCpus).restrict Timely).Inductive Inv where
  init := by
    rintro s rfl
    exact ⟨rfl, by simp⟩
  step s l s' h hs := by
    obtain ⟨htimely, hs⟩ := hs
    obtain ⟨hcounts, hwoken⟩ := h
    have hlate := fun hl : l = .pushBack => htimely hl
    simp only [UnderWay] at hwoken hlate
    cases l with
    | monitor =>
      simp only [lts, LTS.ofFn, step, monitorStep] at hs
      cases hm : s.monitor <;> simp only [hm, Monitor.held] at hs hcounts hwoken
      all_goals
        repeat' split at hs
        all_goals cases hs
      all_goals
        refine ⟨?_, ?_⟩ <;> simp only [UnderWay, Monitor.held]
        · grind
        · grind
    | _ =>
      simp only [lts, LTS.ofFn, step] at hs
      split at hs <;> cases hs
      all_goals
        refine ⟨?_, ?_⟩ <;> simp only [UnderWay]
        · omega
        · grind

/-- **No queued task is left behind.** While tasks are queued only when something
is under way, a queued task has a started one or a message to wake it. -/
theorem queued_is_woken (numCpus : Nat) (hpos : 0 < numCpus) (s : St)
    (h : ((lts numCpus).restrict Timely).Reachable s) (hqueue : 0 < s.taskQueue) : UnderWay s :=
  ((inv_inductive numCpus hpos).reachable s h).woken hqueue

/-- One thread: a task starts, a second is queued behind it. -/
theorem queued_is_woken_second :
    ∃ s, ((lts 1).restrict Timely).Reachable s ∧ 0 < s.taskQueue ∧ UnderWay s := by
  obtain ⟨s, hreach, hqueue⟩ : ∃ s, ((lts 1).restrict Timely).Reachable s ∧ 0 < s.taskQueue :=
    exists_restrict_reachable [.load, .fetchAdd, .execute, .load, .pushBack] rfl (by decide +kernel)
  exact ⟨s, hreach, hqueue, queued_is_woken 1 (by decide) s hreach hqueue⟩

/-- The first task ends and its message finds the queue empty after the second
call has read the count and before it queues its task. -/
theorem queued_and_idle : ∃ s, (lts 1).Reachable s ∧
    0 < s.taskQueue ∧ s.queueing = 0 ∧ s.starting = 0 ∧ ¬ UnderWay s := by
  unfold UnderWay
  exact exists_reachable [.load, .fetchAdd, .execute, .load, .complete, .monitor, .monitor, .monitor,
    .monitor, .monitor, .pushBack] rfl (by decide +kernel)

/-- **`active_count` is exact.** In every run it counts the started tasks whose end the
monitor has not dealt with: its subtractions do not wrap, and no slot is lost. -/
theorem active_count_exact (numCpus : Nat) (s : St) (h : (lts numCpus).Reachable s) :
    s.activeCount = s.counted + s.running + s.messages + s.monitor.held := by
  suffices hrun : (lts numCpus).Inductive fun s =>
      s.activeCount = s.counted + s.running + s.messages + s.monitor.held from hrun.reachable s h
  refine ⟨fun s hs => hs ▸ rfl, fun s l s' hcounts hs => ?_⟩
  cases l with
  | monitor =>
    simp only [lts, LTS.ofFn, step, monitorStep] at hs
    cases hm : s.monitor <;> simp only [hm, Monitor.held] at hs hcounts
    all_goals
      repeat' split at hs
      all_goals cases hs
    all_goals
      simp only [Monitor.held]
      grind
  | _ =>
    simp only [lts, LTS.ofFn, step] at hs
    split at hs <;> cases hs
    all_goals
      dsimp only
      omega

theorem active_count_exact_queued : ∃ s, (lts 1).Reachable s ∧ 0 < s.taskQueue ∧
    s.activeCount = s.counted + s.running + s.messages + s.monitor.held := by
  obtain ⟨s, hreach, hqueue⟩ : ∃ s, (lts 1).Reachable s ∧ 0 < s.taskQueue :=
    exists_reachable [.load, .fetchAdd, .load, .pushBack] rfl (by decide +kernel)
  exact ⟨s, hreach, hqueue, active_count_exact 1 s hreach⟩

end Skippr.L4.TaskQueue
