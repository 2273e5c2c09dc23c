import Skippr.Core.LTS
import Skippr.Core.Map

/-!
# `drive_work_conserving`: the compaction cycle

One call of the scheduler fills its free slots with jobs from the planner, waits
for a job to finish or a command to come in, and goes round
(src/buffer/compaction_scheduler.rs). It returns when nothing is in flight. After
so many completions, or so long, it only lets the jobs in flight run out.

The planner, the results of the jobs and the order in which they finish are
labels, so a run is any behaviour of them. `log` is a ghost: what was started and
what finished, oldest first; a job that was started and has not finished is
unfinished.
-/
namespace Skippr.L5.Scheduler

/-- mirrors compaction_scheduler.rs:10 -/
def budgetRetuneWaves : Nat := 4

def usizeMax : Nat := 2 ^ 64 - 1

inductive CompactorCommand
  | wake
  | drainAndStop (reply : Nat)
deriving DecidableEq

/-- The commands come from a channel; `none` when there is no control.
mirrors compaction_scheduler.rs:27-31 -/
structure CompactionCycleControl where
  drainReply : Option Nat
  stopRequested : Bool
  /-- The replies that were answered with `false`. -/
  refused : List Nat
deriving DecidableEq

/-- mirrors compaction_scheduler.rs:33-45 -/
def CompactionCycleControl.handleCommand (control : CompactionCycleControl) :
    Option CompactorCommand → CompactionCycleControl
  | some .wake => control
  | some (.drainAndStop reply) =>
    if control.drainReply.isNone then { control with drainReply := some reply }
    else { control with refused := control.refused ++ [reply] }
  | none => { control with stopRequested := true }

/-- mirrors compaction_scheduler.rs:60-62 -/
def CompactionCycleControl.force (control : CompactionCycleControl) (initialForce : Bool) : Bool :=
  initialForce || control.drainReply.isSome

inductive Event (L : Type)
  | started (lane : L)
  | finished (lane : L) (compacted : Bool)
deriving DecidableEq

inductive Pc
  /-- `drain_pending_commands` -/
  | draining
  | planning
  | waiting
  | returned (madeProgress : Bool)
deriving DecidableEq

section Model
variable {L W : Type} [DecidableEq L]

structure St (L : Type) where
  pc : Pc
  control : Option CompactionCycleControl
  completions : Nat
  retuneRequested : Bool
  madeProgress : Bool
  activeByLane : Map L Nat
  blockedLanes : Finset L
  inFlight : List L
  /-- ghost -/
  log : List (Event L)

inductive Lbl (W : Type)
  | pending (command : Option CompactorCommand)
  | begin
  | plan (works : List W)
  | full
  /-- Job `i` finishes; `elapsed` if the retune interval is over by then. -/
  | complete (i : Nat) (compacted elapsed : Bool)
  | command (command : Option CompactorCommand)
  | finish

structure Call (L W : Type) where
  given : Nat
  initialForce : Bool
  lane : W → L

def Call.concurrency (c : Call L W) : Nat := max c.given 1

def Call.maxCompletionsBeforeRetune (c : Call L W) : Nat :=
  max (min (c.concurrency * budgetRetuneWaves) usizeMax) 1

def St.stopping (s : St L) : Bool :=
  match s.control with
  | some control => control.stopRequested
  | none => false

def St.head (s : St L) : St L :=
  { s with pc := if !s.stopping && !s.retuneRequested then .planning else .waiting }

def Call.slots (c : Call L W) (s : St L) : Nat := c.concurrency - s.inFlight.length

structure Asked (L : Type) where
  slots : Nat
  force : Bool
  active : Map L Nat
  blocked : Finset L

def Call.asked (c : Call L W) (s : St L) : Asked L where
  slots := c.slots s
  force := s.control.elim c.initialForce fun control => control.force c.initialForce
  active := s.activeByLane
  blocked := s.blockedLanes

/-- One work of a batch is started.
mirrors compaction_scheduler.rs:143-152 -/
def St.start (s : St L) (lane : L) : St L :=
  { s with
    activeByLane := s.activeByLane.insert lane ((s.activeByLane.get lane).getD 0 + 1)
    inFlight := s.inFlight ++ [lane]
    log := s.log ++ [.started lane] }

/-- The count of a lane after one of its jobs; at 0 the lane is removed.
mirrors compaction_scheduler.rs:184-192 -/
def lowerActive (active : Map L Nat) (lane : L) : Map L Nat :=
  match active.get lane with
  | some n => if n - 1 = 0 then active.erase lane else active.insert lane (n - 1)
  | none => active

/-- mirrors compaction_scheduler.rs:184-209 -/
def St.complete (c : Call L W) (s : St L) (i : Nat) (lane : L) (compacted elapsed : Bool) : St L :=
  let completions := min (s.completions + 1) usizeMax
  { s with
    activeByLane := lowerActive s.activeByLane lane
    blockedLanes := if compacted then s.blockedLanes else insert lane s.blockedLanes
    madeProgress := s.madeProgress || compacted
    completions := completions
    retuneRequested := s.retuneRequested ||
      decide (c.maxCompletionsBeforeRetune ≤ completions) || elapsed
    inFlight := s.inFlight.eraseIdx i
    log := s.log ++ [.finished lane compacted] }

/-- mirrors compaction_scheduler.rs:86-212 -/
def step (c : Call L W) (s : St L) : Lbl W → Option (St L)
  | .pending command =>
    match s.pc, s.control with
    | .draining, some control =>
      let s := { s with control := some (control.handleCommand command) }
      -- A channel that is closed is not asked again.
      some (if command.isNone then s.head else s)
    | _, _ => none
  | .begin =>
    match s.pc with
    | .draining => some s.head
    | _ => none
  | .plan works =>
    match s.pc with
    | .planning =>
      if c.slots s = 0 then none
      else if works = [] then some { s with pc := .waiting }
      else some ((works.map c.lane).foldl St.start s)
    | _ => none
  | .full =>
    match s.pc with
    | .planning => if c.slots s = 0 then some { s with pc := .waiting } else none
    | _ => none
  | .complete i compacted elapsed =>
    match s.pc with
    | .waiting =>
      match s.inFlight[i]? with
      | some lane => some (s.complete c i lane compacted elapsed).head
      | none => none
    | _ => none
  | .command command =>
    match s.pc, s.control with
    | .waiting, some control =>
      -- While stopping, and with nothing in flight, no command is read.
      if control.stopRequested ∨ s.inFlight = [] then none
      else some { s with control := some (control.handleCommand command) }.head
    | _, _ => none
  | .finish =>
    match s.pc with
    | .waiting => if s.inFlight = [] then some { s with pc := .returned s.madeProgress } else none
    | _ => none

def Initial (s : St L) : Prop :=
  s.pc = .draining ∧ s.completions = 0 ∧ s.retuneRequested = false ∧ s.madeProgress = false ∧
    s.activeByLane = ∅ ∧ s.blockedLanes = ∅ ∧ s.inFlight = [] ∧ s.log = []

def lts (c : Call L W) : LTS (St L) (Lbl W) := LTS.ofFn Initial (step c)

/-! ## Starts, finishes and restarts -/

def starts (log : List (Event L)) (lane : L) : Nat := log.count (.started lane)

def finishes (log : List (Event L)) (lane : L) : Nat :=
  log.count (.finished lane true) + log.count (.finished lane false)

/-- The jobs of a lane that were started and have not finished. -/
def unfinished (log : List (Event L)) (lane : L) : Nat := starts log lane - finishes log lane

def unfinishedTotal (log : List (Event L)) : Nat :=
  (log.countP fun e => e matches .started _) - log.countP fun e => e matches .finished _ _

/-- The later event does not start a job of the lane that failed in the earlier. -/
def NotRestarted : Event L → Event L → Prop
  | .finished lane false, .started lane' => lane' ≠ lane
  | _, _ => True

/-- No job of a lane is started after one of its jobs failed. -/
def NoneAfterFailure (log : List (Event L)) : Prop := log.Pairwise NotRestarted

/-! ## One step -/

/-- What a step does to the lanes and the jobs; the rest of it is control. -/
inductive Effect (c : Call L W) (s : St L) : Lbl W → St L → Prop
  | controls {l : Lbl W} {s' : St L} (hactive : s'.activeByLane = s.activeByLane)
      (hblocked : s'.blockedLanes = s.blockedLanes) (hflight : s'.inFlight = s.inFlight)
      (hlog : s'.log = s.log) (hreturned : ∀ b, s'.pc = .returned b → s.inFlight = []) :
      Effect c s l s'
  | plans (works : List W) (hpc : s.pc = .planning) (hslots : c.slots s ≠ 0) :
      Effect c s (.plan works) ((works.map c.lane).foldl St.start s)
  | completes (i : Nat) (lane : L) (compacted elapsed : Bool) (hlane : s.inFlight[i]? = some lane) :
      Effect c s (.complete i compacted elapsed) (s.complete c i lane compacted elapsed).head

omit [DecidableEq L] in
theorem head_not_returned (s : St L) (b : Bool) : s.head.pc ≠ .returned b := by
  simp only [St.head]
  split <;> simp

variable {c : Call L W} {s s' : St L} {l : Lbl W}

theorem effect_step (hstep : step c s l = some s') : Effect c s l s' := by
  cases l with
  | pending command =>
    simp only [step] at hstep
    split at hstep
    · rename_i control hpc hcontrol
      cases hstep
      split
      · exact .controls rfl rfl rfl rfl fun b hb => absurd hb (head_not_returned _ b)
      · exact .controls rfl rfl rfl rfl fun b hb => by simp [hpc] at hb
    · cases hstep
  | begin =>
    simp only [step] at hstep
    split at hstep
    · cases hstep
      exact .controls rfl rfl rfl rfl fun b hb => absurd hb (head_not_returned _ b)
    · cases hstep
  | plan works =>
    simp only [step] at hstep
    split at hstep
    · rename_i hpc
      split_ifs at hstep with hslots hempty
      · cases hstep
        exact .controls rfl rfl rfl rfl fun b hb => by simp at hb
      · cases hstep
        exact .plans works hpc hslots
    · cases hstep
  | full =>
    simp only [step] at hstep
    split at hstep
    · split_ifs at hstep
      cases hstep
      exact .controls rfl rfl rfl rfl fun b hb => by simp at hb
    · cases hstep
  | complete i compacted elapsed =>
    simp only [step] at hstep
    split at hstep
    · split at hstep
      · rename_i lane hlane
        cases hstep
        exact .completes i lane compacted elapsed hlane
      · cases hstep
    · cases hstep
  | command command =>
    simp only [step] at hstep
    split at hstep
    · split_ifs at hstep
      cases hstep
      exact .controls rfl rfl rfl rfl fun b hb => absurd hb (head_not_returned _ b)
    · cases hstep
  | finish =>
    simp only [step] at hstep
    split at hstep
    · split_ifs at hstep with hempty
      cases hstep
      exact .controls rfl rfl rfl rfl fun _ _ => hempty
    · cases hstep

/-! ## The counts -/

def activeEntry (n : Nat) : Option Nat := if n = 0 then none else some n

theorem activeEntry_getD (n : Nat) : (activeEntry n).getD 0 = n := by
  unfold activeEntry
  split_ifs with hzero
  · exact hzero.symm
  · rfl

structure Inv (s : St L) : Prop where
  active : ∀ lane, Map.get s.activeByLane lane = activeEntry (s.inFlight.count lane)
  accounted : ∀ lane, starts s.log lane = s.inFlight.count lane + finishes s.log lane
  total : (s.log.countP fun e => e matches .started _) =
    s.inFlight.length + s.log.countP fun e => e matches .finished _ _
  blocked : ∀ lane, lane ∈ s.blockedLanes ↔ .finished lane false ∈ s.log

theorem inv_start (hs : Inv s) (lane : L) : Inv (s.start lane) where
  active lane' := by
    by_cases hlane : lane' = lane
    · subst hlane
      simp only [St.start, Map.get_insert, hs.active, activeEntry_getD, if_true]
      simp [activeEntry]
    · simp only [St.start, Map.get_insert, if_neg hlane, hs.active, List.count_append,
        List.count_singleton, beq_iff_eq]
      simp [Ne.symm hlane]
  accounted lane' := by
    have haccounted := hs.accounted lane'
    simp only [starts, finishes] at haccounted
    simp only [St.start, starts, finishes, List.count_append, List.count_singleton, beq_iff_eq,
      Event.started.injEq, reduceCtorEq, if_false]
    omega
  total := by
    have htotal := hs.total
    simp only [St.start, List.countP_append, List.length_append]
    simp
    omega
  blocked lane' := by
    simp only [St.start, List.mem_append, List.mem_singleton, reduceCtorEq, or_false]
    exact hs.blocked lane'

theorem inv_starts (hs : Inv s) (lanes : List L) : Inv (lanes.foldl St.start s) := by
  induction lanes generalizing s with
  | nil => exact hs
  | cons lane lanes ih => exact ih (inv_start hs lane)

theorem get_lowerActive (active : Map L Nat) (lane lane' : L) :
    Map.get (lowerActive active lane) lane' =
      if lane' = lane then (Map.get active lane).bind fun n => activeEntry (n - 1)
      else Map.get active lane' := by
  unfold lowerActive activeEntry
  cases hget : Map.get active lane with
  | none =>
    split_ifs with hlane
    · rw [hlane, hget]; rfl
    · rfl
  | some n =>
    simp only [Option.bind_some]
    split_ifs with hzero hlane hlane
    · rw [Map.get_erase, if_pos hlane]
    · rw [Map.get_erase, if_neg hlane]
    · rw [Map.get_insert, if_pos hlane]
    · rw [Map.get_insert, if_neg hlane]

theorem count_eraseIdx {flight : List L} {i : Nat} {lane : L} (hlane : flight[i]? = some lane)
    (lane' : L) :
    flight.count lane' = (flight.eraseIdx i).count lane' + if lane = lane' then 1 else 0 := by
  obtain ⟨hi, hget⟩ := List.getElem?_eq_some_iff.1 hlane
  have hperm := List.getElem_cons_eraseIdx_perm hi
  rw [hget] at hperm
  rw [← hperm.count_eq, List.count_cons]
  simp only [beq_iff_eq]

theorem inv_complete (hs : Inv s) {i : Nat} {lane : L} (compacted elapsed : Bool)
    (hlane : s.inFlight[i]? = some lane) :
    Inv (s.complete c i lane compacted elapsed) where
  active lane' := by
    have hcount := count_eraseIdx hlane lane'
    simp only [St.complete, get_lowerActive]
    by_cases hlane' : lane' = lane
    · subst hlane'
      rw [if_pos rfl] at hcount
      rw [if_pos rfl, hs.active, activeEntry, if_neg (by omega), Option.bind_some, hcount,
        Nat.add_sub_cancel]
    · rw [if_neg (Ne.symm hlane'), Nat.add_zero] at hcount
      rw [if_neg hlane', hs.active, hcount]
  accounted lane' := by
    have haccounted := hs.accounted lane'
    have hcount := count_eraseIdx hlane lane'
    simp only [starts, finishes] at haccounted
    simp only [St.complete, starts, finishes, List.count_append, List.count_singleton, beq_iff_eq,
      Event.finished.injEq, reduceCtorEq, if_false]
    cases compacted <;> simp <;> omega
  total := by
    have htotal := hs.total
    obtain ⟨hi, -⟩ := List.getElem?_eq_some_iff.1 hlane
    have hlength := List.length_eraseIdx_of_lt hi
    simp only [St.complete, List.countP_append, hlength]
    simp
    omega
  blocked lane' := by
    have hblocked := hs.blocked lane'
    simp only [St.complete, List.mem_append, List.mem_singleton, Event.finished.injEq]
    cases compacted
    · simp only [Bool.false_eq_true, if_false, Finset.mem_insert, hblocked, and_true]
      exact or_comm
    · simp [hblocked]

theorem Inv.congr (hs : Inv s) (hactive : s'.activeByLane = s.activeByLane)
    (hblocked : s'.blockedLanes = s.blockedLanes) (hflight : s'.inFlight = s.inFlight)
    (hlog : s'.log = s.log) : Inv s' where
  active := by simpa only [hactive, hflight] using hs.active
  accounted := by simpa only [hlog, hflight] using hs.accounted
  total := by simpa only [hlog, hflight] using hs.total
  blocked := by simpa only [hlog, hblocked] using hs.blocked

theorem inv_step (hs : Inv s) (hstep : step c s l = some s') : Inv s' := by
  cases effect_step hstep with
  | controls hactive hblocked hflight hlog _ => exact hs.congr hactive hblocked hflight hlog
  | plans works _ _ => exact inv_starts hs _
  | completes i lane compacted elapsed hlane =>
    have hcomplete : Inv (s.complete c i lane compacted elapsed) :=
      inv_complete hs compacted elapsed hlane
    exact hcomplete.congr rfl rfl rfl rfl

theorem inv_initial (hs : Initial s) : Inv s := by
  obtain ⟨-, -, -, -, hactive, hblocked, hflight, hlog⟩ := hs
  refine ⟨?_, ?_, ?_, ?_⟩ <;> simp [hactive, hblocked, hflight, hlog, starts, finishes, activeEntry]

theorem Inv.inductive (c : Call L W) : (lts c).Inductive Inv where
  init _ hs := inv_initial hs
  step _ _ _ hs hstep := inv_step hs hstep

theorem Inv.unfinished_eq (hs : Inv s) (lane : L) :
    unfinished s.log lane = s.inFlight.count lane := by
  rw [unfinished, hs.accounted lane, Nat.add_sub_cancel]

theorem Inv.unfinishedTotal_eq (hs : Inv s) : unfinishedTotal s.log = s.inFlight.length := by
  rw [unfinishedTotal, hs.total, Nat.add_sub_cancel]

/-! ## The return -/

def DrainedIfReturned (s : St L) : Prop := ∀ b, s.pc = .returned b → s.inFlight = []

theorem starts_spec (s : St L) (lanes : List L) :
    (lanes.foldl St.start s).pc = s.pc ∧
      (lanes.foldl St.start s).inFlight = s.inFlight ++ lanes ∧
      (lanes.foldl St.start s).log = s.log ++ lanes.map .started := by
  induction lanes generalizing s with
  | nil => simp
  | cons lane lanes ih => simp [ih, St.start]

theorem drained_step (hstep : step c s l = some s') : DrainedIfReturned s' := by
  cases effect_step hstep with
  | controls _ _ hflight _ hreturned =>
    intro b hb
    rw [hflight]
    exact hreturned b hb
  | plans works hpc _ =>
    intro b hb
    rw [(starts_spec s _).1, hpc] at hb
    cases hb
  | completes i lane compacted elapsed _ =>
    intro b hb
    exact absurd hb (head_not_returned _ b)

theorem DrainedIfReturned.inductive (c : Call L W) : (lts c).Inductive DrainedIfReturned where
  init s hs b hb := by
    rw [hs.1] at hb
    cases hb
  step _ _ _ _ hstep := drained_step hstep

/-! ## The limits, for planners that keep to them -/

/-- A planner that answers with no more works than it was given slots. -/
def FitsSlots (c : Call L W) (s : St L) : Lbl W → Prop
  | .plan works => works.length ≤ (c.asked s).slots
  | _ => True

instance decidableFitsSlots (c : Call L W) (s : St L) (l : Lbl W) : Decidable (FitsSlots c s l) := by
  cases l <;> unfold FitsSlots <;> infer_instance

/-- A planner that answers with no work of a lane it was told is blocked. -/
def AvoidsBlocked (c : Call L W) (s : St L) : Lbl W → Prop
  | .plan works => ∀ work ∈ works, c.lane work ∉ (c.asked s).blocked
  | _ => True

instance decidableAvoidsBlocked (c : Call L W) (s : St L) (l : Lbl W) :
    Decidable (AvoidsBlocked c s l) := by
  cases l <;> unfold AvoidsBlocked <;> infer_instance

theorem bounded_step (hs : s.inFlight.length ≤ c.concurrency) (hfits : FitsSlots c s l)
    (hstep : step c s l = some s') : s'.inFlight.length ≤ c.concurrency := by
  cases effect_step hstep with
  | controls _ _ hflight _ _ => rwa [hflight]
  | plans works _ _ =>
    simp only [FitsSlots, Call.asked, Call.slots] at hfits
    rw [(starts_spec s _).2.1, List.length_append, List.length_map]
    omega
  | completes i lane compacted elapsed hlane =>
    have hless := List.length_eraseIdx_le s.inFlight i
    simp only [St.head, St.complete]
    omega

theorem bounded_inductive (c : Call L W) :
    ((lts c).restrict (FitsSlots c)).Inductive fun s =>
      Inv s ∧ s.inFlight.length ≤ c.concurrency where
  init s hs := by
    refine ⟨inv_initial hs, ?_⟩
    rw [hs.2.2.2.2.2.2.1]
    exact Nat.zero_le _
  step _ _ _ hs hstep := ⟨inv_step hs.1 hstep.2, bounded_step hs.2 hstep.1 hstep.2⟩

omit [DecidableEq L] in
theorem NoneAfterFailure.append_started {log : List (Event L)} (hlog : NoneAfterFailure log)
    {lanes : List L} (hlanes : ∀ lane ∈ lanes, .finished lane false ∉ log) :
    NoneAfterFailure (log ++ lanes.map .started) := by
  refine List.pairwise_append.2 ⟨hlog, ?_, ?_⟩
  · exact List.pairwise_map.2 (List.pairwise_of_forall fun _ _ => trivial)
  · intro e he e' he'
    obtain ⟨lane', hlane', rfl⟩ := List.mem_map.1 he'
    match e, he with
    | .started _, _ | .finished _ true, _ => trivial
    | .finished lane false, he =>
      intro heq
      subst heq
      exact hlanes lane' hlane' he

theorem noneAfterFailure_step (hs : Inv s) (hlog : NoneAfterFailure s.log)
    (havoids : AvoidsBlocked c s l) (hstep : step c s l = some s') : NoneAfterFailure s'.log := by
  cases effect_step hstep with
  | controls _ _ _ hsame _ => rwa [hsame]
  | plans works _ _ =>
    rw [(starts_spec s _).2.2]
    apply hlog.append_started
    intro lane hlane hfailed
    obtain ⟨work, hwork, rfl⟩ := List.mem_map.1 hlane
    exact havoids work hwork ((hs.blocked _).2 hfailed)
  | completes i lane compacted elapsed _ =>
    refine List.pairwise_append.2 ⟨hlog, List.pairwise_singleton _ _, ?_⟩
    intro e _ e' he'
    rw [List.mem_singleton.1 he']
    match e with
    | .started _ | .finished _ true | .finished _ false => trivial

theorem noneAfterFailure_inductive (c : Call L W) :
    ((lts c).restrict (AvoidsBlocked c)).Inductive fun s => Inv s ∧ NoneAfterFailure s.log where
  init s hs := by
    refine ⟨inv_initial hs, ?_⟩
    rw [hs.2.2.2.2.2.2.2]
    exact List.Pairwise.nil
  step _ _ _ hs hstep := ⟨inv_step hs.1 hstep.2, noneAfterFailure_step hs.1 hs.2 hstep.1 hstep.2⟩

/-! ## Whole runs -/

/-- For every planner the active counts are the unfinished jobs and the call
returns with none; the concurrency holds for planners that fit the slots they are
given, and no failed lane is tried again by those that keep off the blocked lanes. -/
theorem cycle_spec (c : Call L W) :
    (∀ s, (lts c).Reachable s →
      (∀ lane, (Map.get (c.asked s).active lane).getD 0 = unfinished s.log lane) ∧
      ∀ b, s.pc = .returned b →
        unfinishedTotal s.log = 0 ∧ ∀ lane, unfinished s.log lane = 0) ∧
    (∀ s, ((lts c).restrict (FitsSlots c)).Reachable s →
      unfinishedTotal s.log ≤ max c.given 1) ∧
    ∀ s, ((lts c).restrict (AvoidsBlocked c)).Reachable s → NoneAfterFailure s.log := by
  refine ⟨fun s hr => ?_, fun s hr => ?_, fun s hr => ?_⟩
  · have hinv := (Inv.inductive c).reachable s hr
    refine ⟨fun lane => ?_, fun b hb => ?_⟩
    · rw [hinv.unfinished_eq, Call.asked, hinv.active, activeEntry_getD]
    have hempty := (DrainedIfReturned.inductive c).reachable s hr b hb
    refine ⟨?_, fun lane => ?_⟩
    · rw [hinv.unfinishedTotal_eq, hempty, List.length_nil]
    · rw [hinv.unfinished_eq, hempty, List.count_nil]
  · obtain ⟨hinv, hbound⟩ := (bounded_inductive c).reachable s hr
    rw [hinv.unfinishedTotal_eq]
    exact hbound
  · exact ((noneAfterFailure_inductive c).reachable s hr).2

end Model

/-! ## A planner that ignores what it is given -/

def oneJob : Call Bool Bool where
  given := 1
  initialForce := false
  lane := id

def fresh : St Bool where
  pc := .draining
  control := none
  completions := 0
  retuneRequested := false
  madeProgress := false
  activeByLane := ∅
  blockedLanes := ∅
  inFlight := []
  log := []

theorem fresh_initial : Initial fresh := ⟨rfl, rfl, rfl, rfl, rfl, rfl, rfl, rfl⟩

def oneFailure : List (Lbl Bool) :=
  [.begin, .plan [true], .full, .complete 0 false false, .plan [false], .full,
    .complete 0 true false, .plan [], .finish]

theorem cycle_oneFailure :
    ∃ s, (((lts oneJob).restrict (FitsSlots oneJob)).Reachable s ∧
        ((lts oneJob).restrict (AvoidsBlocked oneJob)).Reachable s) ∧
      s.pc = .returned true ∧ s.log.length = 4 ∧
      (∀ lane, unfinished s.log lane = 0) ∧ unfinishedTotal s.log ≤ 1 ∧ NoneAfterFailure s.log := by
  have hrun : (exec (step oneJob) fresh oneFailure).any fun s =>
      decide (s.pc = .returned true ∧ s.log.length = 4) := by decide +kernel
  have hfits : exec (guarded (FitsSlots oneJob) (step oneJob)) fresh oneFailure =
      exec (step oneJob) fresh oneFailure := rfl
  have havoids : exec (guarded (AvoidsBlocked oneJob) (step oneJob)) fresh oneFailure =
      exec (step oneJob) fresh oneFailure := rfl
  obtain ⟨s, hexec, hs⟩ := (Option.any_eq_true ..).1 hrun
  obtain ⟨hpc, hlength⟩ := of_decide_eq_true hs
  have hr := reachable_of_exec fresh_initial hexec
  have hrFits := restrict_reachable_of_exec fresh_initial (hfits.trans hexec)
  have hrAvoids := restrict_reachable_of_exec fresh_initial (havoids.trans hexec)
  obtain ⟨hreach, hbound, hnone⟩ := cycle_spec oneJob
  exact ⟨s, ⟨hrFits, hrAvoids⟩, hpc, hlength, ((hreach s hr).2 true hpc).2, hbound s hrFits,
    hnone s hrAvoids⟩

/-- Two jobs run at a concurrency of one, and a lane is tried again after it failed. -/
theorem planner_overrides :
    (∃ s, (lts oneJob).Reachable s ∧ oneJob.given < unfinishedTotal s.log) ∧
      ∃ s, (lts oneJob).Reachable s ∧ ¬ NoneAfterFailure s.log := by
  constructor
  · exact exists_reachable [.begin, .plan [true, false]] fresh_initial (by decide +kernel)
  · obtain ⟨s, hreach, hlog⟩ : ∃ s, (lts oneJob).Reachable s ∧
        s.log = [.started true, .finished true false, .started true] :=
      exists_reachable [.begin, .plan [true], .full, .complete 0 false false, .plan [true]]
        fresh_initial (by decide +kernel)
    refine ⟨s, hreach, fun hnone => ?_⟩
    rw [hlog] at hnone
    have hpair := (List.pairwise_cons.1 (List.pairwise_cons.1 hnone).2).1 (.started true) (by simp)
    exact hpair rfl

end Skippr.L5.Scheduler
