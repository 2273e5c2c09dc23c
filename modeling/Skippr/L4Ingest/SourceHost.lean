import Skippr.L3Wal.WriterFlush

/-!
# The host of a runtime source: payload frames and the checkpoint barrier

`sync_runtime_input_plugin` reads data frames in order. A payload frame spawns
ingest tasks that run concurrently and hand commit units to the WAL writer. A
checkpoint update or a list of offset hints first drains the tasks, then
flushes the writer, then persists the resume point
(src/runtime_plugins/host.rs). The writer is the one of `Skippr.L3.Writer`; the
tasks and the host are its clients.

Rows are the records of a frame that its ingest task admits and keeps. How a
task ends is in the label: which rows it hands to the writer in a commit unit
and which it deadletters; the others are lost with the failed request.
-/
namespace Skippr.L4.SourceHost

open Skippr.L3

/-- Where the host stands. `draining` is `drain_runtime_source_ingest`,
`flushing` waits for the reply of `flush_all_segments`, `calling` is inside
`persist_checkpoint` or `persist_offset_hint`. -/
inductive Pc | idle | draining | flushing | calling | stopped
deriving DecidableEq, Repr

structure St where
  pc : Pc
  tasks : List (List Nat)
  sawUnflushedBatches : Bool
  flushesSent : Nat
  received : List Nat
  deadletters : List Nat
  writer : Writer.St
deriving DecidableEq, Repr

def init : St where
  pc := .idle
  tasks := []
  sawUnflushedBatches := false
  flushesSent := 0
  received := []
  deadletters := []
  writer := Writer.init

/-- mirrors src/buffer/wal_writer.rs:283-285 -/
def hasPendingWork (w : Writer.St) : Bool := 0 < w.pendingCount || 0 < Writer.liveBytes w

def send (s : St) (cmd : Writer.Cmd) : Option St :=
  (Writer.step s.writer (.send cmd)).map fun w => { s with writer := w }

/-- `SourcePayloadBatches`: a frame without a non-empty task is only acked.
mirrors host.rs:1085-1168 -/
def payload (s : St) (tasks : List (List Nat)) : St :=
  let nonEmpty := tasks.filter (· ≠ [])
  if nonEmpty = [] then s
  else { s with
    tasks := s.tasks ++ nonEmpty
    received := s.received ++ nonEmpty.flatten
    sawUnflushedBatches := true }

/-- The end of `process_batch` for one task. A panic or an error there fails the
request and nothing else.
mirrors host.rs:762-797 -/
def endTask (s : St) (i : Nat) (handed : List Writer.Batch) (dead : List Nat) : Option St :=
  match s.tasks[i]? with
  | none => none
  | some rows =>
    if (Writer.rowsOf handed ++ dead).all (· ∈ rows) then
      let s := { s with tasks := s.tasks.eraseIdx i, deadletters := s.deadletters ++ dead }
      if handed = [] then some s else send s (.submit handed)
    else none

/-- `wait_for_completion` returns; the flush is skipped when no payload came
since the last one.
mirrors host.rs:1206-1221 -/
def drained (s : St) : Option St :=
  if s.tasks = [] ∧ hasPendingWork s.writer = false then
    if s.sawUnflushedBatches then
      send { s with pc := .flushing, flushesSent := s.flushesSent + 1 } .flush
    else some { s with pc := .calling }
  else none

/-- `barrier` is a checkpoint update or a hints frame, `persist` one call of
`persist_checkpoint` or `persist_offset_hint` (more hints may follow), `abort`
an error that ends the sync. -/
inductive Lbl
  | payload (tasks : List (List Nat))
  | barrier
  | endTask (i : Nat) (handed : List Writer.Batch) (dead : List Nat)
  | drained
  | flushed
  | persist (more : Bool)
  | abort
  | writer (l : Writer.Lbl)
deriving DecidableEq, Repr

/-- mirrors host.rs:1083-1253 -/
def step (s : St) : Lbl → Option St
  | .payload tasks => if s.pc = .idle then some (payload s tasks) else none
  | .barrier => if s.pc = .idle then some { s with pc := .draining } else none
  | .endTask i handed dead => endTask s i handed dead
  | .drained => if s.pc = .draining then drained s else none
  | .flushed =>
    if s.pc = .flushing ∧ s.writer.flushed = s.flushesSent then
      some { s with pc := .calling, sawUnflushedBatches := false }
    else none
  | .persist more =>
    if s.pc = .calling then some { s with pc := if more then .calling else .idle } else none
  | .abort => some { s with pc := .stopped }
  | .writer l =>
    if l.Internal then (Writer.step s.writer l).map fun w => { s with writer := w } else none

def lts : LTS St Lbl := LTS.ofFn (· = init) step

/-! ## Where a received row is -/

def Safe (s : St) (r : Nat) : Prop := r ∈ s.deadletters ∨ r ∈ Writer.durableRows s.writer

/-- An ingest task has row `r`, the writer keeps it, or it is deadlettered. -/
def Held (s : St) (r : Nat) : Prop :=
  r ∈ s.tasks.flatten ∨ r ∈ s.deadletters ∨ Writer.Keeps s.writer r

/-- No ingest task, append or persist fails: a task ends with each of its rows
handed to the writer or deadlettered. -/
def NoFailure (s : St) : Lbl → Prop
  | .endTask i handed dead => ∀ r ∈ (s.tasks[i]?).getD [], r ∈ Writer.rowsOf handed ++ dead
  | .writer l => l.Succeeds
  | _ => True

instance (s : St) (l : Lbl) : Decidable (NoFailure s l) := by
  unfold NoFailure
  split <;> infer_instance

/-- Nothing is on its way: no task, and a quiet writer. -/
structure AtRest (s : St) : Prop where
  tasks : s.tasks = []
  quiet : Writer.Quiet s.writer
  flushed : s.writer.flushed = s.flushesSent

def Barrier (s : St) : Prop :=
  match s.pc with
  | .idle | .draining =>
    Writer.Receiving s.writer s.flushesSent ∧ (s.sawUnflushedBatches = false → AtRest s)
  | .flushing => s.tasks = [] ∧ Writer.FlushPhase s.writer s.flushesSent
  | .calling => AtRest s ∧ s.sawUnflushedBatches = false
  | .stopped => True

structure Inv (s : St) : Prop where
  held : ∀ r ∈ s.received, Held s r
  owned : Writer.Owned s.writer
  isOpen : s.writer.closed = false
  barrier : Barrier s

variable {s s' : St} {r : Nat} {cmd : Writer.Cmd} {w : Writer.St}

theorem AtRest.safe (h : AtRest s) (hr : Held s r) : Safe s r := by
  rcases hr with hr | hr | hr
  · rw [h.tasks] at hr
    cases hr
  · exact .inl hr
  · exact .inr (h.quiet.durable_of_keeps hr)

theorem AtRest.receiving (h : AtRest s) : Writer.Receiving s.writer s.flushesSent := by
  refine ⟨h.flushed, ?_, ?_⟩
  · rw [h.quiet.queue]
    exact nofun
  · rw [h.quiet.pc]
    trivial

/-! ## The steps keep the invariant -/

theorem send_cases (h : send s cmd = some s') :
    s' = { s with writer := { s.writer with queue := s.writer.queue ++ [cmd] } } := by
  obtain ⟨w, hw, rfl⟩ := Option.map_eq_some_iff.mp h
  cases Writer.step_cases hw
  rfl

theorem keeps_send (h : Writer.Keeps w r) :
    Writer.Keeps { w with queue := w.queue ++ [cmd] } r := by
  rcases h with h | h
  · refine .inl ?_
    rw [List.flatMap_append]
    exact List.mem_append_left _ h
  · exact .inr h

theorem keeps_sent (h : r ∈ cmd.rows) : Writer.Keeps { w with queue := w.queue ++ [cmd] } r := by
  refine .inl ?_
  rw [List.flatMap_append]
  exact List.mem_append_right _ (by simpa using h)

theorem inv_payload (h : Inv s) (hpc : s.pc = .idle) (tasks : List (List Nat)) :
    Inv (payload s tasks) := by
  unfold payload
  extract_lets nonEmpty
  split
  · exact h
  refine ⟨?_, h.owned, h.isOpen, ?_⟩
  · intro r hr
    rcases List.mem_append.mp hr with hr | hr
    · rcases h.held r hr with ht | hd | hk
      · refine .inl ?_
        rw [List.flatten_append]
        exact List.mem_append_left _ ht
      · exact .inr (.inl hd)
      · exact .inr (.inr hk)
    · refine .inl ?_
      rw [List.flatten_append]
      exact List.mem_append_right _ hr
  · have hb := h.barrier
    simp only [Barrier, hpc] at hb ⊢
    exact ⟨hb.1, by simp⟩

theorem Barrier.of_task (h : Barrier s) (ht : s.tasks ≠ []) :
    s.pc = .stopped ∨ (s.pc = .idle ∨ s.pc = .draining) ∧
      Writer.Receiving s.writer s.flushesSent ∧ s.sawUnflushedBatches = true := by
  unfold Barrier at h
  cases hpc : s.pc <;> simp only [hpc] at h
  · refine .inr ⟨.inl rfl, h.1, ?_⟩
    by_contra hsaw
    exact ht (h.2 (by simpa using hsaw)).tasks
  · refine .inr ⟨.inr rfl, h.1, ?_⟩
    by_contra hsaw
    exact ht (h.2 (by simpa using hsaw)).tasks
  · exact absurd h.1 ht
  · exact absurd h.1.tasks ht
  · exact .inl rfl

theorem Barrier.of_receiving (hpc : s.pc = .idle ∨ s.pc = .draining)
    (hr : Writer.Receiving s.writer s.flushesSent) (hsaw : s.sawUnflushedBatches = true) :
    Barrier s := by
  unfold Barrier
  rcases hpc with hpc | hpc <;> rw [hpc] <;> exact ⟨hr, by simp [hsaw]⟩

theorem Barrier.of_stopped (hpc : s.pc = .stopped) : Barrier s := by
  unfold Barrier
  rw [hpc]
  trivial

theorem mem_eraseIdx_or {tasks : List (List Nat)} {i : Nat} {rows : List Nat}
    (hi : tasks[i]? = some rows) (hr : r ∈ tasks.flatten) :
    r ∈ (tasks.eraseIdx i).flatten ∨ r ∈ rows := by
  obtain ⟨task, htask, hr⟩ := List.mem_flatten.mp hr
  obtain ⟨k, hk, rfl⟩ := List.mem_iff_getElem.mp htask
  obtain ⟨hlt, rfl⟩ := List.getElem?_eq_some_iff.mp hi
  by_cases hki : k = i
  · subst hki
    exact .inr hr
  · refine .inl (List.mem_flatten.mpr ⟨tasks[k], ?_, hr⟩)
    exact List.mem_eraseIdx_iff_getElem.mpr ⟨k, hk, hki, rfl⟩

theorem inv_endTask {i : Nat} {handed : List Writer.Batch} {dead : List Nat} (h : Inv s)
    (hok : NoFailure s (.endTask i handed dead)) (hs : endTask s i handed dead = some s') :
    Inv s' := by
  unfold endTask at hs
  split at hs
  · cases hs
  rename_i rows hi
  split at hs
  swap
  · cases hs
  simp only [NoFailure, hi, Option.getD_some] at hok
  have hne : s.tasks ≠ [] := by
    intro hnil
    rw [hnil] at hi
    cases hi
  -- Where a row of the ended task goes does not depend on the barrier.
  have hrow : ∀ r ∈ s.received, r ∈ (s.tasks.eraseIdx i).flatten ∨ r ∈ s.deadletters ++ dead ∨
      r ∈ Writer.rowsOf handed ∨ Writer.Keeps s.writer r := by
    intro r hr
    rcases h.held r hr with ht | hd | hk
    · rcases mem_eraseIdx_or hi ht with ht | hrows
      · exact .inl ht
      · rcases List.mem_append.mp (hok r hrows) with hh | hd
        · exact .inr (.inr (.inl hh))
        · exact .inr (.inl (List.mem_append_right _ hd))
    · exact .inr (.inl (List.mem_append_left _ hd))
    · exact .inr (.inr (.inr hk))
  dsimp only at hs
  split at hs
  · rename_i hnil
    cases hs
    refine ⟨?_, h.owned, h.isOpen, ?_⟩
    · intro r hr
      rcases hrow r hr with ht | hd | hh | hk
      · exact .inl ht
      · exact .inr (.inl hd)
      · rw [hnil] at hh
        cases hh
      · exact .inr (.inr hk)
    · rcases h.barrier.of_task hne with hst | ⟨hpc, hrec, hsaw⟩
      · exact .of_stopped hst
      · exact .of_receiving hpc hrec hsaw
  · cases send_cases hs
    refine ⟨?_, h.owned, h.isOpen, ?_⟩
    · intro r hr
      rcases hrow r hr with ht | hd | hh | hk
      · exact .inl ht
      · exact .inr (.inl hd)
      · exact .inr (.inr (keeps_sent hh))
      · exact .inr (.inr (keeps_send hk))
    · rcases h.barrier.of_task hne with hst | ⟨hpc, hrec, hsaw⟩
      · exact .of_stopped hst
      · refine .of_receiving hpc ⟨hrec.flushed, ?_, hrec.pc⟩ hsaw
        exact List.forall_mem_append.2 ⟨hrec.submits, List.forall_mem_singleton.2 nofun⟩

theorem exists_units {queue : List Writer.Cmd} (h : ∀ cmd ∈ queue, cmd ≠ .flush) :
    ∃ units : List (List Writer.Batch), queue = units.map .submit := by
  induction queue with
  | nil => exact ⟨[], rfl⟩
  | cons cmd rest ih =>
    obtain ⟨units, hu⟩ := ih (List.forall_mem_cons.1 h).2
    cases cmd with
    | submit batches => exact ⟨batches :: units, by rw [hu]; rfl⟩
    | flush => exact absurd rfl (h .flush List.mem_cons_self)

theorem inv_drained (h : Inv s) (hpc : s.pc = .draining) (hs : drained s = some s') : Inv s' := by
  have hb := h.barrier
  simp only [Barrier, hpc] at hb
  unfold drained at hs
  split at hs
  swap
  · cases hs
  rename_i hg
  split at hs
  · cases send_cases hs
    refine ⟨?_, h.owned, h.isOpen, hg.1, ?_⟩
    · intro r hr
      rcases h.held r hr with ht | hd | hk
      · exact .inl ht
      · exact .inr (.inl hd)
      · exact .inr (.inr (keeps_send hk))
    · obtain ⟨units, hu⟩ := exists_units hb.1.submits
      refine .queued units ?_ hb.1.pc ?_
      · simp only [hu]
      · simp only [hb.1.flushed]
  · rename_i hsaw
    have hsaw : s.sawUnflushedBatches = false := by simpa using hsaw
    cases hs
    have hrest := hb.2 hsaw
    exact ⟨h.held, h.owned, h.isOpen, ⟨hrest.tasks, hrest.quiet, hrest.flushed⟩, hsaw⟩

theorem inv_flushed (h : Inv s) (hpc : s.pc = .flushing) (hfl : s.writer.flushed = s.flushesSent) :
    Inv { s with pc := .calling, sawUnflushedBatches := false } := by
  have hb := h.barrier
  simp only [Barrier, hpc] at hb
  obtain ⟨ht, hphase⟩ := hb
  have hquiet : Writer.Quiet s.writer := by
    cases hphase with
    | queued _ _ _ hn | joining _ _ _ hn | writing _ _ _ _ hn => omega
    | answered hq _ => exact hq
  exact ⟨h.held, h.owned, h.isOpen, ⟨ht, hquiet, hfl⟩, rfl⟩

theorem inv_persist (h : Inv s) (hpc : s.pc = .calling) (more : Bool) :
    Inv { s with pc := if more then .calling else .idle } := by
  have hb := h.barrier
  simp only [Barrier, hpc] at hb
  obtain ⟨hrest, hsaw⟩ := hb
  cases more with
  | true => exact ⟨h.held, h.owned, h.isOpen, ⟨hrest.tasks, hrest.quiet, hrest.flushed⟩, hsaw⟩
  | false =>
    exact ⟨h.held, h.owned, h.isOpen, hrest.receiving,
      fun _ => ⟨hrest.tasks, hrest.quiet, hrest.flushed⟩⟩

theorem inv_writer {l : Writer.Lbl} (h : Inv s) (hl : l.Internal) (hok : l.Succeeds)
    (hs : Writer.step s.writer l = some w) : Inv { s with writer := w } := by
  refine ⟨?_, h.owned.step hok hs, (Writer.closed_step hl hs).trans h.isOpen, ?_⟩
  · intro r hr
    rcases h.held r hr with ht | hd | hk
    · exact .inl ht
    · exact .inr (.inl hd)
    · exact .inr (.inr (hk.step hok hs))
  -- A writer at rest has no step to take.
  have hno : ¬ AtRest s := by
    intro hrest
    rw [hrest.quiet.step_eq_none h.isOpen hl] at hs
    cases hs
  have hb := h.barrier
  unfold Barrier at hb ⊢
  cases hpc : s.pc <;> simp only [hpc] at hb ⊢
  · exact ⟨hb.1.step h.isOpen hl hs, fun hsaw => absurd (hb.2 hsaw) hno⟩
  · exact ⟨hb.1.step h.isOpen hl hs, fun hsaw => absurd (hb.2 hsaw) hno⟩
  · exact ⟨hb.1, hb.2.step h.owned h.isOpen hl hs⟩
  · exact absurd hb.1 hno

theorem inv_step {l : Lbl} (h : Inv s) (hok : NoFailure s l) (hs : step s l = some s') :
    Inv s' := by
  cases l with
  | payload tasks =>
    obtain ⟨hpc, rfl⟩ := of_guard hs
    exact inv_payload h hpc tasks
  | barrier =>
    obtain ⟨hpc, rfl⟩ := of_guard hs
    have hb := h.barrier
    simp only [Barrier, hpc] at hb
    exact ⟨h.held, h.owned, h.isOpen, hb.1, fun hsaw => ⟨(hb.2 hsaw).tasks, (hb.2 hsaw).quiet,
      (hb.2 hsaw).flushed⟩⟩
  | endTask i handed dead => exact inv_endTask h hok hs
  | drained =>
    obtain ⟨hpc, hs⟩ := Option.ite_none_right_eq_some.1 hs
    exact inv_drained h hpc hs
  | flushed =>
    obtain ⟨hg, rfl⟩ := of_guard hs
    exact inv_flushed h hg.1 hg.2
  | persist more =>
    obtain ⟨hpc, rfl⟩ := of_guard hs
    exact inv_persist h hpc more
  | abort =>
    cases hs
    exact ⟨h.held, h.owned, h.isOpen, trivial⟩
  | writer l =>
    obtain ⟨hl, hs⟩ := Option.ite_none_right_eq_some.1 hs
    obtain ⟨w, hw, rfl⟩ := Option.map_eq_some_iff.mp hs
    exact inv_writer h hl hok hw

theorem inv_init : Inv init := by
  refine ⟨nofun, .inl rfl, rfl, ⟨rfl, nofun, trivial⟩, fun _ => ⟨rfl, ?_, rfl⟩⟩
  exact ⟨rfl, rfl, rfl, rfl, rfl⟩

theorem inv_inductive : (lts.restrict NoFailure).Inductive Inv where
  init := by intro s hs; cases hs; exact inv_init
  step := by intro s l s' h hs; exact inv_step h hs.1 hs.2

/-- In every run without a failed ingest task, append or persist: whenever the
host calls `persist_checkpoint` or `persist_offset_hint`, every row of every
payload frame received before is in a persisted segment or deadlettered. -/
theorem calls_after_durable (s : St) (hr : (lts.restrict NoFailure).Reachable s)
    (hcall : s.pc = .calling) (r : Nat) (hrow : r ∈ s.received) : Safe s r := by
  have h := inv_inductive.reachable s hr
  have hb := h.barrier
  simp only [Barrier, hcall] at hb
  exact hb.1.safe (h.held r hrow)

/-- One frame with row 7, then a checkpoint update; the unit of the frame's
task is appended and its persist has taken the row. -/
def frameThenCheckpoint : List Lbl :=
  [.payload [[7]], .barrier, .endTask 0 [⟨[7], 1⟩] [], .writer .recv, .writer (.append true),
    .writer .queueAck, .writer .take]

/-- The persist has ended: it is joined, the drain returns, and the flush finds
nothing left to write. -/
def passBarrier : List Lbl :=
  [.writer .join, .drained, .writer .recv, .writer .join, .writer .join, .flushed]

theorem calls_after_durable_frame :
    ∃ s, (lts.restrict NoFailure).Reachable s ∧ s.pc = .calling ∧ 7 ∈ s.received ∧ Safe s 7 := by
  obtain ⟨s, hr, hcall, hrow⟩ : ∃ s, (lts.restrict NoFailure).Reachable s ∧ s.pc = .calling ∧
      7 ∈ s.received :=
    exists_restrict_reachable (frameThenCheckpoint ++ [.writer (.finish .ok)] ++ passBarrier) rfl
      (by decide +kernel)
  exact ⟨s, hr, hcall, hrow, calls_after_durable s hr hcall 7 hrow⟩

/-- The persist fails: the ack reports it, but the drain and the flush succeed
and the checkpoint is persisted while row 7 is nowhere. -/
theorem checkpoint_after_failed_persist :
    ∃ s, lts.Reachable s ∧ s.pc = .calling ∧ 7 ∈ s.received ∧ ¬ Safe s 7 := by
  unfold Safe
  exact exists_reachable (frameThenCheckpoint ++ [.writer (.finish .err)] ++ passBarrier) rfl
    (by decide +kernel)

end Skippr.L4.SourceHost
