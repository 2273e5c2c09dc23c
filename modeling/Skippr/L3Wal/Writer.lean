import Skippr.Core.LTS

/-!
# The WAL writer: `run_writer` and the persist task it spawns

Producers send commit units over a channel. The writer appends the batches of
a unit to the live segment, one lock at a time, queues the unit's ack and
starts a persist task, which takes the whole live segment when it gets to run
and writes it (src/buffer/wal_writer.rs, ingest_buffer.rs). The acks a persist
answers are collected when it is *started*, the batches it writes when it
*takes* the live segment.

`step` interleaves the two tasks: receiving a command, appending one batch,
taking the live segment, the end of a persist and its join are the atomic
steps. A persist ends with Ok, Err or a panic, and an append may fail; both are
in the label.
-/
namespace Skippr.L3.Writer

structure Batch where
  rows : List Nat
  bytes : Nat
deriving DecidableEq, Repr

/-- `WalCommitUnit`, numbered in the order the writer receives them. -/
structure CommitUnit where
  id : Nat
  batches : List Batch
deriving DecidableEq, Repr

inductive Cmd
  | submit (batches : List Batch)
  | flush
deriving DecidableEq, Repr

structure Entry where
  unit : Nat
  index : Nat
  batch : Batch
deriving DecidableEq, Repr

inductive Outcome | ok | err | panic
deriving DecidableEq, Repr

inductive Phase
  | spawned
  | running (segment : List Entry)
  | finished (outcome : Outcome)
deriving DecidableEq, Repr

structure Task where
  acked : List CommitUnit
  phase : Phase
deriving DecidableEq, Repr

/-- Where `run_writer` stands: in the select, inside `queue_submit` before batch
`i` of a unit, or at the first or second join of a flush or of the shutdown. -/
inductive Pc
  | idle
  | appending (unit : CommitUnit) (i : Nat)
  | flushing (second : Bool)
  | closing (second : Bool)
  | stopped
deriving DecidableEq, Repr

structure St where
  queue : List Cmd
  closed : Bool
  pc : Pc
  live : List Entry
  pendingAcks : List CommitUnit
  pendingOffsets : Bool
  pendingCount : Nat
  persist : Option Task
  received : Nat
  /-- Segments whose persist returned Ok. -/
  persisted : List (List Entry)
  /-- Calls of `complete_request_unit`, `true` for Ok. -/
  completed : List (CommitUnit × Bool)
  /-- Replies to Flush commands. -/
  flushed : Nat
deriving DecidableEq, Repr

def init : St where
  queue := []
  closed := false
  pc := .idle
  live := []
  pendingAcks := []
  pendingOffsets := false
  pendingCount := 0
  persist := none
  received := 0
  persisted := []
  completed := []
  flushed := 0

def liveBytes (s : St) : Nat := (s.live.map fun e => e.batch.bytes).sum

/-- mirrors wal_writer.rs:351-378 -/
def tryStartPersist (s : St) : St :=
  if s.persist.isSome then s
  else if s.pendingAcks = [] ∧ liveBytes s = 0 then s
  else if s.pendingOffsets = false then s
  else { s with persist := some ⟨s.pendingAcks, .spawned⟩, pendingAcks := [] }

/-- mirrors wal_writer.rs:287-310; a panic drops the acks.
mirrors wal_writer.rs:431-443 -/
def applyPersistResult (s : St) (t : Task) (outcome : Outcome) : St :=
  match outcome with
  | .ok => { s with
      completed := s.completed ++ t.acked.map fun u => (u, true)
      pendingCount := s.pendingCount - t.acked.length }
  | .err => { s with
      completed := s.completed ++ t.acked.map fun u => (u, false)
      pendingCount := s.pendingCount - t.acked.length }
  | .panic => s

/-- `join_persist` once the task has ended; `none` while it still runs. -/
def joinPersist (s : St) : Option St :=
  match s.persist with
  | none => some s
  | some t =>
    match t.phase with
    | .finished outcome => some (applyPersistResult { s with persist := none } t outcome)
    | _ => none

/-- `rx.recv()` in the select.
mirrors wal_writer.rs:494-535 -/
def recv (s : St) : Option St :=
  match s.queue with
  | .submit batches :: rest => some { s with
      queue := rest
      pc := .appending ⟨s.received, batches⟩ 0
      pendingOffsets := true
      pendingCount := s.pendingCount + 1
      received := s.received + 1 }
  | .flush :: rest => some { s with queue := rest, pc := .flushing false, pendingOffsets := true }
  | [] => if s.closed then some { s with pc := .closing false } else none

/-- One turn of the loop in `append_batches_to_live`. An error completes the
unit and leaves its earlier batches in the live segment.
mirrors src/buffer/ingest_buffer.rs:1043-1095 and wal_writer.rs:422-428 -/
def append (s : St) (u : CommitUnit) (i : Nat) (ok : Bool) : Option St :=
  match u.batches[i]? with
  | none => none
  | some b =>
    if b.rows = [] then some { s with pc := .appending u (i + 1) }
    else if ok then
      some { s with live := s.live ++ [⟨u.id, i, b⟩], pc := .appending u (i + 1) }
    else
      some (tryStartPersist { s with
        completed := s.completed ++ [(u, false)]
        pendingCount := s.pendingCount - 1
        pc := .idle })

/-- The end of `queue_submit`: the ack is queued and a persist may start. -/
def queueAck (s : St) (u : CommitUnit) (i : Nat) : Option St :=
  if i = u.batches.length then
    some (tryStartPersist { s with pendingAcks := s.pendingAcks ++ [u], pc := .idle })
  else none

/-- A join: in the select, or inside a flush or the shutdown.
mirrors wal_writer.rs:471-534 -/
def join (s : St) : Option St :=
  match s.pc with
  | .idle => if s.persist.isSome then (joinPersist s).map tryStartPersist else none
  | .flushing false => (joinPersist s).map fun s => { tryStartPersist s with pc := .flushing true }
  | .flushing true => (joinPersist s).map fun s =>
      { s with pc := .idle, flushed := s.flushed + 1, pendingOffsets := false }
  | .closing false => (joinPersist s).map fun s => { tryStartPersist s with pc := .closing true }
  | .closing true => (joinPersist s).map fun s => { s with pc := .stopped }
  | _ => none

/-- The task takes the live segment; an empty one ends it with `Ok((0, 0))`.
mirrors ingest_buffer.rs:1243-1255 -/
def take (s : St) : Option St :=
  match s.persist with
  | some ⟨acked, .spawned⟩ =>
    if s.live = [] then some { s with persist := some ⟨acked, .finished .ok⟩ }
    else some { s with persist := some ⟨acked, .running s.live⟩, live := [] }
  | _ => none

/-- `persist_snapshot_to_wal` ends. After an error nothing is put back.
mirrors ingest_buffer.rs:1281-1292 -/
def finish (s : St) (outcome : Outcome) : Option St :=
  match s.persist with
  | some ⟨acked, .running segment⟩ =>
    some { s with
      persist := some ⟨acked, .finished outcome⟩
      persisted := if outcome = .ok then s.persisted ++ [segment] else s.persisted }
  | _ => none

/-- `timer` stands for the ack deadline and the segment size check. -/
inductive Lbl
  | send (cmd : Cmd)
  | close
  | recv
  | append (ok : Bool)
  | queueAck
  | join
  | timer
  | take
  | finish (outcome : Outcome)
deriving DecidableEq, Repr

def step (s : St) : Lbl → Option St
  | .send cmd => if s.closed then none else some { s with queue := s.queue ++ [cmd] }
  | .close => some { s with closed := true }
  | .recv => if s.pc = .idle then recv s else none
  | .append ok =>
    match s.pc with
    | .appending u i => append s u i ok
    | _ => none
  | .queueAck =>
    match s.pc with
    | .appending u i => queueAck s u i
    | _ => none
  | .join => join s
  | .timer =>
    if s.pc = .idle ∧ s.persist = none ∧ s.pendingAcks ≠ [] then some (tryStartPersist s) else none
  | .take => take s
  | .finish outcome => finish s outcome

def lts : LTS St Lbl := LTS.ofFn (· = init) step

inductive Step (s : St) : Lbl → St → Prop
  | send {cmd : Cmd} : s.closed = false → Step s (.send cmd) { s with queue := s.queue ++ [cmd] }
  | close : Step s .close { s with closed := true }
  | recv {s' : St} : s.pc = .idle → Writer.recv s = some s' → Step s .recv s'
  | append {s' : St} {u : CommitUnit} {i : Nat} {ok : Bool} : s.pc = .appending u i →
      Writer.append s u i ok = some s' → Step s (.append ok) s'
  | queueAck {s' : St} {u : CommitUnit} {i : Nat} : s.pc = .appending u i →
      Writer.queueAck s u i = some s' → Step s .queueAck s'
  | join {s' : St} : Writer.join s = some s' → Step s .join s'
  | timer : s.pc = .idle → s.persist = none → s.pendingAcks ≠ [] →
      Step s .timer (tryStartPersist s)
  | take {s' : St} : Writer.take s = some s' → Step s .take s'
  | finish {s' : St} {outcome : Outcome} : Writer.finish s outcome = some s' →
      Step s (.finish outcome) s'

variable {s s' : St} {outcome : Outcome} {p : List Entry} {u : CommitUnit} {i : Nat}

theorem step_cases {l : Lbl} (h : step s l = some s') : Step s l s' := by
  cases l with
  | send cmd =>
    obtain ⟨hopen, rfl⟩ := of_guard_not h
    exact .send (by simpa using hopen)
  | close => cases h; exact .close
  | recv =>
    obtain ⟨hpc, h⟩ := Option.ite_none_right_eq_some.1 h
    exact .recv hpc h
  | append ok =>
    simp only [step] at h
    split at h
    · rename_i u i hpc
      exact .append hpc h
    · cases h
  | queueAck =>
    simp only [step] at h
    split at h
    · rename_i u i hpc
      exact .queueAck hpc h
    · cases h
  | join => exact .join h
  | timer =>
    obtain ⟨hg, rfl⟩ := of_guard h
    exact .timer hg.1 hg.2.1 hg.2.2
  | take => exact .take h
  | finish outcome => exact .finish h

/-! ## What covers a unit -/

def inFlight : Option Task → List Entry
  | some ⟨_, .running segment⟩ => segment
  | _ => []

theorem inFlight_of_finished {t : Task} (h : t.phase = .finished outcome) :
    inFlight (some t) = [] := by
  obtain ⟨acked, phase⟩ := t
  subst h
  rfl

/-- Every non-empty batch of `u` before index `n` is in a segment of `done` or in
`places`. -/
def Covered (done : List (List Entry)) (places : List Entry) (u : CommitUnit) (n : Nat) : Prop :=
  ∀ i b, i < n → u.batches[i]? = some b → b.rows ≠ [] →
    ⟨u.id, i, b⟩ ∈ places ∨ ∃ segment ∈ done, ⟨u.id, i, b⟩ ∈ segment

theorem Covered.mono {d d' : List (List Entry)} {p' : List Entry} {n : Nat} (h : Covered d p u n)
    (hp : ∀ e ∈ p, e.unit = u.id → e ∈ p' ∨ ∃ segment ∈ d', e ∈ segment)
    (hd : ∀ segment ∈ d, segment ∈ d') : Covered d' p' u n := by
  intro i b hi hb hrows
  rcases h i b hi hb hrows with hmem | ⟨segment, hseg, hmem⟩
  · exact hp _ hmem rfl
  · exact Or.inr ⟨segment, hd segment hseg, hmem⟩

theorem Covered.succ {d : List (List Entry)} (h : Covered d p u i)
    (hi : ∀ b, u.batches[i]? = some b → b.rows ≠ [] → ⟨u.id, i, b⟩ ∈ p) :
    Covered d p u (i + 1) := by
  intro k b hk hb hrows
  rcases Nat.lt_succ_iff_lt_or_eq.mp hk with hlt | rfl
  · exact h k b hlt hb hrows
  · exact Or.inl (hi b hb hrows)

/-- What was appended so far of the units that wait for a later persist is
covered. -/
structure Waits (s : St) (places : List Entry) : Prop where
  appending : ∀ u i, s.pc = .appending u i → Covered s.persisted places u i
  pending : ∀ u ∈ s.pendingAcks, Covered s.persisted places u u.batches.length

def Task.places (t : Task) (live : List Entry) : List Entry :=
  match t.phase with
  | .spawned => live
  | .running segment => segment
  | .finished _ => []

def Task.Sound (t : Task) : Prop := t.phase ≠ .finished .err ∧ t.phase ≠ .finished .panic

structure Inv (s : St) : Prop where
  waiting : Waits s (s.live ++ inFlight s.persist)
  acked : ∀ t, s.persist = some t → t.Sound →
    ∀ u ∈ t.acked, Covered s.persisted (t.places s.live) u u.batches.length
  completed : ∀ u, (u, true) ∈ s.completed → Covered s.persisted [] u u.batches.length

theorem Waits.mono {p' : List Entry} (h : Waits s p) (hpc : s'.pc = s.pc)
    (hack : s'.pendingAcks = s.pendingAcks) (hdone : ∀ seg ∈ s.persisted, seg ∈ s'.persisted)
    (hp : ∀ e ∈ p, e ∈ p' ∨ ∃ seg ∈ s'.persisted, e ∈ seg) : Waits s' p' where
  appending u i hu := (h.appending u i (hpc ▸ hu)).mono (fun e he _ => hp e he) hdone
  pending u hu := (h.pending u (hack ▸ hu)).mono (fun e he _ => hp e he) hdone

/-! ## The steps keep the invariant -/

theorem inv_tryStartPersist (h : Inv s) : Inv (tryStartPersist s) := by
  unfold tryStartPersist
  split
  · exact h
  rename_i hnone
  have hnone : s.persist = none := by simpa using hnone
  split
  · exact h
  split
  · exact h
  -- The acks collected here are covered by the live segment alone.
  have hw := h.waiting
  rw [hnone, show inFlight none = [] from rfl, List.append_nil] at hw
  refine ⟨⟨?_, ?_⟩, ?_, h.completed⟩
  · intro u i hpc
    rw [show inFlight (some ⟨s.pendingAcks, .spawned⟩) = [] from rfl, List.append_nil]
    exact hw.appending u i hpc
  · intro u hu
    cases hu
  · rintro t ht - u hu
    cases ht
    exact hw.pending u hu

theorem inv_joinPersist (h : Inv s) (hj : joinPersist s = some s') : Inv s' := by
  unfold joinPersist at hj
  split at hj
  · cases hj; exact h
  rename_i t ht
  split at hj
  · rename_i outcome hphase
    cases hj
    have hw := h.waiting
    rw [ht, inFlight_of_finished hphase] at hw
    have hidle : Inv { s with persist := none } :=
      ⟨⟨hw.appending, hw.pending⟩, nofun, h.completed⟩
    cases outcome with
    | panic => exact hidle
    | err =>
      refine ⟨⟨hw.appending, hw.pending⟩, hidle.acked, ?_⟩
      intro u hu
      rcases List.mem_append.mp hu with hu | hu
      · exact h.completed u hu
      · obtain ⟨_, -, he⟩ := List.mem_map.mp hu
        cases he
    | ok =>
      refine ⟨⟨hw.appending, hw.pending⟩, hidle.acked, ?_⟩
      intro u hu
      rcases List.mem_append.mp hu with hu | hu
      · exact h.completed u hu
      · obtain ⟨u, hu, he⟩ := List.mem_map.mp hu
        cases he
        have hc := h.acked t ht ⟨by simp [hphase], by simp [hphase]⟩ u hu
        simp only [Task.places, hphase] at hc
        exact hc
  · cases hj

theorem inv_recv (h : Inv s) (hs : recv s = some s') : Inv s' := by
  unfold recv at hs
  split at hs
  · cases hs
    refine ⟨⟨?_, h.waiting.pending⟩, h.acked, h.completed⟩
    intro u i hpc
    cases hpc
    intro k b hk
    exact absurd hk (Nat.not_lt_zero k)
  · cases hs
    exact ⟨⟨nofun, h.waiting.pending⟩, h.acked, h.completed⟩
  · obtain ⟨-, rfl⟩ := of_guard hs
    exact ⟨⟨nofun, h.waiting.pending⟩, h.acked, h.completed⟩

/-- A batch added to the live segment is seen by the units that wait and by a
persist that has not taken the segment yet. -/
theorem Task.mem_places_append {t : Task} {live : List Entry} {e e' : Entry} (h : e ∈ t.places live) :
    e ∈ t.places (live ++ [e']) := by
  unfold Task.places at h ⊢
  cases hp : t.phase with
  | spawned =>
    rw [hp] at h
    exact List.mem_append_left _ h
  | running segment | finished outcome => rw [hp] at h; exact h

theorem inv_append {ok : Bool} (h : Inv s) (hpc : s.pc = .appending u i)
    (hs : append s u i ok = some s') : Inv s' := by
  unfold append at hs
  split at hs
  · cases hs
  rename_i b hb
  have hcur := h.waiting.appending u i hpc
  split at hs
  · rename_i hempty
    cases hs
    refine ⟨⟨?_, h.waiting.pending⟩, h.acked, h.completed⟩
    intro v j hv
    cases hv
    refine hcur.succ ?_
    intro b' hb' hrows
    rw [hb] at hb'
    cases hb'
    exact absurd hempty hrows
  split at hs
  · cases hs
    have hgrow : ∀ e ∈ s.live ++ inFlight s.persist,
        e ∈ (s.live ++ [⟨u.id, i, b⟩]) ++ inFlight s.persist := by
      intro e he
      rcases List.mem_append.mp he with he | he
      · exact List.mem_append_left _ (List.mem_append_left _ he)
      · exact List.mem_append_right _ he
    refine ⟨⟨?_, ?_⟩, ?_, h.completed⟩
    · intro v j hv
      cases hv
      refine (hcur.mono (fun e he _ => Or.inl (hgrow e he)) (fun _ hm => hm)).succ ?_
      intro b' hb' _
      rw [hb] at hb'
      cases hb'
      exact List.mem_append_left _ (List.mem_append_right _ (List.mem_singleton.mpr rfl))
    · intro v hv
      exact (h.waiting.pending v hv).mono (fun e he _ => Or.inl (hgrow e he)) (fun _ hm => hm)
    · intro t ht hsound v hv
      exact (h.acked t ht hsound v hv).mono (fun e he _ => Or.inl (Task.mem_places_append he))
        (fun _ hm => hm)
  · cases hs
    apply inv_tryStartPersist
    have hout : Inv { s with pendingCount := s.pendingCount - 1, pc := .idle } :=
      ⟨⟨nofun, h.waiting.pending⟩, h.acked, h.completed⟩
    refine ⟨⟨hout.waiting.appending, hout.waiting.pending⟩, hout.acked, ?_⟩
    intro v hv
    rcases List.mem_append.mp hv with hv | hv
    · exact h.completed v hv
    · cases List.mem_singleton.mp hv

theorem inv_queueAck (h : Inv s) (hpc : s.pc = .appending u i) (hs : queueAck s u i = some s') :
    Inv s' := by
  unfold queueAck at hs
  split at hs
  · rename_i hlen
    subst hlen
    cases hs
    apply inv_tryStartPersist
    refine ⟨⟨nofun, List.forall_mem_append.2 ⟨h.waiting.pending, ?_⟩⟩, h.acked, h.completed⟩
    exact List.forall_mem_singleton.2 (h.waiting.appending u _ hpc)
  · cases hs

theorem inv_join (h : Inv s) (hs : join s = some s') : Inv s' := by
  unfold join at hs
  split at hs
  · split at hs
    · obtain ⟨s1, h1, rfl⟩ := Option.map_eq_some_iff.mp hs
      exact inv_tryStartPersist (inv_joinPersist h h1)
    · cases hs
  · obtain ⟨s1, h1, rfl⟩ := Option.map_eq_some_iff.mp hs
    have hj := inv_tryStartPersist (inv_joinPersist h h1)
    exact ⟨⟨nofun, hj.waiting.pending⟩, hj.acked, hj.completed⟩
  · obtain ⟨s1, h1, rfl⟩ := Option.map_eq_some_iff.mp hs
    have hj := inv_joinPersist h h1
    exact ⟨⟨nofun, hj.waiting.pending⟩, hj.acked, hj.completed⟩
  · obtain ⟨s1, h1, rfl⟩ := Option.map_eq_some_iff.mp hs
    have hj := inv_tryStartPersist (inv_joinPersist h h1)
    exact ⟨⟨nofun, hj.waiting.pending⟩, hj.acked, hj.completed⟩
  · obtain ⟨s1, h1, rfl⟩ := Option.map_eq_some_iff.mp hs
    have hj := inv_joinPersist h h1
    exact ⟨⟨nofun, hj.waiting.pending⟩, hj.acked, hj.completed⟩
  · cases hs

theorem inv_take (h : Inv s) (hs : take s = some s') : Inv s' := by
  unfold take at hs
  split at hs
  · rename_i acked hper
    have hw := h.waiting
    rw [hper, show inFlight (some ⟨acked, .spawned⟩) = [] from rfl, List.append_nil] at hw
    have hacked := h.acked _ hper ⟨by simp, by simp⟩
    split at hs
    · rename_i hlive
      cases hs
      refine ⟨hw.mono rfl rfl (fun _ hm => hm) (fun e he => Or.inl (List.mem_append_left _ he)),
        ?_, h.completed⟩
      rintro t ht - u hu
      cases ht
      have hc := hacked u hu
      simp only [Task.places, hlive] at hc
      exact hc
    · cases hs
      refine ⟨hw.mono rfl rfl (fun _ hm => hm) (fun e he => Or.inl (List.mem_append_right _ he)),
        ?_, h.completed⟩
      rintro t ht - u hu
      cases ht
      exact hacked u hu
  · cases hs

/-! ## A persist that fails -/

/-- The units that wait for a later persist: their ack is queued, or their
batches are being appended. -/
def waitingIds (s : St) : List Nat :=
  match s.pc with
  | .appending u _ => u.id :: s.pendingAcks.map (·.id)
  | _ => s.pendingAcks.map (·.id)

theorem mem_waitingIds_of_pending (h : u ∈ s.pendingAcks) : u.id ∈ waitingIds s := by
  have hmem : u.id ∈ s.pendingAcks.map (·.id) := List.mem_map.mpr ⟨u, h, rfl⟩
  unfold waitingIds
  split
  · exact List.mem_cons_of_mem _ hmem
  · exact hmem

/-- If the step is a persist failing, the segment it had taken holds no batch of
a unit that waits for a later persist. -/
def FailsAlone (s : St) : Lbl → Prop
  | .finish outcome => outcome = .ok ∨ ∀ e ∈ inFlight s.persist, e.unit ∉ waitingIds s
  | _ => True

instance (s : St) (l : Lbl) : Decidable (FailsAlone s l) := by
  unfold FailsAlone
  split <;> infer_instance

theorem inv_finish_ok {acked : List CommitUnit} {segment : List Entry} (h : Inv s)
    (hper : s.persist = some ⟨acked, .running segment⟩) :
    Inv { s with persist := some ⟨acked, .finished .ok⟩, persisted := s.persisted ++ [segment] } := by
  have hgrow : ∀ seg ∈ s.persisted, seg ∈ s.persisted ++ [segment] := fun _ hm =>
    List.mem_append_left _ hm
  have hseg : ∀ e ∈ segment, ∃ seg ∈ s.persisted ++ [segment], e ∈ seg := fun e he =>
    ⟨segment, List.mem_append_right _ (List.mem_singleton.mpr rfl), he⟩
  have hw := h.waiting
  rw [hper] at hw
  refine ⟨hw.mono rfl rfl hgrow ?_, ?_, ?_⟩
  · exact List.forall_mem_append.2
      ⟨fun e he => Or.inl (List.mem_append_left _ he), fun e he => Or.inr (hseg e he)⟩
  · rintro t ht - u hu
    cases ht
    exact (h.acked _ hper ⟨by simp, by simp⟩ u hu).mono (fun e he _ => Or.inr (hseg e he)) hgrow
  · intro u hu
    exact (h.completed u hu).mono (fun e he _ => absurd he List.not_mem_nil) hgrow

theorem inv_finish_failed {acked : List CommitUnit} {segment : List Entry} (h : Inv s)
    (hper : s.persist = some ⟨acked, .running segment⟩) (hne : outcome ≠ .ok)
    (halone : ∀ e ∈ segment, e.unit ∉ waitingIds s) :
    Inv { s with persist := some ⟨acked, .finished outcome⟩ } := by
  have hw := h.waiting
  rw [hper] at hw
  -- The lost segment covered nothing of a unit that waits.
  have hlive : ∀ {u : CommitUnit} {n : Nat}, u.id ∈ waitingIds s →
      Covered s.persisted (s.live ++ segment) u n → Covered s.persisted (s.live ++ []) u n := by
    intro u n hu hc
    refine hc.mono (fun e he heu => Or.inl ?_) (fun _ hm => hm)
    rcases List.mem_append.mp he with he | he
    · exact List.mem_append_left _ he
    · exact absurd (heu ▸ hu) (halone e he)
  refine ⟨⟨?_, ?_⟩, ?_, h.completed⟩
  · intro u i hpc
    exact hlive (by simp [waitingIds, show s.pc = _ from hpc]) (hw.appending u i hpc)
  · intro u hu
    exact hlive (mem_waitingIds_of_pending hu) (hw.pending u hu)
  · rintro t ht ⟨herr, hpanic⟩ u -
    cases ht
    cases outcome <;> simp at hne herr hpanic

theorem inv_finish (h : Inv s) (hok : FailsAlone s (.finish outcome))
    (hs : finish s outcome = some s') : Inv s' := by
  unfold finish at hs
  split at hs
  · rename_i acked segment hper
    cases hs
    by_cases ho : outcome = .ok
    · subst ho
      exact inv_finish_ok h hper
    · rw [if_neg ho]
      have halone := hok.resolve_left ho
      rw [hper] at halone
      exact inv_finish_failed h hper ho halone
  · cases hs

theorem inv_init : Inv init :=
  ⟨⟨nofun, nofun⟩, nofun, nofun⟩

theorem inv_step {l : Lbl} (h : Inv s) (hok : FailsAlone s l) (hs : step s l = some s') :
    Inv s' := by
  cases step_cases hs with
  | send _ | close => exact ⟨⟨h.waiting.appending, h.waiting.pending⟩, h.acked, h.completed⟩
  | recv _ hs => exact inv_recv h hs
  | append hpc hs => exact inv_append h hpc hs
  | queueAck hpc hs => exact inv_queueAck h hpc hs
  | join hs => exact inv_join h hs
  | timer _ _ _ => exact inv_tryStartPersist h
  | take hs => exact inv_take h hs
  | finish hs => exact inv_finish h hok hs

/-- In every run in which a persist fails only with segments that hold no batch
of a unit waiting for a later persist, a unit completed with Ok has every
non-empty batch in a segment whose persist returned Ok. -/
theorem completed_ok_persisted (s : St) (hr : (lts.restrict FailsAlone).Reachable s)
    (u : CommitUnit) (hu : (u, true) ∈ s.completed) (i : Nat) (b : Batch)
    (hb : u.batches[i]? = some b) (hrows : b.rows ≠ []) :
    ∃ segment ∈ s.persisted, ⟨u.id, i, b⟩ ∈ segment := by
  have hinv : (lts.restrict FailsAlone).Inductive Inv :=
    { init := by intro s hs; cases hs; exact inv_init
      step := by intro s l s' h hs; exact inv_step h hs.1 hs.2 }
  have hlt : i < u.batches.length := (List.getElem?_eq_some_iff.mp hb).1
  rcases (hinv.reachable s hr).completed u hu i b hlt hb hrows with hmem | hdone
  · cases hmem
  · exact hdone

/-- Unit 0 is appended and a persist for it starts; unit 1 is appended before
that persist takes the live segment. -/
def overtakingRun : List Lbl :=
  [.send (.submit [⟨[10], 1⟩]), .send (.submit [⟨[11], 1⟩]), .recv, .append true, .queueAck,
    .recv, .append true, .queueAck, .take]

theorem completed_ok_persisted_overtaking :
    let s := (exec (guarded FailsAlone step) init
      (overtakingRun ++ [.finish .ok, .join, .take, .join])).get (by decide +kernel)
    (⟨1, [⟨[11], 1⟩]⟩, true) ∈ s.completed ∧
      ∃ segment ∈ s.persisted, ⟨1, 0, ⟨[11], 1⟩⟩ ∈ segment := by
  intro s
  have hdone : (⟨1, [⟨[11], 1⟩]⟩, true) ∈ s.completed := by decide +kernel
  refine ⟨hdone, completed_ok_persisted s ?_ ⟨1, [⟨[11], 1⟩]⟩ hdone 0 ⟨[11], 1⟩ rfl (by decide)⟩
  exact restrict_reachable_of_exec rfl (Option.some_get _).symm

/-- The persist fails after it has taken unit 1's batch. The next persist finds
an empty live segment, returns Ok, and unit 1 is completed with Ok though no
segment holds its row. -/
theorem failed_persist_acks_later_unit :
    ∃ s, lts.Reachable s ∧ (⟨1, [⟨[11], 1⟩]⟩, true) ∈ s.completed ∧ s.persisted = [] :=
  exists_reachable (overtakingRun ++ [.finish .err, .join, .take, .join]) rfl (by decide +kernel)

end Skippr.L3.Writer
