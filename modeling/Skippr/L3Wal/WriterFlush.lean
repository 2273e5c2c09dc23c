import Skippr.L3Wal.Writer

/-!
# What a Flush waits for

The rows the writer holds are in the channel, in the batches still to be
appended, in the live segment or in the segment a persist has taken; a step
moves them along until they are durable, if no append and no persist fails.
-/
namespace Skippr.L3.Writer

def rowsOf (batches : List Batch) : List Nat := batches.flatMap (·.rows)

def entryRows (entries : List Entry) : List Nat := entries.flatMap (·.batch.rows)

def Cmd.rows : Cmd → List Nat
  | .submit batches => rowsOf batches
  | .flush => []

def Pc.rows : Pc → List Nat
  | .appending u i => rowsOf (u.batches.drop i)
  | _ => []

def durableRows (s : St) : List Nat := s.persisted.flatMap entryRows

def Keeps (s : St) (r : Nat) : Prop :=
  r ∈ s.queue.flatMap Cmd.rows ∨ r ∈ s.pc.rows ∨ r ∈ entryRows s.live ∨
    r ∈ entryRows (inFlight s.persist) ∨ r ∈ durableRows s

/-- The steps of the writer and its persist task, as opposed to its clients'. -/
def Lbl.Internal : Lbl → Prop
  | .send _ => False
  | .close => False
  | _ => True

instance : DecidablePred Lbl.Internal
  | .send _ | .close => .isFalse id
  | .recv | .append _ | .queueAck | .join | .timer | .take | .finish _ => .isTrue trivial

def Lbl.Succeeds : Lbl → Prop
  | .append ok => ok = true
  | .finish outcome => outcome = .ok
  | _ => True

instance : DecidablePred Lbl.Succeeds
  | .append ok => inferInstanceAs (Decidable (ok = true))
  | .finish outcome => inferInstanceAs (Decidable (outcome = .ok))
  | .send _ | .close | .recv | .queueAck | .join | .timer | .take => .isTrue trivial

/-! ## Rows stay -/

theorem tryStartPersist_cases (s : St) :
    tryStartPersist s = s ∨ s.persist = none ∧
      tryStartPersist s = { s with persist := some ⟨s.pendingAcks, .spawned⟩, pendingAcks := [] } := by
  unfold tryStartPersist
  split
  · exact .inl rfl
  rename_i hnone
  split
  · exact .inl rfl
  split
  · exact .inl rfl
  · exact .inr ⟨by simpa using hnone, rfl⟩

variable {s s' : St} {r i : Nat} {u : CommitUnit} {l : Lbl}

theorem Keeps.tryStart (h : Keeps s r) : Keeps (tryStartPersist s) r := by
  rcases tryStartPersist_cases s with he | ⟨hnone, he⟩
  · rw [he]; exact h
  · rw [he]
    unfold Keeps at h ⊢
    rw [hnone] at h
    exact h

theorem joinPersist_cases (h : joinPersist s = some s') :
    (s' = s ∧ s.persist = none) ∨ ∃ t outcome, s.persist = some t ∧ t.phase = .finished outcome ∧
      s' = applyPersistResult { s with persist := none } t outcome := by
  unfold joinPersist at h
  split at h
  · rename_i hnone
    cases h
    exact .inl ⟨rfl, hnone⟩
  rename_i t ht
  split at h
  · rename_i outcome hp
    cases h
    exact .inr ⟨t, outcome, ht, hp, rfl⟩
  · cases h

/-- What `join_persist` leaves alone. The persist is gone afterwards. -/
structure Joined (s s' : St) : Prop where
  queue : s'.queue = s.queue
  pc : s'.pc = s.pc
  live : s'.live = s.live
  none : s'.persist = none
  inFlight : inFlight s.persist = []
  notSpawned : ∀ acked, s.persist ≠ some ⟨acked, .spawned⟩
  persisted : s'.persisted = s.persisted
  pendingAcks : s'.pendingAcks = s.pendingAcks
  pendingOffsets : s'.pendingOffsets = s.pendingOffsets
  closed : s'.closed = s.closed
  flushed : s'.flushed = s.flushed

theorem joined_of_joinPersist (h : joinPersist s = some s') : Joined s s' := by
  rcases joinPersist_cases h with ⟨rfl, hnone⟩ | ⟨t, outcome, ht, hp, rfl⟩
  · exact ⟨rfl, rfl, rfl, hnone, by rw [hnone]; rfl, by simp [hnone], rfl, rfl, rfl, rfl, rfl⟩
  · have hflight : inFlight s.persist = [] := by
      rw [ht]
      exact inFlight_of_finished hp
    have hnot : ∀ acked, s.persist ≠ some ⟨acked, .spawned⟩ := by
      intro acked hacked
      rw [ht] at hacked
      cases hacked
      cases hp
    cases outcome <;> exact ⟨rfl, rfl, rfl, rfl, hflight, hnot, rfl, rfl, rfl, rfl, rfl⟩

theorem Keeps.joined (h : Keeps s r) (hj : Joined s s') : Keeps s' r := by
  unfold Keeps durableRows at h ⊢
  rw [hj.queue, hj.pc, hj.live, hj.none, hj.persisted]
  rw [hj.inFlight] at h
  exact h

theorem Keeps.leave (h : Keeps s r) (h0 : s.pc.rows = []) (hqueue : s'.queue = s.queue)
    (hlive : s'.live = s.live) (hper : s'.persist = s.persist) (hdone : s'.persisted = s.persisted) :
    Keeps s' r := by
  unfold Keeps durableRows at h ⊢
  rw [hqueue, hlive, hper, hdone]
  rw [h0] at h
  rcases h with h | hnil | h
  · exact .inl h
  · cases hnil
  · exact .inr (.inr h)

@[simp]
theorem tryStartPersist_pc (s : St) : (tryStartPersist s).pc = s.pc := by
  rcases tryStartPersist_cases s with he | ⟨-, he⟩ <;> rw [he]

@[simp]
theorem tryStartPersist_queue (s : St) : (tryStartPersist s).queue = s.queue := by
  rcases tryStartPersist_cases s with he | ⟨-, he⟩ <;> rw [he]

@[simp]
theorem tryStartPersist_flushed (s : St) : (tryStartPersist s).flushed = s.flushed := by
  rcases tryStartPersist_cases s with he | ⟨-, he⟩ <;> rw [he]

@[simp]
theorem tryStartPersist_closed (s : St) : (tryStartPersist s).closed = s.closed := by
  rcases tryStartPersist_cases s with he | ⟨-, he⟩ <;> rw [he]

theorem keeps_recv (h : Keeps s r) (hpc : s.pc = .idle) (hs : recv s = some s') : Keeps s' r := by
  unfold Keeps at h
  rw [hpc] at h
  unfold recv at hs
  split at hs
  · rename_i batches rest hq
    rw [hq, List.flatMap_cons, List.mem_append] at h
    cases hs
    rcases h with (hsub | hrest) | hnil | h
    · exact .inr (.inl hsub)
    · exact .inl hrest
    · cases hnil
    · exact .inr (.inr h)
  · rename_i rest hq
    rw [hq, List.flatMap_cons, List.mem_append] at h
    cases hs
    rcases h with (hnil | hrest) | h
    · cases hnil
    · exact .inl hrest
    · exact .inr h
  · obtain ⟨-, rfl⟩ := of_guard hs
    exact h

theorem keeps_append (h : Keeps s r) (hpc : s.pc = .appending u i)
    (hs : append s u i true = some s') : Keeps s' r := by
  unfold append at hs
  split at hs
  · cases hs
  rename_i b hb
  obtain ⟨hi, hget⟩ := List.getElem?_eq_some_iff.mp hb
  -- The head of the batches still to be appended is `b`.
  have hdrop : rowsOf (u.batches.drop i) = b.rows ++ rowsOf (u.batches.drop (i + 1)) := by
    rw [List.drop_eq_getElem_cons hi, hget, rowsOf, List.flatMap_cons, rowsOf]
  unfold Keeps at h
  rw [hpc] at h
  simp only [Pc.rows, hdrop, List.mem_append] at h
  split at hs
  · rename_i hempty
    cases hs
    rcases h with h | (hb | hrest) | h
    · exact .inl h
    · rw [hempty] at hb
      cases hb
    · exact .inr (.inl hrest)
    · exact .inr (.inr h)
  · rw [if_pos rfl] at hs
    cases hs
    have hlive : entryRows (s.live ++ [⟨u.id, i, b⟩]) = entryRows s.live ++ b.rows := by
      simp [entryRows]
    unfold Keeps
    rw [hlive, List.mem_append]
    rcases h with h | (hb | hrest) | h | h
    · exact .inl h
    · exact .inr (.inr (.inl (.inr hb)))
    · exact .inr (.inl hrest)
    · exact .inr (.inr (.inl (.inl h)))
    · exact .inr (.inr (.inr h))

theorem keeps_queueAck (h : Keeps s r) (hpc : s.pc = .appending u i) (hs : queueAck s u i = some s') :
    Keeps s' r := by
  obtain ⟨hlen, rfl⟩ := of_guard hs
  apply Keeps.tryStart
  unfold Keeps at h
  rw [hpc] at h
  simp only [Pc.rows, hlen, List.drop_length] at h
  exact h

theorem keeps_join (h : Keeps s r) (hs : join s = some s') : Keeps s' r := by
  unfold join at hs
  split at hs
  · split at hs
    · obtain ⟨s1, h1, rfl⟩ := Option.map_eq_some_iff.mp hs
      exact (h.joined (joined_of_joinPersist h1)).tryStart
    · cases hs
  all_goals first
    | cases hs
    | rename_i hpc
      obtain ⟨s1, h1, rfl⟩ := Option.map_eq_some_iff.mp hs
      have hj := joined_of_joinPersist h1
      have hrows : s1.pc.rows = [] := by rw [hj.pc, hpc]; rfl
      first
        | exact (h.joined hj).leave hrows rfl rfl rfl rfl
        | refine (h.joined hj).tryStart.leave ?_ rfl rfl rfl rfl
          rw [tryStartPersist_pc, hrows]

theorem keeps_take (h : Keeps s r) (hs : take s = some s') : Keeps s' r := by
  unfold take at hs
  split at hs
  · rename_i acked hper
    unfold Keeps at h
    rw [hper] at h
    split at hs
    · cases hs
      exact h
    · cases hs
      rcases h with h | h | hlive | hnil | h
      · exact .inl h
      · exact .inr (.inl h)
      · exact .inr (.inr (.inr (.inl hlive)))
      · cases hnil
      · exact .inr (.inr (.inr (.inr h)))
  · cases hs

theorem keeps_finish (h : Keeps s r) (hs : finish s .ok = some s') : Keeps s' r := by
  unfold finish at hs
  split at hs
  · rename_i acked segment hper
    unfold Keeps at h
    rw [hper] at h
    cases hs
    have hdur : durableRows { s with
        persist := some ⟨acked, .finished .ok⟩
        persisted := s.persisted ++ [segment] } = durableRows s ++ entryRows segment := by
      simp [durableRows]
    unfold Keeps
    rw [if_pos rfl, hdur, List.mem_append]
    rcases h with h | h | h | hseg | h
    · exact .inl h
    · exact .inr (.inl h)
    · exact .inr (.inr (.inl h))
    · exact .inr (.inr (.inr (.inr (.inr hseg))))
    · exact .inr (.inr (.inr (.inr (.inl h))))
  · cases hs

theorem Keeps.step (h : Keeps s r) (hok : l.Succeeds) (hs : step s l = some s') : Keeps s' r := by
  cases step_cases hs with
  | send _ =>
    rcases h with h | h
    · refine .inl ?_
      rw [List.flatMap_append]
      exact List.mem_append_left _ h
    · exact .inr h
  | close => exact h
  | recv hpc hs => exact keeps_recv h hpc hs
  | append hpc hs => cases hok; exact keeps_append h hpc hs
  | queueAck hpc hs => exact keeps_queueAck h hpc hs
  | join hs => exact keeps_join h hs
  | timer _ _ _ => exact h.tryStart
  | take hs => exact keeps_take h hs
  | finish hs => cases hok; exact keeps_finish h hs

/-! ## Flush -/

structure Quiet (s : St) : Prop where
  queue : s.queue = []
  pc : s.pc = .idle
  persist : s.persist = none
  pendingAcks : s.pendingAcks = []
  live : s.live = []

theorem Quiet.durable_of_keeps (h : Quiet s) (hk : Keeps s r) : r ∈ durableRows s := by
  unfold Keeps at hk
  rw [h.queue, h.pc, h.live, h.persist] at hk
  rcases hk with hk | hk | hk | hk | hk
  · cases hk
  · cases hk
  · cases hk
  · cases hk
  · exact hk

theorem Quiet.step_eq_none (h : Quiet s) (hopen : s.closed = false) (hl : l.Internal) :
    step s l = none := by
  cases l with
  | send cmd | close => exact hl.elim
  | recv => simp [step, h.pc, recv, h.queue, hopen]
  | append ok | queueAck => simp [step, h.pc]
  | join => simp [step, join, h.pc, h.persist]
  | timer => simp [step, h.pendingAcks]
  | take => simp [step, take, h.persist]
  | finish outcome => simp [step, finish, h.persist]

/-- A live segment that is not empty has an ack waiting for it, so that a flush
starts a persist. -/
def Owned (s : St) : Prop :=
  s.live = [] ∨ s.pendingAcks ≠ [] ∨ (∃ u i, s.pc = .appending u i) ∨
    ∃ acked, s.persist = some ⟨acked, .spawned⟩

theorem Owned.tryStart (h : Owned s) : Owned (tryStartPersist s) := by
  rcases tryStartPersist_cases s with he | ⟨-, he⟩
  · rw [he]; exact h
  · rw [he]; exact .inr (.inr (.inr ⟨s.pendingAcks, rfl⟩))

theorem Owned.joined (h : Owned s) (hj : Joined s s') : Owned s' := by
  unfold Owned at h ⊢
  rw [hj.live, hj.pendingAcks, hj.pc]
  rcases h with h | h | h | ⟨acked, h⟩
  · exact .inl h
  · exact .inr (.inl h)
  · exact .inr (.inr (.inl h))
  · exact absurd h (hj.notSpawned acked)

theorem Owned.leave (h : Owned s) (hpc : ∀ u i, s.pc ≠ .appending u i) (hlive : s'.live = s.live)
    (hack : s'.pendingAcks = s.pendingAcks) (hper : s'.persist = s.persist) : Owned s' := by
  unfold Owned at h ⊢
  rw [hlive, hack, hper]
  rcases h with h | h | ⟨u, i, h⟩ | h
  · exact .inl h
  · exact .inr (.inl h)
  · exact absurd h (hpc u i)
  · exact .inr (.inr (.inr h))

theorem owned_recv (h : Owned s) (hpc : s.pc = .idle) (hs : recv s = some s') : Owned s' := by
  unfold recv at hs
  split at hs
  · cases hs
    exact .inr (.inr (.inl ⟨_, _, rfl⟩))
  · cases hs
    exact h.leave (by simp [hpc]) rfl rfl rfl
  · obtain ⟨-, rfl⟩ := of_guard hs
    exact h.leave (by simp [hpc]) rfl rfl rfl

theorem owned_append (hs : append s u i true = some s') : Owned s' := by
  unfold append at hs
  split at hs
  · cases hs
  split at hs
  · cases hs
    exact .inr (.inr (.inl ⟨_, _, rfl⟩))
  · rw [if_pos rfl] at hs
    cases hs
    exact .inr (.inr (.inl ⟨_, _, rfl⟩))

theorem owned_join (h : Owned s) (hs : join s = some s') : Owned s' := by
  unfold join at hs
  split at hs
  · split at hs
    · obtain ⟨s1, h1, rfl⟩ := Option.map_eq_some_iff.mp hs
      exact (h.joined (joined_of_joinPersist h1)).tryStart
    · cases hs
  all_goals first
    | cases hs
    | rename_i hpc
      obtain ⟨s1, h1, rfl⟩ := Option.map_eq_some_iff.mp hs
      have hj := joined_of_joinPersist h1
      have hout : ∀ u i, s1.pc ≠ .appending u i := by simp [hj.pc, hpc]
      first
        | exact (h.joined hj).leave hout rfl rfl rfl
        | refine (h.joined hj).tryStart.leave ?_ rfl rfl rfl
          rw [tryStartPersist_pc]
          exact hout

theorem owned_take (hs : take s = some s') : Owned s' := by
  unfold take at hs
  split at hs
  · split at hs
    · rename_i hlive
      cases hs
      exact .inl hlive
    · cases hs
      exact .inl rfl
  · cases hs

theorem owned_finish {outcome : Outcome} (h : Owned s) (hs : finish s outcome = some s') :
    Owned s' := by
  unfold finish at hs
  split at hs
  · rename_i acked segment hper
    cases hs
    rcases h with h | h | h | ⟨acked', h⟩
    · exact .inl h
    · exact .inr (.inl h)
    · exact .inr (.inr (.inl h))
    · rw [hper] at h
      cases h
  · cases hs

theorem Owned.step (h : Owned s) (hok : l.Succeeds) (hs : step s l = some s') : Owned s' := by
  cases step_cases hs with
  | send _ | close => exact h
  | recv hpc hs => exact owned_recv h hpc hs
  | append _ hs => cases hok; exact owned_append hs
  | queueAck _ hs =>
    obtain ⟨-, rfl⟩ := of_guard hs
    exact Owned.tryStart (.inr (.inl (by simp)))
  | join hs => exact owned_join h hs
  | timer _ _ _ => exact h.tryStart
  | take hs => exact owned_take hs
  | finish hs => exact owned_finish h hs

def Pc.Receiving : Pc → Prop
  | .idle => True
  | .appending _ _ => True
  | _ => False

structure Receiving (s : St) (n : Nat) : Prop where
  flushed : s.flushed = n
  submits : ∀ cmd ∈ s.queue, cmd ≠ .flush
  pc : s.pc.Receiving

inductive FlushPhase (s : St) (n : Nat) : Prop
  | queued (units : List (List Batch)) : s.queue = units.map .submit ++ [.flush] →
      s.pc.Receiving → s.flushed + 1 = n → FlushPhase s n
  | joining : s.queue = [] → s.pc = .flushing false → s.pendingOffsets = true →
      s.flushed + 1 = n → FlushPhase s n
  | writing : s.queue = [] → s.pc = .flushing true → s.pendingAcks = [] →
      (s.live = [] ∨ ∃ acked, s.persist = some ⟨acked, .spawned⟩) → s.flushed + 1 = n →
      FlushPhase s n
  | answered : Quiet s → s.flushed = n → FlushPhase s n

structure TaskStep (s s' : St) : Prop where
  queue : s'.queue = s.queue
  pc : s'.pc = s.pc
  pendingAcks : s'.pendingAcks = s.pendingAcks
  pendingOffsets : s'.pendingOffsets = s.pendingOffsets
  closed : s'.closed = s.closed
  flushed : s'.flushed = s.flushed
  live : (s.live = [] ∨ ∃ acked, s.persist = some ⟨acked, .spawned⟩) → s'.live = []

theorem taskStep_take (hs : take s = some s') : TaskStep s s' := by
  unfold take at hs
  split at hs
  · split at hs
    · rename_i hlive
      cases hs
      exact ⟨rfl, rfl, rfl, rfl, rfl, rfl, fun _ => hlive⟩
    · cases hs
      exact ⟨rfl, rfl, rfl, rfl, rfl, rfl, fun _ => rfl⟩
  · cases hs

theorem taskStep_finish {outcome : Outcome} (hs : finish s outcome = some s') : TaskStep s s' := by
  unfold finish at hs
  split at hs
  · rename_i acked segment hper
    cases hs
    refine ⟨rfl, rfl, rfl, rfl, rfl, rfl, ?_⟩
    rintro (hlive | ⟨acked', hsp⟩)
    · exact hlive
    · rw [hper] at hsp
      cases hsp
  · cases hs

theorem closed_step (hl : l.Internal) (hs : step s l = some s') : s'.closed = s.closed := by
  cases step_cases hs with
  | send _ | close => exact hl.elim
  | recv _ hs =>
    unfold recv at hs
    split at hs
    · cases hs; rfl
    · cases hs; rfl
    · split at hs
      · cases hs; rfl
      · cases hs
  | append _ hs =>
    unfold append at hs
    split at hs
    · cases hs
    split at hs
    · cases hs; rfl
    split at hs
    · cases hs; rfl
    · cases hs; rw [tryStartPersist_closed]
  | queueAck _ hs =>
    unfold queueAck at hs
    split at hs
    · cases hs; rw [tryStartPersist_closed]
    · cases hs
  | join hs =>
    unfold join at hs
    split at hs
    · split at hs
      · obtain ⟨s1, h1, rfl⟩ := Option.map_eq_some_iff.mp hs
        rw [tryStartPersist_closed, (joined_of_joinPersist h1).closed]
      · cases hs
    all_goals first
      | cases hs
      | obtain ⟨s1, h1, rfl⟩ := Option.map_eq_some_iff.mp hs
        simp only [tryStartPersist_closed, (joined_of_joinPersist h1).closed]
  | timer _ _ _ => rw [tryStartPersist_closed]
  | take hs => exact (taskStep_take hs).closed
  | finish hs => exact (taskStep_finish hs).closed

theorem receiving_step (hpc : s.pc.Receiving) (hopen : s.closed = false) (hl : l.Internal)
    (hs : step s l = some s') :
    s'.flushed = s.flushed ∧
      ((s'.queue = s.queue ∧ s'.pc.Receiving) ∨
       (∃ batches, s.queue = .submit batches :: s'.queue ∧ s'.pc.Receiving) ∨
       (s.queue = .flush :: s'.queue ∧ s'.pc = .flushing false ∧ s'.pendingOffsets = true)) := by
  cases step_cases hs with
  | send _ | close => exact hl.elim
  | recv _ hs =>
    unfold recv at hs
    split at hs
    · rename_i batches rest hq
      cases hs
      exact ⟨rfl, .inr (.inl ⟨batches, hq, trivial⟩)⟩
    · rename_i rest hq
      cases hs
      exact ⟨rfl, .inr (.inr ⟨hq, rfl, rfl⟩)⟩
    · rw [hopen] at hs
      cases hs
  | append _ hs =>
    unfold append at hs
    split at hs
    · cases hs
    split at hs
    · cases hs; exact ⟨rfl, .inl ⟨rfl, trivial⟩⟩
    split at hs
    · cases hs; exact ⟨rfl, .inl ⟨rfl, trivial⟩⟩
    · cases hs
      refine ⟨tryStartPersist_flushed _, .inl ⟨tryStartPersist_queue _, ?_⟩⟩
      rw [tryStartPersist_pc]
      trivial
  | queueAck _ hs =>
    obtain ⟨-, rfl⟩ := of_guard hs
    refine ⟨tryStartPersist_flushed _, .inl ⟨tryStartPersist_queue _, ?_⟩⟩
    rw [tryStartPersist_pc]
    trivial
  | join hs =>
    unfold join at hs
    split at hs
    · split at hs
      · obtain ⟨s1, h1, rfl⟩ := Option.map_eq_some_iff.mp hs
        have hj := joined_of_joinPersist h1
        refine ⟨(tryStartPersist_flushed _).trans hj.flushed,
          .inl ⟨(tryStartPersist_queue _).trans hj.queue, ?_⟩⟩
        rw [tryStartPersist_pc, hj.pc]
        exact hpc
      · cases hs
    all_goals first
      | cases hs
      | rename_i hpc'
        rw [hpc'] at hpc
        exact hpc.elim
  | timer _ _ _ =>
    refine ⟨tryStartPersist_flushed _, .inl ⟨tryStartPersist_queue _, ?_⟩⟩
    rw [tryStartPersist_pc]
    exact hpc
  | take hs =>
    have ht := taskStep_take hs
    exact ⟨ht.flushed, .inl ⟨ht.queue, ht.pc ▸ hpc⟩⟩
  | finish hs =>
    have ht := taskStep_finish hs
    exact ⟨ht.flushed, .inl ⟨ht.queue, ht.pc ▸ hpc⟩⟩

theorem Receiving.step {n : Nat} (h : Receiving s n) (hopen : s.closed = false) (hl : l.Internal)
    (hs : step s l = some s') : Receiving s' n := by
  obtain ⟨hfl, ⟨hq, hpc⟩ | ⟨batches, hq, hpc⟩ | ⟨hq, -, -⟩⟩ := receiving_step h.pc hopen hl hs
  · exact ⟨hfl.trans h.flushed, hq ▸ h.submits, hpc⟩
  · refine ⟨hfl.trans h.flushed, fun cmd hc => h.submits cmd ?_, hpc⟩
    rw [hq]
    exact List.mem_cons_of_mem _ hc
  · exact absurd rfl (h.submits .flush (by rw [hq]; exact List.mem_cons_self))

theorem flushing_step {second : Bool} (hpc : s.pc = .flushing second) (hl : l.Internal)
    (hs : step s l = some s') : join s = some s' ∨ TaskStep s s' := by
  cases step_cases hs with
  | send _ | close => exact hl.elim
  | recv hpc' _ | append hpc' _ | queueAck hpc' _ | timer hpc' _ _ => rw [hpc] at hpc'; cases hpc'
  | join hs => exact .inl hs
  | take hs => exact .inr (taskStep_take hs)
  | finish hs => exact .inr (taskStep_finish hs)

theorem tryStartPersist_flush (h : Owned s) (hnone : s.persist = none)
    (hpc : ∀ u i, s.pc ≠ .appending u i) (hoff : s.pendingOffsets = true) :
    (tryStartPersist s).pendingAcks = [] ∧ ((tryStartPersist s).live = [] ∨
      ∃ acked, (tryStartPersist s).persist = some ⟨acked, .spawned⟩) := by
  unfold tryStartPersist
  rw [hnone, if_neg (by simp)]
  split
  · rename_i hempty
    refine ⟨hempty.1, .inl ?_⟩
    rcases h with h | h | ⟨u, i, h⟩ | ⟨acked, h⟩
    · exact h
    · exact absurd hempty.1 h
    · exact absurd h (hpc u i)
    · rw [hnone] at h
      cases h
  · rw [if_neg (by simp [hoff])]
    exact ⟨rfl, .inr ⟨_, rfl⟩⟩

theorem FlushPhase.step {n : Nat} (h : FlushPhase s n) (ho : Owned s) (hopen : s.closed = false)
    (hl : l.Internal) (hs : step s l = some s') : FlushPhase s' n := by
  cases h with
  | queued units hq hpc hn =>
    obtain ⟨hfl, ⟨hq', hpc'⟩ | ⟨batches, hq', hpc'⟩ | ⟨hq', hpc', hoff⟩⟩ :=
      receiving_step hpc hopen hl hs
    · exact .queued units (hq'.trans hq) hpc' (by omega)
    · cases units with
      | nil => rw [hq] at hq'; cases hq'
      | cons u us =>
        rw [hq] at hq'
        exact .queued us (List.cons.inj hq').2.symm hpc' (by omega)
    · cases units with
      | nil =>
        rw [hq] at hq'
        exact .joining (List.cons.inj hq').2.symm hpc' hoff (by omega)
      | cons u us => rw [hq] at hq'; cases hq'
  | joining hq hpc hoff hn =>
    rcases flushing_step hpc hl hs with hj | ht
    · unfold join at hj
      rw [hpc] at hj
      obtain ⟨s1, h1, rfl⟩ := Option.map_eq_some_iff.mp hj
      have hj := joined_of_joinPersist h1
      have hpc1 : ∀ u i, s1.pc ≠ .appending u i := by simp [hj.pc, hpc]
      obtain ⟨hack, hlive⟩ := tryStartPersist_flush (ho.joined hj) hj.none hpc1
        (hj.pendingOffsets.trans hoff)
      refine .writing ?_ rfl hack hlive ?_
      · simp [hj.queue, hq]
      · simp [hj.flushed, hn]
    · exact .joining (ht.queue.trans hq) (ht.pc.trans hpc) (ht.pendingOffsets.trans hoff)
        (by rw [ht.flushed]; exact hn)
  | writing hq hpc hack hlive hn =>
    rcases flushing_step hpc hl hs with hj | ht
    · unfold join at hj
      rw [hpc] at hj
      obtain ⟨s1, h1, rfl⟩ := Option.map_eq_some_iff.mp hj
      have hj := joined_of_joinPersist h1
      have hlive : s.live = [] := hlive.resolve_right fun ⟨acked, hsp⟩ => hj.notSpawned acked hsp
      refine .answered ⟨hj.queue.trans hq, rfl, hj.none, hj.pendingAcks.trans hack,
        hj.live.trans hlive⟩ ?_
      simp [hj.flushed, hn]
    · exact .writing (ht.queue.trans hq) (ht.pc.trans hpc) (ht.pendingAcks.trans hack)
        (.inl (ht.live hlive)) (by rw [ht.flushed]; exact hn)
  | answered hquiet _ =>
    rw [hquiet.step_eq_none hopen hl] at hs
    cases hs

end Skippr.L3.Writer
