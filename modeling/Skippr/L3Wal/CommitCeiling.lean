import Skippr.L3Wal.WalHandlePublish

/-!
# The unpublished-commit ceiling

`commit_new_segment` and `commit_control_row` refuse to commit when
`max_committed - max_published` has reached the ceiling. Both counters start at
0 with the handle, while the seqs go on from the stored Seq; `max_published` is
the seq of the publish that finished last, not the greatest.

The commit of a call is taken apart here: under the catalog mutex it checks the
ceiling, commits, and records its seq in `max_committed`, and other calls
publish in between.
-/
namespace Skippr.L3.Handle.Ceiling

open Skippr.L2

structure Locked where
  call : Nat
  committed : Option Nat
deriving DecidableEq, Repr

structure St where
  handle : Handle.St
  lock : Option Locked
  opened : Nat
  commits : List Nat
  /-- The seqs for which a `publish_seq` of the handle has returned Ok. -/
  published : List Nat

inductive Lbl
  | check (n : Nat)
  | commit (n : Nat)
  | record (n : Nat)
  | handle (l : Handle.Lbl)
deriving DecidableEq

/-- A call that waits to commit, with the version its lookup found. -/
def committing (s : Handle.St) (n : Nat) : Option (Call × Option Nat) :=
  (s.calls.get n).bind fun c =>
    match c.pc with
    | .committing version => some (c, version)
    | _ => none

def finished (s : Handle.St) : Handle.Lbl → Option Nat
  | .publish n =>
    (s.calls.get n).bind fun c =>
      match c.pc with
      | .publishing seq [] => some seq
      | _ => none
  | _ => none

/-- mirrors src/buffer/wal_handle.rs:750-764 and 1017-1031 -/
def check (s : St) (n : Nat) : St :=
  if unpublishedCommitCeiling ≤ s.handle.maxCommitted - s.handle.maxPublished then
    { s with handle := s.handle.endCall n }
  else { s with lock := some ⟨n, none⟩ }

/-- mirrors wal_handle.rs:769-815 and 1032-1070 -/
def commitRow (s : St) (n : Nat) (c : Call) (version : Option Nat) : St :=
  match Handle.commit s.handle.catalog c.request version with
  | none => { s with handle := s.handle.endCall n, lock := none }
  | some catalog =>
    let history := ⟨catalog.maxSeq, c.request.entries⟩ :: s.handle.history
    { s with
      handle := { s.handle with catalog := catalog, history := history }
      lock := some ⟨n, some catalog.maxSeq⟩
      commits := catalog.maxSeq :: s.commits }

/-- mirrors wal_handle.rs:816-817 and 1071-1072 -/
def record (s : St) (n : Nat) (c : Call) (seq : Nat) : St :=
  let handle := s.handle.setPc n c (.publishing seq c.publishes)
  { s with handle := { handle with maxCommitted := seq }, lock := none }

/-- A process that ends takes its handle with it; a call that ends drops the
mutex it holds. -/
def other (s : St) (l : Handle.Lbl) (handle : Handle.St) : St :=
  match l with
  | .crash => ⟨handle, none, handle.catalog.maxSeq, [], []⟩
  | .fail n => { s with handle := handle, lock := s.lock.filter fun k => k.call ≠ n }
  | l => { s with handle := handle, published := (finished s.handle l).toList ++ s.published }

def next (s : St) : Lbl → Option St
  | .check n => if s.lock = none ∧ (committing s.handle n).isSome then some (check s n) else none
  | .commit n =>
    if s.lock = some ⟨n, none⟩ then
      (committing s.handle n).map fun p => commitRow s n p.1 p.2
    else none
  | .record n =>
    (s.lock.filter fun k => k.call = n).bind fun k =>
      k.committed.bind fun seq => (committing s.handle n).map fun p => record s n p.1 seq
  | .handle (.commit _) => none
  | .handle l => (Handle.step s.handle l).map (other s l)

/-- A handle that has taken no call, on any catalog and any offset store. -/
def Opened (s : St) : Prop :=
  s.handle.calls = ∅ ∧ s.handle.maxCommitted = 0 ∧ s.handle.maxPublished = 0 ∧ s.lock = none ∧
    s.opened = s.handle.catalog.maxSeq ∧ s.commits = [] ∧ s.published = []

def lts : LTS St Lbl := LTS.ofFn Opened next

/-! ## The commit as one step -/

theorem committing_eq_some {s : Handle.St} {n : Nat} {c : Call} {version : Option Nat} :
    committing s n = some (c, version) ↔ s.calls.get n = some c ∧ c.pc = .committing version := by
  unfold committing
  rw [Option.bind_eq_some_iff]
  constructor
  · rintro ⟨c', hc', h⟩
    split at h
    · rename_i version' hpc
      cases h
      exact ⟨hc', hpc⟩
    · cases h
  · rintro ⟨hc, hpc⟩
    exact ⟨c, hc, by rw [hpc]⟩

/-! ## Seqs and counters -/

/-- The commits the handle has made and not published. -/
def unpublished (s : St) : Finset Nat := s.commits.toFinset \ s.published.toFinset

/-- The handle has committed the seqs above the one it was opened on; the
counters bound what it has recorded and what it has published. -/
structure Counted (s : St) : Prop where
  opened : s.opened ≤ s.handle.catalog.maxSeq
  commits : ∀ q, q ∈ s.commits ↔ s.opened < q ∧ q ≤ s.handle.catalog.maxSeq
  committed : s.handle.maxCommitted ≤ s.handle.catalog.maxSeq
  locked : ∀ k seq, s.lock = some k → k.committed = some seq → seq ≤ s.handle.catalog.maxSeq
  published : ∀ q ∈ s.published, q ≤ s.handle.maxPublished

/-- Publishes finish in the order of their seqs, and a handle that has committed
checks the ceiling once it has published a seq no less than the stored one it
was opened on. -/
def InOrder (s : St) : Lbl → Prop
  | .check _ => s.handle.maxCommitted = 0 ∨ s.opened ≤ s.handle.maxPublished
  | .handle l => ∀ seq ∈ finished s.handle l, s.handle.maxPublished ≤ seq
  | .commit _ => True
  | .record _ => True

instance (s : St) : DecidablePred (InOrder s)
  | .check _ => inferInstanceAs (Decidable (_ ∨ _))
  | .handle l => inferInstanceAs (Decidable (∀ seq ∈ finished s.handle l, _))
  | .commit _ => .isTrue trivial
  | .record _ => .isTrue trivial

/-- What a step of the handle other than a commit or a crash does to the catalog
and the counters. -/
structure Quiet (s s' : Handle.St) (done : Option Nat) : Prop where
  catalog : s'.catalog = s.catalog
  committed : s'.maxCommitted = s.maxCommitted
  published : s'.maxPublished = done.getD s.maxPublished

theorem quiet_publishStep {s : Handle.St} {n : Nat} {c : Call} {seq : Nat} {todo : List Entry}
    (hcall : s.calls.get n = some c) (hpc : c.pc = .publishing seq todo) :
    Quiet s (publishStep s n c seq todo) (finished s (.publish n)) := by
  unfold publishStep
  split
  · have hdone : finished s (.publish n) = some seq := by simp [finished, hcall, hpc]
    rw [hdone]
    exact ⟨rfl, rfl, rfl⟩
  · have hdone : finished s (.publish n) = none := by simp [finished, hcall, hpc]
    rw [hdone]
    split <;> exact ⟨rfl, rfl, rfl⟩

theorem quiet_replayStep {s s' : Handle.St} {todo : List (Nat × Entry)}
    (h : replayStep s todo = some s') : Quiet s s' none := by
  unfold replayStep at h
  split at h
  · cases h
  · split at h
    · cases h
      exact ⟨rfl, rfl, rfl⟩
    · cases h
      exact ⟨rfl, rfl, rfl⟩

theorem quiet_step {s s' : Handle.St} {l : Handle.Lbl} (h : Handle.step s l = some s')
    (hcommit : ∀ n, l ≠ .commit n) (hcrash : l ≠ .crash) : Quiet s s' (finished s l) := by
  cases l with
  | start n op =>
    simp only [Handle.step] at h
    split at h
    · obtain ⟨c, -, rfl⟩ := Option.map_eq_some_iff.1 h
      exact ⟨rfl, rfl, rfl⟩
    · cases h
  | lookup n =>
    simp only [Handle.step] at h
    split at h
    · obtain ⟨-, rfl⟩ := of_guard h
      unfold lookupStep
      split <;> exact ⟨rfl, rfl, rfl⟩
    · cases h
  | commit n => exact absurd rfl (hcommit n)
  | publish n =>
    simp only [Handle.step] at h
    split at h
    · rename_i c hc
      split at h
      · rename_i seq todo hpc
        cases h
        exact quiet_publishStep hc hpc
      · cases h
    · cases h
  | retry n =>
    simp only [Handle.step] at h
    split at h
    · split at h
      · cases h
        exact ⟨rfl, rfl, rfl⟩
      · cases h
    · cases h
  | fail n =>
    cases h
    exact ⟨rfl, rfl, rfl⟩
  | crash => exact absurd rfl hcrash
  | restart | ready =>
    obtain ⟨-, rfl⟩ := of_guard h
    exact ⟨rfl, rfl, rfl⟩
  | replay =>
    simp only [Handle.step] at h
    split at h
    · exact quiet_replayStep h
    · cases h

/-! ## The steps keep the count -/

section Steps
variable {s : St} {n : Nat}

theorem counted_check (h : Counted s) : Counted (check s n) := by
  unfold check
  split
  · exact ⟨h.opened, h.commits, h.committed, h.locked, h.published⟩
  · refine ⟨h.opened, h.commits, h.committed, ?_, h.published⟩
    intro k seq hk hseq
    cases hk
    cases hseq

theorem counted_commitRow {c : Call} {version : Option Nat} (h : Counted s) :
    Counted (commitRow s n c version) := by
  unfold commitRow
  split
  · refine ⟨h.opened, h.commits, h.committed, ?_, h.published⟩
    intro k seq hk
    cases hk
  · rename_i catalog hcommit
    have hmax : catalog.maxSeq = s.handle.catalog.maxSeq + 1 := (committed_of_commit hcommit).maxSeq
    have hopened := h.opened
    have hcommitted := h.committed
    refine ⟨by simp only; omega, ?_, by simp only; omega, ?_, h.published⟩
    · intro q
      simp only [List.mem_cons, h.commits q]
      omega
    · intro k seq hk hseq
      cases hk
      cases hseq
      exact Nat.le_refl _

theorem counted_other {l : Handle.Lbl} {handle : Handle.St} (h : Counted s)
    (hq : Quiet s.handle handle (finished s.handle l)) (hcrash : l ≠ .crash)
    (hok : InOrder s (.handle l)) : Counted (other s l handle) := by
  obtain ⟨hcatalog, hcommitted, hpublished⟩ := hq
  -- Only the list of published seqs and the mutex are left to look at.
  have hcount : ∀ lock published, (∀ k seq, lock = some k → k.committed = some seq →
      s.lock = some k) → (∀ q ∈ published, q ≤ handle.maxPublished) →
      Counted { s with handle := handle, lock := lock, published := published } := by
    intro lock published hlock hpub
    refine ⟨?_, ?_, ?_, ?_, hpub⟩
    · exact hcatalog ▸ h.opened
    · exact hcatalog ▸ h.commits
    · simp only [hcatalog, hcommitted]
      exact h.committed
    · intro k seq hk hseq
      simp only [hcatalog]
      exact h.locked k seq (hlock k seq hk hseq) hseq
  have hpub : ∀ q ∈ (finished s.handle l).toList ++ s.published, q ≤ handle.maxPublished := by
    intro q hq
    rw [hpublished]
    cases hdone : finished s.handle l with
    | none =>
      rw [hdone] at hq
      exact h.published q hq
    | some seq =>
      have hle : s.handle.maxPublished ≤ seq := hok seq hdone
      rw [hdone] at hq
      cases List.mem_cons.1 hq with
      | inl heq => exact Nat.le_of_eq heq
      | inr hmem => exact (h.published q hmem).trans hle
  unfold other
  split
  · exact absurd rfl hcrash
  · refine hcount _ _ ?_ (List.forall_mem_append.1 hpub).2
    intro k seq hk _
    exact (Option.filter_eq_some_iff.1 hk).1
  · exact hcount _ _ (fun k seq hk _ => hk) hpub

theorem counted_next {s' : St} {l : Lbl} (h : Counted s) (hok : InOrder s l)
    (hstep : next s l = some s') : Counted s' := by
  cases l with
  | check n =>
    obtain ⟨-, rfl⟩ := of_guard hstep
    exact counted_check h
  | commit n =>
    simp only [next] at hstep
    split at hstep
    · obtain ⟨p, -, rfl⟩ := Option.map_eq_some_iff.1 hstep
      exact counted_commitRow h
    · cases hstep
  | record n =>
    simp only [next] at hstep
    obtain ⟨k, hk, hstep⟩ := Option.bind_eq_some_iff.1 hstep
    obtain ⟨seq, hseq, hstep⟩ := Option.bind_eq_some_iff.1 hstep
    obtain ⟨p, -, rfl⟩ := Option.map_eq_some_iff.1 hstep
    refine ⟨h.opened, h.commits, h.locked k seq (Option.filter_eq_some_iff.1 hk).1 hseq, ?_, h.published⟩
    intro k' seq' hk'
    cases hk'
  | handle l =>
    by_cases hcommit : ∃ n, l = .commit n
    · obtain ⟨n, rfl⟩ := hcommit
      cases hstep
    · have hmap : (Handle.step s.handle l).map (other s l) = some s' := by
        cases l <;> first | exact hstep | exact absurd ⟨_, rfl⟩ hcommit
      obtain ⟨handle, hhandle, rfl⟩ := Option.map_eq_some_iff.1 hmap
      by_cases hcrash : l = .crash
      · -- A new handle starts the count at the stored Seq.
        subst hcrash
        cases hhandle
        refine ⟨Nat.le_refl _, ?_, Nat.zero_le _, ?_, ?_⟩
        · intro q
          simp only [other, List.not_mem_nil, false_iff]
          omega
        · intro k seq hk
          cases hk
        · intro q hq
          cases hq
      · exact counted_other h (quiet_step hhandle (fun n hn => hcommit ⟨n, hn⟩) hcrash) hcrash hok

theorem counted_inductive : (lts.restrict InOrder).Inductive Counted where
  init s hs := by
    obtain ⟨-, hcommitted, -, hlock, hopened, hcommits, hpublished⟩ := hs
    refine ⟨Nat.le_of_eq hopened, ?_, by omega, ?_, ?_⟩
    · intro q
      simp only [hcommits, hopened, List.not_mem_nil, false_iff]
      omega
    · intro k seq hk
      rw [hlock] at hk
      cases hk
    · intro q hq
      rw [hpublished] at hq
      cases hq
  step s l s' h hstep := counted_next h hstep.1 hstep.2

end Steps

/-! ## The ceiling -/

theorem Counted.card_unpublished {s : St} (h : Counted s)
    (hopened : s.opened ≤ s.handle.maxPublished) :
    s.handle.maxCommitted - s.handle.maxPublished ≤ (unpublished s).card := by
  have hsub : Finset.Ioc s.handle.maxPublished s.handle.maxCommitted ⊆ unpublished s := by
    intro q hq
    obtain ⟨hlt, hle⟩ := Finset.mem_Ioc.1 hq
    have hcommitted := h.committed
    unfold unpublished
    rw [Finset.mem_sdiff, List.mem_toFinset, List.mem_toFinset, h.commits]
    refine ⟨by omega, ?_⟩
    intro hpub
    have := h.published q hpub
    omega
  calc s.handle.maxCommitted - s.handle.maxPublished
      = (Finset.Ioc s.handle.maxPublished s.handle.maxCommitted).card := (Nat.card_Ioc _ _).symm
    _ ≤ (unpublished s).card := Finset.card_le_card hsub

theorem ceiling_of_check {s s' : St} {n : Nat} (hstep : next s (.check n) = some s')
    (hend : s'.handle.calls.get n = none) :
    unpublishedCommitCeiling ≤ s.handle.maxCommitted - s.handle.maxPublished := by
  obtain ⟨hcall, hstep⟩ := Option.ite_none_right_eq_some.1 hstep
  obtain ⟨p, hp⟩ := Option.isSome_iff_exists.1 hcall.2
  cases hstep
  unfold check at hend
  split at hend
  · assumption
  · rw [(committing_eq_some.1 hp).1] at hend
    cases hend

/-- **The ceiling.** On any catalog and store, over any number of restarts, if
publishes finish in the order of their seqs and no ceiling is checked between a
handle's first commit and its first publish of a seq as high as the stored one
it was opened on, then a call that fails at the ceiling finds at least that many
commits of its handle unpublished. -/
theorem ceiling_unpublished (s s' : St) (n : Nat) (hs : (lts.restrict InOrder).Reachable s)
    (hstep : (lts.restrict InOrder).step s (.check n) s')
    (hend : s'.handle.calls.get n = none) :
    unpublishedCommitCeiling ≤ (unpublished s).card := by
  have hcounted := counted_inductive.reachable s hs
  have hreached := ceiling_of_check hstep.2 hend
  have hok : s.handle.maxCommitted = 0 ∨ s.opened ≤ s.handle.maxPublished := hstep.1
  cases hok with
  | inl hzero =>
    unfold unpublishedCommitCeiling at hreached
    omega
  | inr hopened => exact hreached.trans (hcounted.card_unpublished hopened)

def openedOn (maxSeq : Nat) : St :=
  ⟨⟨.up, ⟨∅, ∅, maxSeq⟩, ∅, ∅, 0, 0, []⟩, none, maxSeq, [], []⟩

theorem opened_openedOn (maxSeq : Nat) : Opened (openedOn maxSeq) :=
  ⟨rfl, rfl, rfl, rfl, rfl, rfl, rfl⟩

def waits (n : Nat) : List Lbl :=
  [.handle (.start n (.checkpoint (List.replicate (n + 1) 'k') [1])), .handle (.lookup n)]

def commits (n : Nat) : List Lbl := waits n ++ [.check n, .commit n, .record n]

theorem ceiling_unpublished_full :
    ∃ s s', (lts.restrict InOrder).Reachable s ∧ (lts.restrict InOrder).step s (.check 32) s' ∧
      s'.handle.calls.get 32 = none ∧ unpublishedCommitCeiling ≤ (unpublished s).card := by
  obtain ⟨s, hreach, hok, hnext⟩ : ∃ s, (lts.restrict InOrder).Reachable s ∧ InOrder s (.check 32) ∧
      (next s (.check 32)).any fun s' => (s'.handle.calls.get 32).isNone :=
    exists_restrict_reachable ((List.range 32).flatMap commits ++ waits 32) (opened_openedOn 0)
      (by decide +kernel)
  obtain ⟨s', hs', hnone⟩ := (Option.any_eq_true ..).1 hnext
  have hend := Option.isNone_iff_eq_none.1 hnone
  exact ⟨s, s', hreach, ⟨hok, hs'⟩, hend, ceiling_unpublished s s' 32 hreach ⟨hok, hs'⟩ hend⟩

/-- On a stored Seq of 31 the first commit of a handle takes `max_committed`
from 0 to 32. -/
theorem ceiling_one_unpublished :
    ∃ s s', lts.Reachable s ∧ next s (.check 1) = some s' ∧ s'.handle.calls.get 1 = none ∧
      (unpublished s).card = 1 := by
  obtain ⟨s, hreach, hcard, hnext⟩ : ∃ s, lts.Reachable s ∧ (unpublished s).card = 1 ∧
      (next s (.check 1)).any fun s' => (s'.handle.calls.get 1).isNone :=
    exists_reachable (commits 0 ++ waits 1) (opened_openedOn 31) (by decide +kernel)
  obtain ⟨s', hs', hnone⟩ := (Option.any_eq_true ..).1 hnext
  exact ⟨s, s', hreach, hs', Option.isNone_iff_eq_none.1 hnone, hcard⟩

end Skippr.L3.Handle.Ceiling
