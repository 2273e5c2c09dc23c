import Mathlib

/-!
# Labelled transition systems

The components of the pipeline are state machines whose nondeterminism (what a
task returns, which step is scheduled next, where a crash falls) is carried by
the label of a step, so that the step itself is a function.

* `LTS`, `LTS.ofFn`: a system, and the system of an executable step function.
* `LTS.Inductive.reachable`: the invariant rule.
* `LTS.Inductive.along`: the same from any state, along a run.
* `LTS.restrict`: the runs whose every step meets a condition on the state
  before it and on the label.
* `exists_reachable`, `exists_restrict_reachable`: a concrete run, computed by
  `exec`, reaches a state with a property that can be decided.
-/
namespace Skippr

structure LTS (S L : Type) where
  init : S → Prop
  step : S → L → S → Prop

namespace LTS
variable {S L : Type}

/-- The system of a partial step function; `none` means the label is not
enabled in the state. -/
def ofFn (init : S → Prop) (f : S → L → Option S) : LTS S L where
  init := init
  step s l s' := f s l = some s'

inductive Run (M : LTS S L) : S → List L → S → Prop
  | nil (s : S) : Run M s [] s
  | cons {s s₁ s' : S} {l : L} {ls : List L} : M.step s l s₁ → Run M s₁ ls s' → Run M s (l :: ls) s'

def Reachable (M : LTS S L) (s : S) : Prop :=
  ∃ s₀ ls, M.init s₀ ∧ M.Run s₀ ls s

variable {M : LTS S L} {s s' : S} {ls : List L}

theorem Run.append {s'' : S} {ls' : List L} (h : M.Run s ls s') (h' : M.Run s' ls' s'') :
    M.Run s (ls ++ ls') s'' := by
  induction h with
  | nil s => exact h'
  | cons hstep _ ih => exact .cons hstep (ih h')

theorem Run.split {s'' : S} {ls' : List L} (h : M.Run s (ls ++ ls') s'') :
    ∃ s', M.Run s ls s' ∧ M.Run s' ls' s'' := by
  induction ls generalizing s with
  | nil => exact ⟨s, .nil s, h⟩
  | cons l ls ih =>
    cases h with
    | cons hstep hrest =>
      obtain ⟨s', hls, hls'⟩ := ih hrest
      exact ⟨s', .cons hstep hls, hls'⟩

def restrict (M : LTS S L) (ok : S → L → Prop) : LTS S L where
  init := M.init
  step s l s' := ok s l ∧ M.step s l s'

theorem Run.restrict {ok : S → L → Prop} (h : M.Run s ls s') (hok : ∀ l ∈ ls, ∀ s, ok s l) :
    (M.restrict ok).Run s ls s' := by
  induction h with
  | nil s => exact .nil s
  | cons hstep _ ih =>
    exact .cons ⟨hok _ List.mem_cons_self _, hstep⟩ (ih (List.forall_mem_cons.1 hok).2)

theorem Run.restrict_mono {ok ok' : S → L → Prop} (himp : ∀ s l, ok s l → ok' s l)
    (h : (M.restrict ok).Run s ls s') : (M.restrict ok').Run s ls s' := by
  induction h with
  | nil s => exact .nil s
  | cons hstep _ ih => exact .cons ⟨himp _ _ hstep.1, hstep.2⟩ ih

theorem Run.keeps {P : S → Prop} (hr : M.Run s ls s')
    (hkeep : ∀ s l s', P s → M.step s l s' → P s') (hs : P s) : P s' := by
  induction hr with
  | nil => exact hs
  | cons hstep _ ih => exact ih (hkeep _ _ _ hs hstep)

structure Inductive (M : LTS S L) (P : S → Prop) : Prop where
  init : ∀ s, M.init s → P s
  step : ∀ s l s', P s → M.step s l s' → P s'

theorem Inductive.along {P : S → Prop} (h : M.Inductive P) (hr : M.Run s ls s') (hs : P s) :
    P s' :=
  hr.keeps h.step hs

/-- **Invariant rule.** What holds initially and is kept by every step holds
in every reachable state. -/
theorem Inductive.reachable {P : S → Prop} (h : M.Inductive P) (s : S) (hr : M.Reachable s) :
    P s := by
  obtain ⟨s₀, ls, h₀, hrun⟩ := hr
  exact h.along hrun (h.init _ h₀)

end LTS

/-- **Guard rule.** A guarded step that was taken met its guard. -/
theorem of_guard {S : Type} {c : Prop} [Decidable c] {s s' : S}
    (h : (if c then some s else none) = some s') : c ∧ s = s' := by
  obtain ⟨hc, hs⟩ := Option.ite_none_right_eq_some.1 h
  exact ⟨hc, Option.some.inj hs⟩

theorem of_guard_not {S : Type} {c : Prop} [Decidable c] {s s' : S}
    (h : (if c then none else some s) = some s') : ¬ c ∧ s = s' := by
  obtain ⟨hc, hs⟩ := Option.ite_none_left_eq_some.1 h
  exact ⟨hc, Option.some.inj hs⟩

def exec {S L : Type} (f : S → L → Option S) : S → List L → Option S
  | s, [] => some s
  | s, l :: ls => (f s l).bind fun s₁ => exec f s₁ ls

variable {S L : Type} {init : S → Prop} {f : S → L → Option S} {s' : S} {ls : List L}

theorem run_of_exec :
    ∀ {ls : List L} {s s' : S}, exec f s ls = some s' → (LTS.ofFn init f).Run s ls s'
  | [], s, s', h => by
    simp only [exec, Option.some.injEq] at h
    subst h
    exact .nil s
  | l :: ls, s, s', h => by
    simp only [exec, Option.bind_eq_some_iff] at h
    obtain ⟨s₁, hstep, hrest⟩ := h
    exact .cons hstep (run_of_exec hrest)

theorem reachable_of_exec {s₀ : S} (h₀ : init s₀) (h : exec f s₀ ls = some s') :
    (LTS.ofFn init f).Reachable s' :=
  ⟨s₀, ls, h₀, run_of_exec h⟩

theorem exists_reachable (ls : List L) {P : S → Prop} [DecidablePred P] {s₀ : S} (h₀ : init s₀)
    (h : (exec f s₀ ls).any (P ·)) : ∃ s, (LTS.ofFn init f).Reachable s ∧ P s := by
  obtain ⟨s, hexec, hs⟩ := (Option.any_eq_true ..).1 h
  exact ⟨s, reachable_of_exec h₀ hexec, of_decide_eq_true hs⟩

def guarded {S L : Type} (ok : S → L → Prop) [∀ s l, Decidable (ok s l)] (f : S → L → Option S)
    (s : S) (l : L) : Option S :=
  if ok s l then f s l else none

theorem restrict_run_of_exec {ok : S → L → Prop} [∀ s l, Decidable (ok s l)] {s : S}
    (h : exec (guarded ok f) s ls = some s') : ((LTS.ofFn init f).restrict ok).Run s ls s' := by
  have hrun : (LTS.ofFn init (guarded ok f)).Run s ls s' := run_of_exec h
  clear h
  induction hrun with
  | nil s => exact .nil s
  | cons hstep _ ih =>
    obtain ⟨hok, hstep⟩ := Option.ite_none_right_eq_some.1 hstep
    exact .cons ⟨hok, hstep⟩ ih

theorem restrict_reachable_of_exec {ok : S → L → Prop} [∀ s l, Decidable (ok s l)] {s₀ : S}
    (h₀ : init s₀) (h : exec (guarded ok f) s₀ ls = some s') :
    ((LTS.ofFn init f).restrict ok).Reachable s' :=
  ⟨s₀, ls, h₀, restrict_run_of_exec h⟩

theorem exists_restrict_reachable (ls : List L) {ok : S → L → Prop} [∀ s l, Decidable (ok s l)]
    {P : S → Prop} [DecidablePred P] {s₀ : S} (h₀ : init s₀)
    (h : (exec (guarded ok f) s₀ ls).any (P ·)) :
    ∃ s, ((LTS.ofFn init f).restrict ok).Reachable s ∧ P s := by
  obtain ⟨s, hexec, hs⟩ := (Option.any_eq_true ..).1 h
  exact ⟨s, restrict_reachable_of_exec h₀ hexec, of_decide_eq_true hs⟩

end Skippr
