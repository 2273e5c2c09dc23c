import Mathlib

/-!
# Computations that may fail

Peeling a successful `Except` computation apart, and simulating a successful
loop by a fold.

* `bind_eq_ok`, `map_eq_ok`: a bind that returned, returned at both steps.
* `of_check`: a check that did not fail was passed.
* `mapM_eq_ok`: a traversal that returned, returned at every element.
* `foldlM_forall`: a loop that returned, took every element.
* `foldlM_simulates`: a relation kept by every step that returns is kept by the
  loop.
-/
namespace Skippr
variable {ε α β γ : Type}

theorem bind_eq_ok {x : Except ε α} {f : α → Except ε β} {b : β} :
    (x >>= f) = .ok b ↔ ∃ a, x = .ok a ∧ f a = .ok b := by
  cases x with
  | error e | ok a => simp [bind, Except.bind]

theorem map_eq_ok {x : Except ε α} {f : α → β} {b : β} :
    x.map f = .ok b ↔ ∃ a, x = .ok a ∧ b = f a := by
  cases x with
  | error e => simp [Except.map]
  | ok a => simp [Except.map, eq_comm]

theorem of_check {c : Prop} [Decidable c] {e : ε} {x : Except ε α} {a : α}
    (h : (if c then .error e else x) = .ok a) : ¬ c ∧ x = .ok a := by
  split at h
  · cases h
  · exact ⟨‹_›, h⟩

theorem mapM_eq_ok {f : α → Except ε β} {P : α → Prop} {g : α → β}
    (hf : ∀ a b, f a = .ok b ↔ P a ∧ b = g a) (l : List α) :
    ∀ {r : List β}, l.mapM f = .ok r ↔ (∀ a ∈ l, P a) ∧ r = l.map g := by
  induction l with
  | nil =>
    intro r
    rw [List.mapM_nil]
    show Except.ok [] = Except.ok r ↔ _
    simp [eq_comm]
  | cons a l ih =>
    intro r
    rw [List.mapM_cons]
    simp only [bind_eq_ok, hf, ih]
    constructor
    · intro h
      obtain ⟨b, ⟨ha, rfl⟩, bs, ⟨hl, rfl⟩, hr⟩ := h
      cases hr
      exact ⟨List.forall_mem_cons.2 ⟨ha, hl⟩, rfl⟩
    · intro h
      obtain ⟨hall, rfl⟩ := h
      obtain ⟨ha, hl⟩ := List.forall_mem_cons.1 hall
      exact ⟨g a, ⟨ha, rfl⟩, l.map g, ⟨hl, rfl⟩, rfl⟩

theorem foldlM_forall {step : β → α → Except ε β} {P : α → Prop}
    (hstep : ∀ s a s', step s a = .ok s' → P a) (l : List α) :
    ∀ {s s' : β}, l.foldlM step s = .ok s' → ∀ a ∈ l, P a := by
  induction l with
  | nil =>
    intro s s' _ a ha
    cases ha
  | cons b l ih =>
    intro s s' h a ha
    rw [List.foldlM_cons, bind_eq_ok] at h
    obtain ⟨s₁, hb, hl⟩ := h
    rcases List.mem_cons.1 ha with rfl | ha
    · exact hstep _ _ _ hb
    · exact ih hl a ha

theorem foldlM_simulates {step : β → α → Except ε β} {next : γ → α → γ} (Rel : β → γ → Prop)
    (hstep : ∀ s t a s', Rel s t → step s a = .ok s' → Rel s' (next t a)) (l : List α) :
    ∀ {s s' : β} {t : γ}, Rel s t → l.foldlM step s = .ok s' → Rel s' (l.foldl next t) := by
  induction l with
  | nil =>
    intro s s' t hrel h
    cases h
    exact hrel
  | cons a l ih =>
    intro s s' t hrel h
    rw [List.foldlM_cons, bind_eq_ok] at h
    obtain ⟨s₁, ha, hl⟩ := h
    exact ih (hstep _ _ _ _ hrel ha) hl

end Skippr
