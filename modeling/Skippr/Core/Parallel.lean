import Mathlib

/-!
# A list kept beside another

* `mem_mapM`, `exists_mapM`: what a fallible map over a list returns.
* `pick_keptIndices`: filtering a list, and picking the kept places.
-/
namespace Skippr
variable {α β : Type}

theorem mem_mapM {f : α → Option β} {l : List α} {out : List β} (h : l.mapM f = some out) (y : β) :
    y ∈ out ↔ ∃ x ∈ l, f x = some y := by
  induction l generalizing out with
  | nil =>
    cases h
    simp
  | cons x l ih =>
    rw [List.mapM_cons] at h
    obtain ⟨first, hfirst, hrest⟩ := Option.bind_eq_some_iff.1 h
    obtain ⟨rest, hmap, hout⟩ := Option.bind_eq_some_iff.1 hrest
    cases hout
    rw [List.mem_cons, ih hmap, List.exists_mem_cons_iff, hfirst, Option.some.injEq, eq_comm]

theorem exists_mapM {f : α → Option β} {l : List α} (h : ∀ x ∈ l, ∃ y, f x = some y) :
    ∃ out, l.mapM f = some out := by
  induction l with
  | nil => exact ⟨[], rfl⟩
  | cons x l ih =>
    obtain ⟨y, hy⟩ := h x List.mem_cons_self
    obtain ⟨out, hout⟩ := ih (List.forall_mem_cons.1 h).2
    refine ⟨y :: out, ?_⟩
    rw [List.mapM_cons, hy, hout]
    rfl

def keptIndices (keep : α → Bool) (rows : List α) : List Nat :=
  (rows.zipIdx.filter (keep ·.1)).map (·.2)

def pick (side : List β) (places : List Nat) : Option (List β) :=
  places.mapM (side[·]?)

theorem pick_keptIndices (keep : α → Bool) (rows : List α) :
    pick rows (keptIndices keep rows) = some (rows.filter keep) := by
  -- The rows from place `n` on, picked out of all of them.
  have hfrom : ∀ (rest before : List α),
      pick (before ++ rest) (((rest.zipIdx before.length).filter (keep ·.1)).map (·.2)) =
        some (rest.filter keep) := by
    intro rest
    induction rest with
    | nil =>
      intro before
      rfl
    | cons x rest ih =>
      intro before
      have hrest := ih (before ++ [x])
      rw [List.length_append, List.length_singleton, List.append_assoc] at hrest
      rw [List.zipIdx_cons]
      by_cases hx : keep x = true
      · have hget : (before ++ x :: rest)[before.length]? = some x := by simp
        rw [pick] at hrest
        rw [List.filter_cons_of_pos hx, List.filter_cons_of_pos (p := fun y : α × Nat => keep y.1) hx,
          List.map_cons, pick, List.mapM_cons, hget]
        exact congrArg (Option.bind · fun out => some (x :: out)) hrest
      · rw [List.filter_cons_of_neg hx, List.filter_cons_of_neg (p := fun y : α × Nat => keep y.1) hx]
        exact hrest
  exact hfrom rows []

end Skippr
