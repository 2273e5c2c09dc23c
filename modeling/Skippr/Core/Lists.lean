import Mathlib

/-!
# Counting in disjoint images, and runs of a sorted list

* `countP_flatMap_of_mem`: when the images under `g` are disjoint, what counts
  as `r` in the images under `f` is in the image of the one element with
  `r ∈ g x`.
* `forall₂_and`: two relations of one pair of lists.
* `nodup_map_of_subperm`: part of a list, in any order, repeats nothing new.
-/
namespace Skippr
variable {α β γ : Type}

section Count
variable {f : α → List β} {g : α → List γ} {p : β → Bool} {r : γ} {l : List α}

theorem countP_flatMap_of_not_mem (hf : ∀ x ∈ l, r ∉ g x → (f x).countP p = 0)
    (hr : r ∉ l.flatMap g) : (l.flatMap f).countP p = 0 := by
  induction l with
  | nil => rfl
  | cons x l ih =>
    simp only [List.flatMap_cons, List.mem_append, not_or] at hr
    rw [List.flatMap_cons, List.countP_append, hf x List.mem_cons_self hr.1,
      ih (List.forall_mem_cons.1 hf).2 hr.2]

theorem countP_flatMap_of_mem (hf : ∀ x ∈ l, r ∉ g x → (f x).countP p = 0)
    (hnd : (l.flatMap g).Nodup) {s : α} (hs : s ∈ l) (hr : r ∈ g s) :
    (l.flatMap f).countP p = (f s).countP p := by
  induction l with
  | nil => cases hs
  | cons x l ih =>
    rw [List.flatMap_cons, List.nodup_append'] at hnd
    obtain ⟨-, hl, hdisj⟩ := hnd
    have hf' : ∀ y ∈ l, r ∉ g y → (f y).countP p = 0 :=
      (List.forall_mem_cons.1 hf).2
    rw [List.flatMap_cons, List.countP_append]
    rcases List.mem_cons.mp hs with rfl | hs
    · have hrest : r ∉ l.flatMap g := fun h => hdisj hr h
      rw [countP_flatMap_of_not_mem hf' hrest]
      omega
    · have hx : r ∉ g x := fun h => hdisj h (List.mem_flatMap.mpr ⟨s, hs, hr⟩)
      rw [hf x List.mem_cons_self hx, ih hf' hl hs]
      omega

end Count

theorem split_eq_of_mem {done rest before after : List α} {w : α} (hnodup : (done ++ rest).Nodup)
    (h : done ++ rest = before ++ w :: after) (hbefore : ∀ x ∈ before, x ∈ done) (hw : w ∉ done) :
    done = before ∧ rest = w :: after := by
  rcases List.append_eq_append_iff.1 h with ⟨c, hc, hrest⟩ | ⟨c, hc, hrest⟩
  · cases c with
    | nil =>
      rw [List.append_nil] at hc
      exact ⟨hc.symm, hrest⟩
    | cons x c =>
      -- `x` would be on both sides
      have hx : x ∈ done := hbefore x (hc ▸ List.mem_append_right _ List.mem_cons_self)
      exact absurd (hrest ▸ List.mem_cons_self) (List.disjoint_of_nodup_append hnodup hx)
  · cases c with
    | nil =>
      rw [List.append_nil] at hc
      exact ⟨hc, hrest.symm⟩
    | cons x c =>
      obtain ⟨rfl, -⟩ := List.cons.inj hrest
      exact absurd (hc ▸ List.mem_append_right _ List.mem_cons_self) hw

section Sorted
variable {rank : α → Nat} {ok : α → Bool}

theorem mem_takeWhile_of_sorted {l : List α} (hl : l.Pairwise fun a b => rank a < rank b) (x : α) :
    x ∈ l.takeWhile ok ↔ x ∈ l ∧ ∀ y ∈ l, rank y ≤ rank x → ok y = true := by
  induction l with
  | nil => simp
  | cons a l ih =>
    obtain ⟨ha, hl⟩ := List.pairwise_cons.mp hl
    rw [List.takeWhile_cons]
    split
    · rename_i hok
      rw [List.mem_cons, ih hl]
      constructor
      · rintro (rfl | ⟨hx, hall⟩)
        · refine ⟨List.mem_cons_self, fun y hy hle => ?_⟩
          rcases List.mem_cons.mp hy with rfl | hy
          · exact hok
          · have := ha y hy
            omega
        · refine ⟨List.mem_cons_of_mem a hx, fun y hy hle => ?_⟩
          rcases List.mem_cons.mp hy with rfl | hy
          · exact hok
          · exact hall y hy hle
      · rintro ⟨hx, hall⟩
        rcases List.mem_cons.mp hx with rfl | hx
        · exact .inl rfl
        · exact .inr ⟨hx, (List.forall_mem_cons.1 hall).2⟩
    · rename_i hok
      refine ⟨fun h => absurd h (by simp), ?_⟩
      rintro ⟨hx, hall⟩
      -- The head fails and ranks no higher than `x`.
      refine absurd (hall a List.mem_cons_self ?_) hok
      rcases List.mem_cons.mp hx with rfl | hx
      · exact le_rfl
      · exact (ha x hx).le

theorem pairwise_mergeSort (hinj : Function.Injective rank) {l : List α} (hl : l.Nodup) :
    (l.mergeSort fun a b => rank a ≤ rank b).Pairwise fun a b => rank a < rank b := by
  have hsorted : (l.mergeSort fun a b => rank a ≤ rank b).Pairwise
      fun a b => decide (rank a ≤ rank b) = true :=
    List.pairwise_mergeSort (fun a b c => by simpa using le_trans)
      (fun a b => by simpa using le_total _ _) l
  have hnodup : (l.mergeSort fun a b => rank a ≤ rank b).Nodup :=
    (List.mergeSort_perm l _).nodup_iff.mpr hl
  refine (hsorted.and hnodup).imp ?_
  rintro a b ⟨hle, hne⟩
  exact lt_of_le_of_ne (by simpa using hle) fun h => hne (hinj h)

theorem mem_takeWhile_mergeSort (hinj : Function.Injective rank) {l : List α} (hl : l.Nodup) (x : α) :
    x ∈ (l.mergeSort fun a b => rank a ≤ rank b).takeWhile ok ↔
      x ∈ l ∧ ∀ y ∈ l, rank y ≤ rank x → ok y = true := by
  rw [mem_takeWhile_of_sorted (pairwise_mergeSort hinj hl)]
  simp only [List.mem_mergeSort]

theorem head?_mergeSort (hinj : Function.Injective rank) {l : List α} (hl : l.Nodup) (x : α) :
    (l.mergeSort fun a b => rank a ≤ rank b).head? = some x ↔
      x ∈ l ∧ ∀ y ∈ l, rank x ≤ rank y := by
  have hsorted := pairwise_mergeSort hinj hl
  have hmem : ∀ y, y ∈ (l.mergeSort fun a b => rank a ≤ rank b) ↔ y ∈ l :=
    fun y => List.mem_mergeSort
  generalize (l.mergeSort fun a b => rank a ≤ rank b) = m at hsorted hmem
  simp only [← hmem]
  cases m with
  | nil => simp
  | cons a m =>
    obtain ⟨ha, -⟩ := List.pairwise_cons.mp hsorted
    rw [List.head?_cons, Option.some.injEq]
    constructor
    · rintro rfl
      refine ⟨List.mem_cons_self, fun y hy => ?_⟩
      rcases List.mem_cons.mp hy with rfl | hy
      · exact le_rfl
      · exact (ha y hy).le
    · rintro ⟨hx, hall⟩
      rcases List.mem_cons.mp hx with rfl | hx
      · rfl
      · have := hall a List.mem_cons_self
        have := ha x hx
        omega

end Sorted

theorem forall₂_and {P Q : α → β → Prop} {as : List α} {bs : List β}
    (hP : List.Forall₂ P as bs) (hQ : List.Forall₂ Q as bs) :
    List.Forall₂ (fun a b => P a b ∧ Q a b) as bs := by
  induction hP with
  | nil => exact .nil
  | cons h _ ih =>
    cases hQ with
    | cons h' hrest => exact .cons ⟨h, h'⟩ (ih hrest)

open scoped List in
theorem nodup_map_of_subperm {f : α → β} {l l' : List α} (h : l <+~ l') (hnodup : (l'.map f).Nodup) :
    (l.map f).Nodup := by
  obtain ⟨part, hperm, hsub⟩ := h
  exact (hperm.map f).nodup_iff.1 ((hsub.map f).nodup hnodup)

theorem map_fst_zip_sublist {α β : Type} (l : List α) (l' : List β) :
    ((l.zip l').map Prod.fst).Sublist l := by
  induction l generalizing l' with
  | nil => exact .slnil
  | cons a l ih =>
    cases l' with
    | nil => exact List.nil_sublist _
    | cons b l' => exact (ih l').cons_cons a

theorem zip_zipWith {α β γ : Type} (f : α → β → γ) (l : List α) (l' : List β) :
    l.zip (List.zipWith f l l') = (l.zip l').map fun ab => (ab.1, f ab.1 ab.2) := by
  induction l generalizing l' with
  | nil => rfl
  | cons a l ih =>
    cases l' with
    | nil => rfl
    | cons b l' =>
      rw [List.zipWith_cons_cons, List.zip_cons_cons, List.zip_cons_cons, List.map_cons, ih]

end Skippr
