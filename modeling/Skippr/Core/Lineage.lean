import Mathlib

/-!
# Linear histories

A history grows at its end, and each of its members names its ancestors: the
members before it, the nearest first.

* `Lineage.append`: a member staged from the last one may be added.
* `Lineage.ancestor`: an earlier member is an ancestor of a later one.
* `Lineage.mem_of_ancestor`: only members are.
-/
namespace Skippr

variable {α I : Type} {id : α → I} {ancestors : α → List I}

/-- The ancestors of a member are the members before it. -/
def Lineage (id : α → I) (ancestors : α → List I) (chain : List α) : Prop :=
  ∀ v m, chain[v]? = some m → ancestors m = ((chain.take v).map id).reverse

theorem lineage_singleton {m : α} (h : ancestors m = []) : Lineage id ancestors [m] := by
  intro v m' hm'
  cases v with
  | zero =>
    cases hm'
    exact h
  | succ v => simp at hm'

namespace Lineage
variable {chain : List α}

theorem append (h : Lineage id ancestors chain) {last new : α}
    (hlast : chain[chain.length - 1]? = some last) (hnew : ancestors new = id last :: ancestors last) :
    Lineage id ancestors (chain ++ [new]) := by
  have hpos : chain.length - 1 < chain.length := (List.getElem?_eq_some_iff.1 hlast).1
  intro v m hm
  by_cases hv : v < chain.length
  · rw [List.getElem?_append_left hv] at hm
    rw [List.take_append_of_le_length (Nat.le_of_lt hv)]
    exact h v m hm
  · have hveq : v = chain.length := by
      have := (List.getElem?_eq_some_iff.1 hm).1
      rw [List.length_append, List.length_singleton] at this
      omega
    subst hveq
    rw [List.getElem?_concat_length] at hm
    cases hm
    -- The chain is what is before its last member, and that member.
    have hsplit : chain = chain.take (chain.length - 1) ++ [last] := by
      have htake := List.take_succ_eq_append_getElem hpos
      rw [(List.getElem?_eq_some_iff.1 hlast).2] at htake
      rw [← htake, show chain.length - 1 + 1 = chain.length by omega, List.take_length]
    rw [List.take_left, hnew, h _ last hlast]
    conv_rhs => rw [hsplit]
    rw [List.map_append, List.reverse_append]
    rfl

theorem ancestor (h : Lineage id ancestors chain) {v : Nat} {m : α} (hm : chain[v]? = some m) {a : I}
    (ha : a ∈ (chain.take (v + 1)).map id) : a = id m ∨ a ∈ ancestors m := by
  obtain ⟨hv, rfl⟩ := List.getElem?_eq_some_iff.1 hm
  rw [List.take_succ_eq_append_getElem hv, List.map_append, List.mem_append] at ha
  cases ha with
  | inl hbefore =>
    right
    rw [h v _ hm]
    exact List.mem_reverse.2 hbefore
  | inr hself => exact .inl (List.mem_singleton.1 hself)

theorem mem_of_ancestor (h : Lineage id ancestors chain) {v : Nat} {m : α} (hm : chain[v]? = some m)
    {a : I} (ha : a = id m ∨ a ∈ ancestors m) : a ∈ chain.map id := by
  cases ha with
  | inl hself =>
    rw [hself]
    exact List.mem_map_of_mem (List.mem_of_getElem? hm)
  | inr hbefore =>
    rw [h v m hm, List.mem_reverse] at hbefore
    exact (List.map_subset id (List.take_subset v chain)) hbefore

end Lineage

end Skippr
