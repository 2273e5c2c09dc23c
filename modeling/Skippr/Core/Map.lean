import Mathlib

/-!
# Finite maps

`Map K V` is Mathlib's association list without dependent values. The lemmas
here put its `lookup` in the form the step proofs rewrite with: the value after
an update, at any key.
-/
namespace Skippr

abbrev Map (K V : Type) : Type := AList fun _ : K => V

namespace Map
variable {K V W : Type} [DecidableEq K]

def get (m : Map K V) (k : K) : Option V := AList.lookup k m

@[simp] theorem get_empty (k : K) : get (∅ : Map K V) k = none := rfl

theorem get_insert (m : Map K V) (k k' : K) (v : V) :
    get (m.insert k v) k' = if k' = k then some v else get m k' := by
  unfold get
  split
  · rename_i h
    subst h
    exact AList.lookup_insert m
  · rename_i h
    exact AList.lookup_insert_ne h

theorem get_erase (m : Map K V) (k k' : K) :
    get (m.erase k) k' = if k' = k then none else get m k' := by
  unfold get
  split
  · rename_i h
    subst h
    exact AList.lookup_erase k' m
  · rename_i h
    exact AList.lookup_erase_ne h

theorem get_insert_cases {m : Map K V} {k k' : K} {v v' : V}
    (h : get (m.insert k v) k' = some v') : k' = k ∧ v = v' ∨ k' ≠ k ∧ get m k' = some v' := by
  rw [get_insert] at h
  split at h
  · exact .inl ⟨‹_›, Option.some.inj h⟩
  · exact .inr ⟨‹_›, h⟩

theorem of_get_erase {m : Map K V} {k k' : K} {v : V} (h : get (m.erase k) k' = some v) :
    k' ≠ k ∧ get m k' = some v := by
  rw [get_erase] at h
  split at h
  · cases h
  · exact ⟨‹_›, h⟩

theorem mem_keys_iff (m : Map K V) (k : K) : k ∈ m.keys ↔ get m k ≠ none := by
  rw [← AList.mem_keys, Ne, get, AList.lookup_eq_none, not_not]

/-- Keep the entries whose value `f` maps to something. -/
def filterMap (f : V → Option W) (m : Map K V) : Map K W where
  entries := m.entries.filterMap fun e => (f e.2).map fun w => ⟨e.1, w⟩
  nodupKeys := by
    have hsub : ((m.entries.filterMap fun e => (f e.2).map fun w => (⟨e.1, w⟩ : Sigma fun _ : K => W)).map
        Sigma.fst).Sublist (m.entries.map Sigma.fst) := by
      rw [List.map_filterMap]
      induction m.entries with
      | nil => exact .slnil
      | cons e l ih =>
        cases hf : f e.2 with
        | none => simpa [List.filterMap_cons, hf] using ih.cons e.1
        | some w => simpa [List.filterMap_cons, hf] using ih.cons_cons e.1
    exact List.Nodup.sublist hsub m.nodupKeys

theorem get_filterMap (f : V → Option W) (m : Map K V) (k : K) :
    get (m.filterMap f) k = (get m k).bind f := by
  have hmem : ∀ w, get (m.filterMap f) k = some w ↔ (get m k).bind f = some w := by
    intro w
    simp only [get, Option.bind_eq_some_iff]
    rw [← Option.mem_def, AList.mem_lookup_iff]
    simp only [filterMap, List.mem_filterMap, Option.map_eq_some_iff]
    constructor
    · rintro ⟨⟨k', v⟩, he, w', hw, heq⟩
      cases heq
      exact ⟨v, AList.mem_lookup_iff.2 he, hw⟩
    · rintro ⟨v, hv, hw⟩
      exact ⟨⟨k, v⟩, AList.mem_lookup_iff.1 hv, w, hw, rfl⟩
  exact Option.ext hmem

def toList (m : Map K V) : List (K × V) := m.entries.map fun e => (e.1, e.2)

theorem mem_toList (m : Map K V) (k : K) (v : V) : (k, v) ∈ m.toList ↔ get m k = some v := by
  rw [toList, get, ← Option.mem_def, AList.mem_lookup_iff, List.mem_map]
  constructor
  · rintro ⟨⟨k', v'⟩, he, heq⟩
    cases heq
    exact he
  · exact fun he => ⟨⟨k, v⟩, he, rfl⟩

omit [DecidableEq K] in
theorem nodup_toList (m : Map K V) : (m.toList.map Prod.fst).Nodup := by
  rw [toList, List.map_map]
  exact m.nodupKeys

theorem get_foldl_insert {l : List (K × V)} (hnodup : (l.map Prod.fst).Nodup) (k : K) (v : V) :
    get (l.foldl (fun m e => m.insert e.1 e.2) ∅) k = some v ↔ (k, v) ∈ l := by
  induction l using List.reverseRecOn with
  | nil => simp
  | append_singleton l e ih =>
    rw [List.map_append, List.map_singleton, List.nodup_append] at hnodup
    obtain ⟨hl, -, hne⟩ := hnodup
    rw [List.foldl_concat, get_insert, List.mem_append, List.mem_singleton]
    split
    · rename_i hk
      subst hk
      -- no earlier entry has the key of the last
      have hno : (e.1, v) ∉ l := fun hmem =>
        hne e.1 (List.mem_map.2 ⟨_, hmem, rfl⟩) e.1 (List.mem_singleton_self _) rfl
      rw [Option.some.injEq, Prod.ext_iff]
      simp [hno, eq_comm]
    · rename_i hk
      rw [ih hl, Prod.ext_iff]
      simp [hk]

theorem filter_toList (m : Map K V) (k : K) :
    (m.toList.filter fun e => e.1 = k) = (get m k).toList.map fun v => (k, v) := by
  have hmem : ∀ e, e ∈ m.toList.filter (fun e => e.1 = k) ↔
      e ∈ (get m k).toList.map fun v => (k, v) := by
    rintro ⟨k', v⟩
    simp only [List.mem_filter, decide_eq_true_eq, mem_toList, List.mem_map, Option.mem_toList,
      Prod.mk.injEq]
    constructor
    · rintro ⟨hget, rfl⟩
      exact ⟨v, hget, rfl, rfl⟩
    · rintro ⟨v', hget, rfl, rfl⟩
      exact ⟨hget, rfl⟩
  have hnodup : (m.toList.filter fun e => e.1 = k).Nodup := (nodup_toList m).of_map.filter _
  cases hget : get m k with
  | none =>
    rw [hget] at hmem
    exact List.eq_nil_iff_forall_not_mem.2 fun e he => List.not_mem_nil ((hmem e).1 he)
  | some v =>
    rw [hget] at hmem
    exact List.perm_singleton.1 ((List.perm_ext_iff_of_nodup hnodup (List.nodup_singleton _)).2 hmem)

end Map
end Skippr
