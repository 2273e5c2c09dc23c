import Skippr.Core.Map

/-!
# The greatest value of every key

A map into which pairs are merged, each keeping the greater of the stored value
and its own.

* `HoldsMax.merge`: one more pair.
-/
namespace Skippr
variable {K T : Type} [DecidableEq K]

def valuesAt (k : K) (l : List (K × T)) : List T := (l.filter fun x => x.1 = k).map Prod.snd

@[simp] theorem mem_valuesAt {k : K} {t : T} {l : List (K × T)} : t ∈ valuesAt k l ↔ (k, t) ∈ l := by
  simp only [valuesAt, List.mem_map, List.mem_filter, decide_eq_true_eq]
  constructor
  · intro h
    obtain ⟨⟨k', t'⟩, ⟨hmem, hk⟩, ht⟩ := h
    cases hk
    cases ht
    exact hmem
  · intro h
    exact ⟨(k, t), ⟨h, rfl⟩, rfl⟩

theorem valuesAt_concat (k : K) (l : List (K × T)) (x : K × T) :
    valuesAt k (l ++ [x]) = valuesAt k l ++ if x.1 = k then [x.2] else [] := by
  rw [valuesAt, List.filter_append, List.map_append]
  by_cases hk : x.1 = k
  · simp [valuesAt, hk]
  · simp [valuesAt, hk]

section Merge
variable [Max T]

def mergeMax (m : Map K T) (k : K) (t : T) : Map K T :=
  m.insert k (match m.get k with
    | some old => max old t
    | none => t)

theorem max?_concat (l : List T) (t : T) :
    (l ++ [t]).max? = some (match l.max? with
      | some old => max old t
      | none => t) := by
  cases l with
  | nil => rfl
  | cons a l =>
    rw [List.cons_append, List.max?_cons', List.max?_cons', List.foldl_append]
    rfl

/-- The map holds for every key the greatest of its values. -/
def HoldsMax (m : Map K T) (l : List (K × T)) : Prop := ∀ k, m.get k = (valuesAt k l).max?

theorem holdsMax_empty : HoldsMax (∅ : Map K T) [] := fun _ => rfl

theorem HoldsMax.merge {m : Map K T} {l : List (K × T)} (h : HoldsMax m l) (k : K) (t : T) :
    HoldsMax (mergeMax m k t) (l ++ [(k, t)]) := by
  intro k'
  rw [mergeMax, Map.get_insert, valuesAt_concat]
  by_cases hk : k' = k
  · subst hk
    rw [if_pos rfl, if_pos rfl, max?_concat, h]
  · rw [if_neg hk, if_neg (Ne.symm hk), List.append_nil, h]

variable [LE T] [Std.IsLinearOrder T] [Std.LawfulOrderMax T] {m : Map K T} {l : List (K × T)}
  {k : K} {t : T}

theorem HoldsMax.get_iff (h : HoldsMax m l) :
    m.get k = some t ↔ IsGreatest {t | (k, t) ∈ l} t := by
  rw [h, List.max?_eq_some_iff]
  simp only [mem_valuesAt]
  rfl

theorem exists_isGreatest (hmem : (k, t) ∈ l) : ∃ g, IsGreatest {t | (k, t) ∈ l} g ∧ t ≤ g := by
  have hsome : (valuesAt k l).max?.isSome := by
    rw [List.isSome_max?_iff]
    exact List.ne_nil_of_mem (mem_valuesAt.2 hmem)
  obtain ⟨g, hg⟩ := Option.isSome_iff_exists.1 hsome
  obtain ⟨hin, hle⟩ := List.max?_eq_some_iff.1 hg
  exact ⟨g, ⟨mem_valuesAt.1 hin, fun t' ht' => hle t' (mem_valuesAt.2 ht')⟩,
    hle t (mem_valuesAt.2 hmem)⟩

end Merge

instance lawfulOrderMaxUInt64 : Std.LawfulOrderMax UInt64 where
  max_eq_or a b := by
    show (if a ≤ b then b else a) = a ∨ (if a ≤ b then b else a) = b
    split
    · exact .inr rfl
    · exact .inl rfl
  max_le_iff a b c := by
    show (if a ≤ b then b else a) ≤ c ↔ a ≤ c ∧ b ≤ c
    simp only [UInt64.le_iff_toNat_le]
    split <;> omega

end Skippr
