import Skippr.Core.Map

/-!
# The latest element of every key

A pass over a list that keeps, for each key, the element of greatest rank; of
several with that rank, the first. A key may start from a floor: elements that
do not rank above it are passed over.

* `greatest_ofKey_append`: a second pass whose floor is the rank the first one
  kept continues it.
* `ofKey_filter_winners`: a pass that remembers winners by their place in the
  list picks one row per key out of it.
* `greatest_map`, `greatest_comp`: the pass does not depend on how the
  elements and their ranks are written down.
-/
namespace Skippr

variable {α K T : Type} [DecidableEq K] [LinearOrder T]

def ofKey (key : α → Option K) (k : K) (l : List α) : List α :=
  l.filter fun a => key a = some k

section OfKey
variable (key : α → Option K) (k : K)

@[simp] theorem ofKey_nil : ofKey key k [] = [] := rfl

@[simp] theorem ofKey_append (l l' : List α) :
    ofKey key k (l ++ l') = ofKey key k l ++ ofKey key k l' :=
  List.filter_append ..

@[simp] theorem mem_ofKey {a : α} {l : List α} : a ∈ ofKey key k l ↔ a ∈ l ∧ key a = some k := by
  simp [ofKey]

theorem ofKey_map {β : Type} (f : β → α) (l : List β) :
    ofKey key k (l.map f) = (ofKey (fun b => key (f b)) k l).map f := by
  rw [ofKey, ofKey, List.filter_map]
  rfl

end OfKey

def greatest (rank : α → T) (l : List α) : Option α := l.argmax rank

section Greatest
omit [DecidableEq K]
variable (rank : α → T)

@[simp] theorem greatest_nil : greatest rank [] = none := rfl

@[simp] theorem greatest_singleton (a : α) : greatest rank [a] = some a := rfl

theorem greatest_concat (l : List α) (a : α) :
    greatest rank (l ++ [a]) = match greatest rank l with
      | none => some a
      | some b => if rank b < rank a then some a else some b := by
  rw [greatest, List.argmax_concat]
  cases hl : l.argmax rank <;> simp only [greatest, hl]

theorem greatest_eq_none {l : List α} : greatest rank l = none ↔ l = [] := List.argmax_eq_none

theorem mem_of_greatest {l : List α} {a : α} (h : greatest rank l = some a) : a ∈ l :=
  List.argmax_mem h

theorem greatest_eq_some {l : List α} {a : α} (hmem : a ∈ l) (hmax : ∀ b ∈ l, rank b ≤ rank a)
    (htell : ∀ b ∈ l, rank b = rank a → b = a) : greatest rank l = some a := by
  cases hg : greatest rank l with
  | none =>
    rw [greatest_eq_none] at hg
    rw [hg] at hmem
    cases hmem
  | some b =>
    have hb := mem_of_greatest rank hg
    have hle : rank a ≤ rank b := List.le_of_mem_argmax hmem hg
    rw [htell b hb (le_antisymm (hmax b hb) hle)]

end Greatest

def Above (floor : Option T) (t : T) : Prop := ∀ t' ∈ floor, t' < t

instance (floor : Option T) (t : T) : Decidable (Above floor t) :=
  inferInstanceAs (Decidable (∀ t' ∈ floor, t' < t))

@[simp] theorem above_none (t : T) : Above none t := fun _ h => by cases h

@[simp] theorem above_some (t' t : T) : Above (some t') t ↔ t' < t := by
  simp [Above]

/-- One step of the pass: `a` becomes the winner of its key if it ranks above
the winner so far, or above the floor while there is none. -/
def keepLatest (key : α → Option K) (rank : α → T) (floor : K → Option T) (m : Map K α) (a : α) :
    Map K α :=
  match key a with
  | none => m
  | some k => if Above (((m.get k).map rank).or (floor k)) (rank a) then m.insert k a else m

omit [DecidableEq K] in
theorem greatest_above (rank : α → T) (floor : Option T) (l : List α) :
    greatest rank (l.filter fun a => Above floor (rank a)) =
      (greatest rank l).filter fun a => Above floor (rank a) := by
  induction l using List.reverseRecOn with
  | nil => rfl
  | append_singleton l a ih =>
    rw [List.filter_append, greatest_concat]
    cases hl : greatest rank l with
    | none =>
      rw [(greatest_eq_none rank).1 hl]
      by_cases ha : Above floor (rank a) <;> simp [ha, Option.filter_some]
    | some b =>
      rw [hl, Option.filter_some] at ih
      by_cases hlt : rank b < rank a
      · have hup : Above floor (rank b) → Above floor (rank a) := fun h t ht => (h t ht).trans hlt
        by_cases ha : Above floor (rank a)
        · by_cases hb : Above floor (rank b) <;> simp [ha, hb, hlt, greatest_concat, ih, Option.filter_some]
        · simp [ha, mt hup ha, hlt, ih, Option.filter_some]
      · have hdown : Above floor (rank a) → Above floor (rank b) := fun h t ht =>
          (h t ht).trans_le (not_lt.1 hlt)
        by_cases ha : Above floor (rank a)
        · simp [ha, hdown ha, hlt, greatest_concat, ih, Option.filter_some]
        · by_cases hb : Above floor (rank b) <;> simp [ha, hb, hlt, ih, Option.filter_some]

section Pass
variable (key : α → Option K) (rank : α → T) (floor : K → Option T)

def contenders (k : K) (l : List α) : List α :=
  (ofKey key k l).filter fun a => Above (floor k) (rank a)

theorem contenders_concat (k : K) (l : List α) (a : α) :
    contenders key rank floor k (l ++ [a]) = contenders key rank floor k l ++
      if key a = some k ∧ Above (floor k) (rank a) then [a] else [] := by
  simp only [contenders, ofKey, List.filter_append]
  congr 1
  by_cases hk : key a = some k
  · by_cases ha : Above (floor k) (rank a) <;> simp [hk, ha]
  · simp [hk]

theorem keepLatest_of_key {m : Map K α} {a : α} {k : K} (hk : key a = some k) :
    keepLatest key rank floor m a =
      if Above (((m.get k).map rank).or (floor k)) (rank a) then m.insert k a else m := by
  simp only [keepLatest, hk]

theorem get_foldl_keepLatest (l : List α) (k : K) :
    (l.foldl (keepLatest key rank floor) ∅).get k = greatest rank (contenders key rank floor k l) := by
  induction l using List.reverseRecOn with
  | nil => rfl
  | append_singleton l a ih =>
    rw [List.foldl_concat, contenders_concat]
    by_cases hk : key a = some k
    · rw [keepLatest_of_key key rank floor hk]
      cases hw : greatest rank (contenders key rank floor k l) with
      | none =>
        -- no winner so far: `a` is compared with the floor
        have hnil := (greatest_eq_none rank).1 hw
        rw [ih, hw, hnil]
        by_cases ha : Above (floor k) (rank a)
        · simp [hk, ha, Map.get_insert]
        · simp [hk, ha, ih, hw]
      | some w =>
        rw [ih, hw]
        have hmem : w ∈ contenders key rank floor k l := mem_of_greatest rank hw
        have hfloor : Above (floor k) (rank w) := by
          simp only [contenders, List.mem_filter, decide_eq_true_eq] at hmem
          exact hmem.2
        by_cases ha : rank w < rank a
        · -- above the winner is above the floor
          have habove : Above (floor k) (rank a) := fun t ht => (hfloor t ht).trans ha
          simp [hk, ha, habove, Map.get_insert, greatest_concat, hw]
        · by_cases habove : Above (floor k) (rank a)
          · simp [hk, ha, habove, ih, greatest_concat, hw]
          · simp [hk, ha, habove, ih, hw]
    · have hother : (keepLatest key rank floor (l.foldl (keepLatest key rank floor) ∅) a).get k =
          (l.foldl (keepLatest key rank floor) ∅).get k := by
        simp only [keepLatest]
        split
        · rfl
        · rename_i k' hk'
          have hne : k ≠ k' := fun h => hk (h ▸ hk')
          split
          · rw [Map.get_insert, if_neg hne]
          · rfl
      rw [hother, ih]
      simp [hk]

end Pass

theorem greatest_map {β : Type} (rank : β → T) (f : α → β) (l : List α) :
    greatest rank (l.map f) = (greatest (fun a => rank (f a)) l).map f := by
  induction l using List.reverseRecOn with
  | nil => rfl
  | append_singleton l a ih =>
    rw [List.map_append, List.map_singleton, greatest_concat, greatest_concat, ih]
    cases greatest (fun a => rank (f a)) l with
    | none => rfl
    | some w => by_cases h : rank (f w) < rank (f a) <;> simp [h]

theorem greatest_comp {T' : Type} [LinearOrder T'] (rank : α → T) (g : T → T')
    (hg : ∀ t t', g t < g t' ↔ t < t') (l : List α) :
    greatest (fun a => g (rank a)) l = greatest rank l := by
  induction l using List.reverseRecOn with
  | nil => rfl
  | append_singleton l a ih =>
    rw [greatest_concat, greatest_concat, ih]
    simp only [hg]

theorem greatest_append (rank : α → T) (l l' : List α) :
    greatest rank (l ++ l') =
      (greatest rank (l'.filter fun a => Above ((greatest rank l).map rank) (rank a))).or
        (greatest rank l) := by
  induction l' using List.reverseRecOn with
  | nil => simp
  | append_singleton l' a ih =>
    rw [← List.append_assoc, greatest_concat, ih, List.filter_append]
    cases hl : greatest rank l with
    | none =>
      simp only [Option.map_none, above_none, decide_true, List.filter_true, Option.or_none,
        List.filter_cons_of_pos, List.filter_nil, greatest_concat]
    | some b =>
      simp only [Option.map_some, above_some]
      cases hw : greatest rank (l'.filter fun a => rank b < rank a) with
      | none =>
        have hnil := (greatest_eq_none rank).1 hw
        by_cases ha : rank b < rank a <;> simp [hnil, ha]
      | some w =>
        have hmem := mem_of_greatest rank hw
        simp only [List.mem_filter, decide_eq_true_eq] at hmem
        by_cases ha : rank w < rank a
        · simp [ha, hmem.2.trans ha, greatest_concat, hw]
        · by_cases hba : rank b < rank a <;> simp [ha, hba, greatest_concat, hw]

theorem greatest_append_of_max (rank : α → T) (l : List α) {l' : List α} {a : α} (hmem : a ∈ l')
    (hmax : ∀ b ∈ l', rank b ≤ rank a) (htell : ∀ b ∈ l', rank b = rank a → b = a) :
    greatest rank (l ++ l') = greatest rank (l ++ [a]) := by
  rw [greatest_append, greatest_append]
  congr 1
  by_cases ha : Above ((greatest rank l).map rank) (rank a)
  · have hfirst : greatest rank (l'.filter fun b => Above ((greatest rank l).map rank) (rank b)) = some a := by
      refine greatest_eq_some rank (List.mem_filter.2 ⟨hmem, by simpa using ha⟩) ?_ ?_
      · intro b hb
        exact hmax b (List.mem_filter.1 hb).1
      · intro b hb
        exact htell b (List.mem_filter.1 hb).1
    rw [hfirst, List.filter_cons_of_pos (by simpa using ha)]
    rfl
  · have hnone : (l'.filter fun b => Above ((greatest rank l).map rank) (rank b)) = [] := by
      rw [List.filter_eq_nil_iff]
      intro b hb habove
      refine ha fun t ht => ?_
      have hlt : t < rank b := of_decide_eq_true habove t ht
      exact hlt.trans_le (hmax b hb)
    rw [hnone, List.filter_cons_of_neg (by simpa using ha)]
    rfl

theorem greatest_ofKey_append (key : α → Option K) (rank : α → T) (floor : K → Option T) (k : K)
    (l l' : List α) (hfloor : floor k = (greatest rank (ofKey key k l)).map rank) :
    greatest rank (ofKey key k (l ++ l')) =
      (greatest rank (contenders key rank floor k l')).or (greatest rank (ofKey key k l)) := by
  rw [ofKey_append, greatest_append, contenders, hfloor]

/-! ## Winners named by their place -/

omit [DecidableEq K] [LinearOrder T] in
theorem filter_eq_singleton {β : Type} [DecidableEq β] {f : α → β} :
    ∀ {l : List α} {w : α}, (l.map f).Nodup → w ∈ l → (l.filter fun a => f a = f w) = [w]
  | [], _, _, h => by cases h
  | a :: l, w, hnd, hw => by
    rw [List.map_cons, List.nodup_cons] at hnd
    rcases List.mem_cons.1 hw with rfl | hw
    · have hrest : (l.filter fun b => f b = f w) = [] := by
        rw [List.filter_eq_nil_iff]
        intro b hb heq
        exact hnd.1 (List.mem_map.2 ⟨b, hb, by simpa using heq⟩)
      rw [List.filter_cons_of_pos (by simp), hrest]
    · have hne : f a ≠ f w := fun h => hnd.1 (h ▸ List.mem_map_of_mem hw)
      rw [List.filter_cons_of_neg (by simpa using hne), filter_eq_singleton hnd.2 hw]

omit [DecidableEq K] [LinearOrder T] in
theorem nodup_places (l : List α) : (l.zipIdx.map Prod.snd).Nodup := by
  rw [List.zipIdx_map_snd]
  exact List.nodup_range'

section Places
variable {W : Type} (key : α → Option K) (rank : α → T) (floor : K → Option T) (l : List α)

def winnerAt (k : K) : Option (α × Nat) :=
  greatest (fun p => rank p.1)
    (contenders (fun p : α × Nat => key p.1) (fun p => rank p.1) floor k l.zipIdx)

theorem winnerAt_map_fst (k : K) :
    (winnerAt key rank floor l k).map Prod.fst = greatest rank (contenders key rank floor k l) := by
  have hl : l = l.zipIdx.map Prod.fst := (List.zipIdx_map_fst 0 l).symm
  conv_rhs => rw [hl]
  rw [contenders, ofKey_map, List.filter_map, greatest_map]
  rfl

theorem mem_of_winnerAt {k : K} {p : α × Nat} (h : winnerAt key rank floor l k = some p) :
    p ∈ l.zipIdx ∧ key p.1 = some k := by
  have hmem := mem_of_greatest _ h
  simp only [contenders, List.mem_filter, mem_ofKey] at hmem
  exact hmem.1

section Mask
variable {winners : Map K W} (toW : α × Nat → W) (place : W → Nat)
  (hplace : ∀ p, place (toW p) = p.2)
  (hw : ∀ k, winners.get k = (winnerAt key rank floor l k).map toW) (keep : K → W → Bool)
include hplace hw

theorem any_winners {k : K} {p : α × Nat} (hp : p ∈ l.zipIdx) (hk : key p.1 = some k) :
    (winners.toList.any fun kw => place kw.2 = p.2 && keep kw.1 kw.2) =
      (winnerAt key rank floor l k).any fun w => w.2 = p.2 && keep k (toW w) := by
  rw [Bool.eq_iff_iff, List.any_eq_true, Option.any_eq_true]
  constructor
  · rintro ⟨⟨k', w⟩, hmem, htest⟩
    rw [Map.mem_toList, hw, Option.map_eq_some_iff] at hmem
    obtain ⟨q, hq, rfl⟩ := hmem
    simp only [hplace, Bool.and_eq_true, decide_eq_true_eq] at htest
    -- the place names one row, hence one key
    obtain ⟨hqmem, hqkey⟩ := mem_of_winnerAt key rank floor l hq
    have hqp : q = p := List.inj_on_of_nodup_map (nodup_places l) hqmem hp htest.1
    subst hqp
    obtain rfl : k' = k := Option.some.inj (hqkey.symm.trans hk)
    exact ⟨q, hq, by simpa using htest.2⟩
  · rintro ⟨q, hq, htest⟩
    refine ⟨(k, toW q), (Map.mem_toList ..).2 (by rw [hw, hq]; rfl), ?_⟩
    simpa only [hplace] using htest

theorem ofKey_filter_winners (k : K) :
    ofKey (fun p : α × Nat => key p.1) k
        (l.zipIdx.filter fun p => winners.toList.any fun kw => place kw.2 = p.2 && keep kw.1 kw.2) =
      ((winnerAt key rank floor l k).filter fun p => keep k (toW p)).toList := by
  have hfilter : ofKey (fun p : α × Nat => key p.1) k
      (l.zipIdx.filter fun p => winners.toList.any fun kw => place kw.2 = p.2 && keep kw.1 kw.2) =
      (ofKey (fun p : α × Nat => key p.1) k l.zipIdx).filter fun p =>
        (winnerAt key rank floor l k).any fun w => w.2 = p.2 && keep k (toW w) := by
    rw [ofKey, List.filter_comm]
    refine List.filter_congr fun p hp => ?_
    rw [← ofKey, mem_ofKey] at hp
    exact any_winners key rank floor l toW place hplace hw keep hp.1 hp.2
  rw [hfilter]
  cases hwin : winnerAt key rank floor l k with
  | none => simp
  | some w =>
    obtain ⟨hmem, hkey⟩ := mem_of_winnerAt key rank floor l hwin
    cases hkeep : keep k (toW w) with
    | false => simp [hkeep, Option.filter_some]
    | true =>
      have hnd : ((ofKey (fun p : α × Nat => key p.1) k l.zipIdx).map Prod.snd).Nodup :=
        (nodup_places l).sublist ((List.filter_sublist).map _)
      have hone := filter_eq_singleton hnd ((mem_ofKey _ _).2 ⟨hmem, hkey⟩)
      rw [Option.filter_some, if_pos hkeep, Option.toList_some, ← hone]
      simp [hkeep, eq_comm]

end Mask

end Places

end Skippr
