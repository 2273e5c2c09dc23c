import Mathlib

/-!
# Words: runs of letters between separators

What is left of a text when every run of separators becomes one joining letter
and the ends are trimmed, in any alphabet.
-/
namespace Skippr

variable {α : Type}

/-! ## Passes -/

/-- Every run of `p` becomes one `r`; the flag says that a run has begun. -/
def replaceRuns (p : α → Bool) (r : α) : Bool → List α → List α
  | _, [] => []
  | inRun, x :: xs =>
    if p x then
      if inRun then replaceRuns p r true xs else r :: replaceRuns p r true xs
    else x :: replaceRuns p r false xs

def trimEnd (p : α → Bool) : List α → List α
  | [] => []
  | x :: xs =>
    match trimEnd p xs with
    | [] => if p x then [] else [x]
    | y :: ys => x :: y :: ys

variable {l w : List α} {ws : List (List α)}

theorem trimEnd_cons_of_ne_nil {p : α → Bool} (x : α) (h : trimEnd p l ≠ []) :
    trimEnd p (x :: l) = x :: trimEnd p l := by
  cases ht : trimEnd p l with
  | nil => exact absurd ht h
  | cons y ys => simp [trimEnd, ht]

theorem trimEnd_cons_of_false {p : α → Bool} {x : α} (hx : p x = false) (l : List α) :
    trimEnd p (x :: l) = x :: trimEnd p l := by
  cases ht : trimEnd p l with
  | nil => simp [trimEnd, ht, hx]
  | cons y ys => simp [trimEnd, ht]

section
variable [DecidableEq α] {p : α → Bool} {r : α}

theorem replaceRuns_map (inRun : Bool) (l : List α) :
    replaceRuns (fun x => decide (x = r)) r inRun (l.map fun x => if p x then r else x) =
      replaceRuns (fun x => p x || decide (x = r)) r inRun l := by
  induction l generalizing inRun with
  | nil => rfl
  | cons x xs ih =>
    rw [List.map_cons]
    cases hp : p x with
    | true | false => simp [replaceRuns, hp, ih]

theorem replaceRuns_replaceRuns {inner outer : Bool} (h : inner = true → outer = true)
    (l : List α) :
    replaceRuns (fun x => decide (x = r)) r outer (replaceRuns p r inner l) =
      replaceRuns (fun x => p x || decide (x = r)) r outer l := by
  induction l generalizing inner outer with
  | nil => rfl
  | cons x xs ih =>
    cases hp : p x with
    | true =>
      cases inner with
      | true =>
        rw [h rfl]
        simp [replaceRuns, hp, ih]
      | false => cases outer <;> simp [replaceRuns, hp, ih]
    | false =>
      by_cases hx : x = r
      · subst hx
        cases outer <;> simp [replaceRuns, hp, ih]
      · simp [replaceRuns, hp, hx, ih]

end

/-! ## Words -/

def startsWord (sep : α → Bool) : List α → Bool
  | [] => false
  | x :: _ => !sep x

def consWord (x : α) : List (List α) → List (List α)
  | [] => [[x]]
  | w :: ws => (x :: w) :: ws

/-- The maximal runs of letters between separators. -/
def words (sep : α → Bool) : List α → List (List α)
  | [] => []
  | x :: xs =>
    if sep x then words sep xs
    else if startsWord sep xs then consWord x (words sep xs)
    else [x] :: words sep xs

/-- A list of words: none empty, no separator in any. -/
def AreWords (sep : α → Bool) (ws : List (List α)) : Prop :=
  ∀ w ∈ ws, w ≠ [] ∧ ∀ x ∈ w, sep x = false

variable {sep : α → Bool} {r : α}

theorem AreWords.nil : AreWords sep [] := nofun

theorem AreWords.cons (hne : w ≠ []) (hw : ∀ x ∈ w, sep x = false) (hws : AreWords sep ws) :
    AreWords sep (w :: ws) :=
  List.forall_mem_cons.2 ⟨⟨hne, hw⟩, hws⟩

theorem AreWords.tail (h : AreWords sep (w :: ws)) :
    AreWords sep ws := (List.forall_mem_cons.1 h).2

theorem AreWords.append {vs : List (List α)} (h : AreWords sep ws) (h' : AreWords sep vs) :
    AreWords sep (ws ++ vs) := fun w hw => (List.mem_append.mp hw).elim (h w) (h' w)

theorem words_of_startsWord (h : startsWord sep l = true) : ∃ w ws, words sep l = w :: ws := by
  cases l with
  | nil => cases h
  | cons x xs =>
    have hx : sep x = false := by simpa [startsWord] using h
    simp only [words, hx, Bool.false_eq_true, if_false]
    split
    · cases words sep xs <;> exact ⟨_, _, rfl⟩
    · exact ⟨_, _, rfl⟩

theorem areWords_words (sep : α → Bool) (l : List α) : AreWords sep (words sep l) := by
  induction l with
  | nil => exact .nil
  | cons x xs ih =>
    unfold words
    split
    · exact ih
    rename_i hx
    have hx : sep x = false := by simpa using hx
    split
    · rename_i hs
      obtain ⟨w, ws, hw⟩ := words_of_startsWord hs
      rw [hw] at ih ⊢
      refine .cons (List.cons_ne_nil x w) ?_ ih.tail
      exact List.forall_mem_cons.2 ⟨hx, (ih w List.mem_cons_self).2⟩
    · exact .cons (List.cons_ne_nil x []) (List.forall_mem_singleton.2 hx) ih

/-! ## Joining -/

theorem intercalate_ne_nil (hw : w ≠ []) : [r].intercalate (w :: ws) ≠ [] := by
  cases ws with
  | nil => simpa [List.intercalate] using hw
  | cons v vs =>
    rw [List.intercalate_cons_cons]
    simp

theorem words_append (hne : w ≠ []) (hw : ∀ x ∈ w, sep x = false) (hl : startsWord sep l = false) :
    words sep (w ++ l) = w :: words sep l := by
  induction w with
  | nil => exact absurd rfl hne
  | cons x w ih =>
    have hx : sep x = false := hw x List.mem_cons_self
    cases w with
    | nil => simp [words, hx, hl]
    | cons y w =>
      have hy : sep y = false := hw y (List.mem_cons_of_mem x List.mem_cons_self)
      have := ih (List.cons_ne_nil y w) (List.forall_mem_cons.1 hw).2
      rw [List.cons_append, words, hx]
      simp only [Bool.false_eq_true, if_false]
      rw [this, if_pos]
      · rfl
      · simp [startsWord, hy]

theorem words_append_sep {s : α} (hs : sep s = true) (l l' : List α) :
    words sep (l ++ s :: l') = words sep l ++ words sep l' := by
  induction l with
  | nil => simp [words, hs]
  | cons x xs ih =>
    have hstart : startsWord sep (xs ++ s :: l') = startsWord sep xs := by
      cases xs with
      | nil => simp [startsWord, hs]
      | cons y ys => rfl
    rw [List.cons_append, words, words, ih, hstart]
    split
    · rfl
    split
    · rename_i hx
      obtain ⟨w, ws, hw⟩ := words_of_startsWord hx
      rw [hw]
      rfl
    · rfl

/-- **Joined words are read back.** -/
theorem words_intercalate (hr : sep r = true) (h : AreWords sep ws) :
    words sep ([r].intercalate ws) = ws := by
  induction ws with
  | nil => rfl
  | cons w ws ih =>
    obtain ⟨hne, hw⟩ := h w List.mem_cons_self
    cases ws with
    | nil =>
      have := words_append hne hw (l := []) rfl
      simpa [List.intercalate, words] using this
    | cons v ws =>
      rw [List.intercalate_cons_cons, List.append_assoc, List.singleton_append,
        words_append hne hw (by simp [startsWord, hr]), words, if_pos hr,
        ih h.tail]

theorem intercalate_inj (hr : sep r = true) {vs : List (List α)} (hws : AreWords sep ws)
    (hvs : AreWords sep vs) (h : [r].intercalate ws = [r].intercalate vs) : ws = vs := by
  rw [← words_intercalate hr hws, h, words_intercalate hr hvs]

theorem mem_intercalate {x : α} (h : x ∈ [r].intercalate ws) : x = r ∨ ∃ w ∈ ws, x ∈ w := by
  induction ws with
  | nil => cases h
  | cons w ws ih =>
    cases ws with
    | nil => exact .inr ⟨w, List.mem_cons_self, by simpa using h⟩
    | cons v vs =>
      rw [List.intercalate_cons_cons, List.append_assoc] at h
      rcases List.mem_append.mp h with h | h
      · exact .inr ⟨w, List.mem_cons_self, h⟩
      rcases List.mem_cons.mp h with h | h
      · exact .inl h
      · refine (ih h).imp_right ?_
        rintro ⟨u, hu, hx⟩
        exact ⟨u, List.mem_cons_of_mem w hu, hx⟩

theorem mem_intercalate_of_mem {x : α} (hw : w ∈ ws) (hx : x ∈ w) : x ∈ [r].intercalate ws := by
  induction ws with
  | nil => cases hw
  | cons v vs ih =>
    cases vs with
    | nil =>
      cases List.mem_singleton.1 hw
      simpa [List.intercalate] using hx
    | cons u us =>
      rw [List.intercalate_cons_cons, List.append_assoc]
      rcases List.mem_cons.1 hw with rfl | hw
      · exact List.mem_append_left _ hx
      · exact List.mem_append_right _ (List.mem_append_right _ (ih hw))

theorem words_dropWhile_intercalate {d : α → Bool} (hr : sep r = true) (hd : d r = false)
    (h : AreWords sep (w :: ws)) :
    words sep (([r].intercalate (w :: ws)).dropWhile d) =
      if w.dropWhile d = [] then ws else w.dropWhile d :: ws := by
  obtain ⟨-, hw⟩ := h w List.mem_cons_self
  obtain ⟨rest, hrest, hstart, hdrop, hwords⟩ : ∃ rest, [r].intercalate (w :: ws) = w ++ rest ∧
      startsWord sep rest = false ∧ rest.dropWhile d = rest ∧ words sep rest = ws := by
    cases ws with
    | nil => exact ⟨[], by simp [List.intercalate], rfl, rfl, rfl⟩
    | cons v vs =>
      refine ⟨r :: [r].intercalate (v :: vs), by simp, by simp [startsWord, hr], ?_, ?_⟩
      · simp [hd]
      · rw [words, if_pos hr, words_intercalate hr h.tail]
  rw [hrest, List.dropWhile_append]
  by_cases hnil : w.dropWhile d = []
  · simp [hnil, hdrop, hwords]
  · rw [if_neg (by simpa using hnil), if_neg hnil]
    rw [words_append hnil (fun x hx => hw x ((List.dropWhile_sublist d).subset hx)) hstart, hwords]

/-! ## The passes leave the words -/

theorem replaceRuns_of_startsWord (h : startsWord sep l = true) (inRun : Bool) :
    replaceRuns sep r inRun l = replaceRuns sep r true l := by
  cases l with
  | nil => rfl
  | cons x xs =>
    have hx : sep x = false := by simpa [startsWord] using h
    simp [replaceRuns, hx]

theorem dropWhile_replaceRuns_of_letters {d : α → Bool} (hd : ∀ x, sep x = true → d x = false)
    (hr : sep r = true) (l : List α) :
    (replaceRuns sep r false l).dropWhile d = replaceRuns sep r false (l.dropWhile d) := by
  induction l with
  | nil => rfl
  | cons x xs ih =>
    cases hx : sep x with
    | true =>
      rw [List.dropWhile_cons_of_neg (by simp [hd x hx])]
      simp only [replaceRuns, hx, if_true, Bool.false_eq_true, if_false]
      rw [List.dropWhile_cons_of_neg (by simp [hd r hr])]
    | false =>
      simp only [replaceRuns, hx, Bool.false_eq_true, if_false]
      cases hdx : d x with
      | true => rw [List.dropWhile_cons_of_pos hdx, List.dropWhile_cons_of_pos hdx, ih]
      | false =>
        rw [List.dropWhile_cons_of_neg (by simp [hdx]), List.dropWhile_cons_of_neg (by simp [hdx])]
        simp [replaceRuns, hx]

/-! ## Words and punctuation -/

/-- What is left when every word becomes one letter. -/
def punctuation (sep : α → Bool) (r : α) : List α → List α := replaceRuns (fun x => !sep x) r false

theorem words_cons_inj {x y : α} {xs ys : List α} (hx : sep x = false) (hy : sep y = false)
    (h : words sep (x :: xs) = words sep (y :: ys)) :
    x = y ∧ startsWord sep xs = startsWord sep ys ∧ words sep xs = words sep ys := by
  have hne : ∀ l w ws, words sep l = w :: ws → w ≠ [] := by
    intro l w ws hw
    exact (areWords_words sep l w (hw ▸ List.mem_cons_self)).1
  simp only [words, hx, hy, Bool.false_eq_true, if_false] at h
  split at h <;> split at h
  · rename_i hs hs'
    obtain ⟨w, ws, hw⟩ := words_of_startsWord hs
    obtain ⟨w', ws', hw'⟩ := words_of_startsWord hs'
    rw [hw, hw', consWord, consWord] at h
    simp_all
  · rename_i hs hs'
    obtain ⟨w, ws, hw⟩ := words_of_startsWord hs
    rw [hw, consWord] at h
    exact absurd (List.cons.inj (List.cons.inj h).1).2 (hne xs w ws hw)
  · rename_i hs hs'
    obtain ⟨w, ws, hw⟩ := words_of_startsWord hs'
    rw [hw, consWord] at h
    exact absurd (List.cons.inj (List.cons.inj h).1).2.symm (hne ys w ws hw)
  · simp_all

/-- **Words and punctuation make the text.** -/
theorem eq_of_words (hr : sep r = false) {l l' : List α} (hwords : words sep l = words sep l')
    (hpunct : punctuation sep r l = punctuation sep r l') : l = l' := by
  -- Inside a word, both texts must go on with it or both end it.
  suffices h : ∀ (l l' : List α) (inWord : Bool), (inWord = true → startsWord sep l = startsWord sep l') →
      words sep l = words sep l' →
      replaceRuns (fun x => !sep x) r inWord l = replaceRuns (fun x => !sep x) r inWord l' → l = l' from
    h l l' false nofun hwords hpunct
  intro l
  induction l with
  | nil =>
    intro l' inWord hstart _ hruns
    cases l' with
    | nil => rfl
    | cons y ys => cases hy : sep y <;> cases inWord <;> simp_all [replaceRuns, startsWord]
  | cons x xs ih =>
    intro l' inWord hstart hwords hruns
    cases l' with
    | nil => cases hx : sep x <;> cases inWord <;> simp_all [replaceRuns, startsWord]
    | cons y ys =>
      cases hx : sep x with
      | true =>
        have hy : sep y = true := by
          cases hy : sep y with
          | true => rfl
          | false => cases inWord <;> simp_all [replaceRuns, startsWord]
        simp only [replaceRuns, hx, hy, Bool.not_true, Bool.false_eq_true, if_false,
          List.cons.injEq] at hruns
        simp only [words, hx, hy, if_true] at hwords
        rw [hruns.1, ih ys false nofun hwords hruns.2]
      | false =>
        have hy : sep y = false := by
          cases hy : sep y with
          | false => rfl
          | true => cases inWord <;> simp_all [replaceRuns, startsWord]
        obtain ⟨rfl, hstarts, hwords⟩ := words_cons_inj hx hy hwords
        have hruns : replaceRuns (fun x => !sep x) r true xs = replaceRuns (fun x => !sep x) r true ys := by
          cases inWord <;> simpa [replaceRuns, hx] using hruns
        rw [ih ys true (fun _ => hstarts) hwords hruns]

section
variable [DecidableEq α]

theorem dropWhile_replaceRuns (hr : sep r = true) (l : List α) :
    (replaceRuns sep r false l).dropWhile (fun x => decide (x = r)) = replaceRuns sep r true l := by
  -- Inside a run nothing is written before the first letter of a word.
  have hstart : ∀ l, (replaceRuns sep r true l).dropWhile (fun x => decide (x = r)) =
      replaceRuns sep r true l := by
    intro l
    induction l with
    | nil => rfl
    | cons x xs ih =>
      cases hx : sep x with
      | true => simpa [replaceRuns, hx] using ih
      | false =>
        have hne : x ≠ r := by
          rintro rfl
          rw [hr] at hx
          cases hx
        simp [replaceRuns, hx, hne]
  cases l with
  | nil => rfl
  | cons x xs =>
    cases hx : sep x with
    | true =>
      simp only [replaceRuns, hx, if_true, Bool.false_eq_true, if_false]
      rw [List.dropWhile_cons_of_pos (by simp), hstart]
    | false =>
      have := hstart (x :: xs)
      simpa [replaceRuns, hx] using this

theorem trimEnd_replaceRuns (hr : sep r = true) (l : List α) :
    trimEnd (fun x => decide (x = r)) (replaceRuns sep r true l) =
      [r].intercalate (words sep l) := by
  induction l with
  | nil => rfl
  | cons x xs ih =>
    cases hx : sep x with
    | true => simpa [replaceRuns, words, hx] using ih
    | false =>
      have hne : decide (x = r) = false := by
        refine decide_eq_false ?_
        rintro rfl
        rw [hr] at hx
        cases hx
      have hrun : replaceRuns sep r true (x :: xs) = x :: replaceRuns sep r false xs := by
        simp [replaceRuns, hx]
      have hwords : words sep (x :: xs) =
          if startsWord sep xs then consWord x (words sep xs) else [x] :: words sep xs := by
        simp [words, hx]
      rw [hrun, trimEnd_cons_of_false (p := fun y => decide (y = r)) hne, hwords]
      split
      · -- The word goes on.
        rename_i hs
        obtain ⟨w, ws, hw⟩ := words_of_startsWord hs
        rw [replaceRuns_of_startsWord hs, ih, hw]
        exact List.intercalate_cons_cons_left.symm
      · -- The word ends here: with the text, or before a run of separators.
        rename_i hs
        cases xs with
        | nil => rfl
        | cons y ys =>
          have hy : sep y = true := by simpa [startsWord] using hs
          have hskip : replaceRuns sep r true (y :: ys) = replaceRuns sep r true ys := by
            simp [replaceRuns, hy]
          have hsep : replaceRuns sep r false (y :: ys) = r :: replaceRuns sep r true ys := by
            simp [replaceRuns, hy]
          rw [hskip] at ih
          rw [hsep]
          cases hv : words sep (y :: ys) with
          | nil =>
            rw [hv] at ih
            simp [trimEnd, ih, List.intercalate]
          | cons v vs =>
            rw [hv] at ih
            have hv' : v ≠ [] := (areWords_words sep (y :: ys) v (hv ▸ List.mem_cons_self)).1
            rw [trimEnd_cons_of_ne_nil r (ih ▸ intercalate_ne_nil hv'), ih, List.intercalate_cons_cons]
            rfl

/-- **The passes leave the words, joined.** -/
theorem trim_replaceRuns (hr : sep r = true) (l : List α) :
    trimEnd (fun x => decide (x = r))
      ((replaceRuns sep r false l).dropWhile fun x => decide (x = r)) =
      [r].intercalate (words sep l) := by
  rw [dropWhile_replaceRuns hr, trimEnd_replaceRuns hr]

end
end Skippr
