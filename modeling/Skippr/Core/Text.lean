import Mathlib

/-!
# Text as lists of characters

The few string operations the encodings are made of, with the facts a round
trip needs.

* `rsplitOnce_append`: splitting at the last separator undoes joining with it.
* `parseU64_showNat`: parsing a decimal rendering gives the number back.
* `textRank_injective`: texts can be numbered.
-/
namespace Skippr

abbrev Text := List Char

instance decidableMemText (x : Text) (l : List Text) : Decidable (x ∈ l) := inferInstance

/-- `str::rsplit_once`: what stands before and after the last `c`. -/
def rsplitOnce (c : Char) : Text → Option (Text × Text)
  | [] => none
  | x :: xs =>
    match rsplitOnce c xs with
    | some (a, b) => some (x :: a, b)
    | none => if x = c then some ([], xs) else none

variable {c : Char} {n : Nat}

theorem rsplitOnce_eq_none : ∀ {l : Text}, c ∉ l → rsplitOnce c l = none
  | [], _ => rfl
  | x :: xs, h => by
    simp only [List.mem_cons, not_or] at h
    simp only [rsplitOnce, rsplitOnce_eq_none h.2, if_neg (Ne.symm h.1)]

theorem rsplitOnce_append {b : Text} (hb : c ∉ b) :
    ∀ a : Text, rsplitOnce c (a ++ c :: b) = some (a, b)
  | [] => by simp [rsplitOnce, rsplitOnce_eq_none hb]
  | x :: a => by simp [rsplitOnce, rsplitOnce_append hb a]

/-- `str::split_once`: what stands before and after the first `c`. -/
def splitOnce (c : Char) : Text → Option (Text × Text)
  | [] => none
  | x :: xs => if x = c then some ([], xs) else (splitOnce c xs).map fun ab => (x :: ab.1, ab.2)

theorem splitOnce_eq_none : ∀ {l : Text}, c ∉ l → splitOnce c l = none
  | [], _ => rfl
  | x :: xs, h => by
    simp only [List.mem_cons, not_or] at h
    simp only [splitOnce, splitOnce_eq_none h.2, if_neg (Ne.symm h.1), Option.map_none]

theorem splitOnce_eq_some : ∀ {l a b : Text}, splitOnce c l = some (a, b) → l = a ++ c :: b
  | [], _, _, h => nomatch h
  | x :: xs, a, b, h => by
    rw [splitOnce] at h
    split at h
    · rename_i hx
      cases h
      rw [hx]
      rfl
    · obtain ⟨⟨a', b'⟩, hxs, hab⟩ := Option.map_eq_some_iff.1 h
      cases hab
      rw [splitOnce_eq_some hxs]
      rfl

theorem splitOnce_append {a : Text} (ha : c ∉ a) (b : Text) :
    splitOnce c (a ++ c :: b) = some (a, b) := by
  induction a with
  | nil => simp [splitOnce]
  | cons x a ih =>
    simp only [List.mem_cons, not_or] at ha
    simp [splitOnce, Ne.symm ha.1, ih ha.2]

/-- The decimal rendering of a number. -/
def showNat (n : Nat) : Text := Nat.toDigits 10 n

def showInt : Int → Text
  | .ofNat n => showNat n
  | .negSucc n => '-' :: showNat (n + 1)

/-- Decimal digits of an unsigned number, refused past 64 bits. -/
def parseDigits (l : Text) : Option Nat :=
  if l ≠ [] ∧ l.all Char.isDigit = true ∧ Nat.ofDigitChars 10 l 0 < 2 ^ 64 then
    some (Nat.ofDigitChars 10 l 0)
  else none

/-- `str::parse::<u64>`: digits, with an optional leading plus sign. -/
def parseU64 : Text → Option Nat
  | '+' :: l => parseDigits l
  | l => parseDigits l

theorem showNat_isDigit (h : c ∈ showNat n) : c.isDigit = true :=
  Nat.isDigit_of_mem_toDigits (by decide) (by decide) h

theorem notMem_showNat (h : c.isDigit = false) : c ∉ showNat n := by
  intro hc
  rw [showNat_isDigit hc] at h
  cases h

theorem showNat_ne_nil (n : Nat) : showNat n ≠ [] := by
  intro h
  have hv : Nat.ofDigitChars 10 (showNat n) 0 = n := Nat.ofDigitChars_toDigits (by decide) (by decide)
  rw [h] at hv
  subst hv
  cases h

theorem parseDigits_showNat (h : n < 2 ^ 64) : parseDigits (showNat n) = some n := by
  have hv : Nat.ofDigitChars 10 (showNat n) 0 = n := Nat.ofDigitChars_toDigits (by decide) (by decide)
  unfold parseDigits
  rw [if_pos, hv]
  exact ⟨showNat_ne_nil n, List.all_eq_true.2 fun c hc => showNat_isDigit hc, hv.symm ▸ h⟩

theorem parseU64_showNat (h : n < 2 ^ 64) : parseU64 (showNat n) = some n := by
  have hplus : ∀ l, showNat n ≠ '+' :: l := fun l hl =>
    notMem_showNat (n := n) (c := '+') rfl (hl ▸ List.mem_cons_self)
  unfold parseU64
  split
  · rename_i l heq
    exact absurd heq (hplus l)
  · exact parseDigits_showNat h

/-- A number for each text. -/
def textRank : Text → Nat
  | [] => 0
  | c :: cs => Nat.pair c.toNat (textRank cs) + 1

theorem textRank_injective : Function.Injective textRank := by
  intro a
  induction a with
  | nil =>
    intro b h
    cases b with
    | nil => rfl
    | cons d ds => simp [textRank] at h
  | cons c cs ih =>
    intro b h
    cases b with
    | nil => simp [textRank] at h
    | cons d ds =>
      obtain ⟨hc, hcs⟩ := Nat.pair_eq_pair.mp (Nat.succ.inj h)
      rw [ih hcs, Char.toNat_inj.mp hc]

end Skippr
