import Mathlib

/-!
# Big-endian bytes and their order

`beBytes w n`: the number in `w` bytes, the most significant first. Byte strings
are compared byte by byte, and a proper initial part comes first.

* `beBytes_lt_iff`: of one width, the bytes are ordered as the numbers.
* `ofBeBytes_beBytes`: reading the bytes gives the number back.
* `beBytes_lt_wider`: a short string against the bytes of a wider number is a
  comparison with the number's high part.
-/
namespace Skippr

def beBytes : Nat → Nat → List (Fin 256)
  | 0, _ => []
  | w + 1, n => Fin.ofNat 256 (n / 256 ^ w) :: beBytes w n

@[simp] theorem length_beBytes (w n : Nat) : (beBytes w n).length = w := by
  induction w with
  | zero => rfl
  | succ w ih => rw [beBytes, List.length_cons, ih]

theorem beBytes_add (w v n : Nat) : beBytes (w + v) n = beBytes w (n / 256 ^ v) ++ beBytes v n := by
  induction w with
  | zero => rw [Nat.zero_add, beBytes, List.nil_append]
  | succ w ih =>
    rw [show w + 1 + v = w + v + 1 by omega, beBytes, beBytes, ih, List.cons_append,
      Nat.div_div_eq_div_mul, ← pow_add, Nat.add_comm v w]

theorem beBytes_mod (w n : Nat) : beBytes w n = beBytes w (n % 256 ^ w) := by
  induction w generalizing n with
  | zero => rfl
  | succ w ih =>
    have hdiv : n % 256 ^ (w + 1) / 256 ^ w = n / 256 ^ w % 256 := by
      rw [pow_succ, Nat.mod_mul_right_div_self]
    have hmod : n % 256 ^ (w + 1) % 256 ^ w = n % 256 ^ w := by
      rw [pow_succ, Nat.mod_mul_right_mod]
    rw [beBytes, beBytes, hdiv, ih (n % 256 ^ (w + 1)), hmod, ← ih n]
    congr 1
    apply Fin.ext
    simp [Fin.ofNat]

def ofBeBytes (bytes : List (Fin 256)) : Nat := bytes.foldl (fun n b => 256 * n + b.val) 0

theorem ofBeBytes_beBytes {w n : Nat} (h : n < 256 ^ w) : ofBeBytes (beBytes w n) = n := by
  -- What was read before stands in front of the `w` bytes to come.
  have hfold : ∀ (w high : Nat),
      (beBytes w n).foldl (fun m b => 256 * m + b.val) high = high * 256 ^ w + n % 256 ^ w := by
    intro w
    induction w with
    | zero =>
      intro high
      rw [beBytes, List.foldl_nil, pow_zero, Nat.mul_one, Nat.mod_one, Nat.add_zero]
    | succ w ih =>
      intro high
      have hbyte : (Fin.ofNat 256 (n / 256 ^ w)).val = n / 256 ^ w % 256 := rfl
      have hmod : n % 256 ^ (w + 1) = n % 256 ^ w + 256 ^ w * (n / 256 ^ w % 256) := by
        rw [pow_succ, Nat.mod_mul]
      rw [beBytes, List.foldl_cons, ih, hbyte, hmod]
      ring
  rw [ofBeBytes, hfold, Nat.zero_mul, Nat.zero_add, Nat.mod_eq_of_lt h]

theorem beBytes_lt_iff {w a b : Nat} (ha : a < 256 ^ w) (hb : b < 256 ^ w) :
    beBytes w a < beBytes w b ↔ a < b := by
  induction w generalizing a b with
  | zero =>
    have : a = b := by
      rw [pow_zero] at ha hb
      omega
    subst this
    simp
  | succ w ih =>
    have hpos : 0 < 256 ^ w := by positivity
    have hhead : ∀ n, n < 256 ^ (w + 1) → n / 256 ^ w < 256 := by
      intro n hn
      rw [Nat.div_lt_iff_lt_mul hpos, Nat.mul_comm]
      exact hn
    have hbyte : ∀ n, n < 256 ^ (w + 1) → (Fin.ofNat 256 (n / 256 ^ w)).val = n / 256 ^ w := by
      intro n hn
      exact Nat.mod_eq_of_lt (hhead n hn)
    rw [beBytes, beBytes, List.cons_lt_cons_iff, Fin.lt_def, Fin.ext_iff, hbyte a ha, hbyte b hb,
      beBytes_mod w a, beBytes_mod w b, ih (Nat.mod_lt _ hpos) (Nat.mod_lt _ hpos)]
    have hadiv := Nat.div_add_mod a (256 ^ w)
    have hbdiv := Nat.div_add_mod b (256 ^ w)
    have hamod := Nat.mod_lt a hpos
    have hbmod := Nat.mod_lt b hpos
    constructor
    · rintro (hlt | ⟨heq, hlt⟩)
      · exact Nat.lt_of_div_lt_div hlt
      · rw [heq] at hadiv
        omega
    · intro hlt
      have hle : a / 256 ^ w ≤ b / 256 ^ w := Nat.div_le_div_right (Nat.le_of_lt hlt)
      rcases Nat.lt_or_eq_of_le hle with hdiv | hdiv
      · exact .inl hdiv
      · right
        rw [hdiv] at hadiv
        exact ⟨hdiv, by omega⟩

theorem beBytes_inj {w a b : Nat} (ha : a < 256 ^ w) (hb : b < 256 ^ w)
    (h : beBytes w a = beBytes w b) : a = b := by
  have hab := (beBytes_lt_iff ha hb).not.1 (by rw [h]; exact lt_irrefl _)
  have hba := (beBytes_lt_iff hb ha).not.1 (by rw [h]; exact lt_irrefl _)
  omega

theorem lt_append_iff {l l' r : List (Fin 256)} (hlen : l.length = l'.length) (hr : r ≠ []) :
    l < l' ++ r ↔ l < l' ∨ l = l' := by
  induction l generalizing l' with
  | nil =>
    obtain rfl := List.length_eq_zero_iff.1 hlen.symm
    obtain ⟨x, xs, rfl⟩ := List.exists_cons_of_ne_nil hr
    simp
  | cons x l ih =>
    cases l' with
    | nil => cases hlen
    | cons y l' =>
      rw [List.cons_append, List.cons_lt_cons_iff, List.cons_lt_cons_iff, ih (Nat.succ.inj hlen),
        List.cons.injEq, and_or_left, or_assoc]

theorem beBytes_lt_wider {w v a n : Nat} (ha : a < 256 ^ w) (hn : n < 256 ^ (w + v)) (hv : 0 < v) :
    beBytes w a < beBytes (w + v) n ↔ a * 256 ^ v ≤ n := by
  have hpos : 0 < 256 ^ v := by positivity
  have hhigh : n / 256 ^ v < 256 ^ w := by
    rw [Nat.div_lt_iff_lt_mul hpos, ← pow_add]
    exact hn
  have htail : beBytes v n ≠ [] := by
    intro hnil
    have := length_beBytes v n
    rw [hnil, List.length_nil] at this
    omega
  rw [beBytes_add, lt_append_iff (by rw [length_beBytes, length_beBytes]) htail,
    beBytes_lt_iff ha hhigh, ← Nat.le_div_iff_mul_le hpos]
  constructor
  · rintro (hlt | heq)
    · exact Nat.le_of_lt hlt
    · exact Nat.le_of_eq (beBytes_inj ha hhigh heq)
  · intro hle
    rcases Nat.lt_or_eq_of_le hle with hlt | heq
    · exact .inl hlt
    · rw [heq]
      exact .inr rfl

end Skippr
