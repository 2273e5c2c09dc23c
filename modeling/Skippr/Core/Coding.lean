import Mathlib

/-!
# Codings by bytes

A coding writes a value in such a way that its reader finds the end of it,
whatever follows. Codings of parts give codings of pairs, options and lists, so
that one for a record is put together from its fields.

* `Coding.dec_enc`: the law.
* `Coding.read_enc`: a value that stands alone is read back.
-/
namespace Skippr

structure Coding (α : Type) where
  enc : α → List UInt8
  dec : List UInt8 → Option (α × List UInt8)
  dec_enc : ∀ a rest, dec (enc a ++ rest) = some (a, rest)

namespace Coding
variable {α β : Type}

def read (c : Coding α) (bytes : List UInt8) : Option α := (c.dec bytes).map Prod.fst

theorem read_enc (c : Coding α) (a : α) : c.read (c.enc a) = some a := by
  have h := c.dec_enc a []
  rw [List.append_nil] at h
  rw [read, h, Option.map_some]

def comap (c : Coding β) (f : α → β) (g : β → Option α) (h : ∀ a, g (f a) = some a) : Coding α where
  enc a := c.enc (f a)
  dec bytes := (c.dec bytes).bind fun x => (g x.1).map fun a => (a, x.2)
  dec_enc a rest := by rw [c.dec_enc, Option.bind_some, h, Option.map_some]

def pair (c : Coding α) (d : Coding β) : Coding (α × β) where
  enc x := c.enc x.1 ++ d.enc x.2
  dec bytes := (c.dec bytes).bind fun x => (d.dec x.2).map fun y => ((x.1, y.1), y.2)
  dec_enc x rest := by
    rw [List.append_assoc, c.dec_enc, Option.bind_some, d.dec_enc, Option.map_some]

/-! ## Numbers -/

def decNat : List UInt8 → Option (Nat × List UInt8)
  | [] => none
  | b :: bytes => if b = 0 then some (0, bytes) else (decNat bytes).map fun x => (x.1 + 1, x.2)

theorem decNat_replicate (n : Nat) (rest : List UInt8) :
    decNat (List.replicate n 1 ++ 0 :: rest) = some (n, rest) := by
  induction n with
  | zero => rfl
  | succ n ih =>
    rw [List.replicate_succ, List.cons_append, decNat, if_neg (by decide), ih]
    rfl

def nat : Coding Nat where
  enc n := List.replicate n 1 ++ [0]
  dec := decNat
  dec_enc n rest := by
    rw [List.append_assoc]
    exact decNat_replicate n rest

def char : Coding Char where
  enc ch := [UInt8.ofNat ch.toNat, UInt8.ofNat (ch.toNat / 256), UInt8.ofNat (ch.toNat / 65536)]
  dec
    | b₀ :: b₁ :: b₂ :: rest => some (Char.ofNat (b₀.toNat + 256 * b₁.toNat + 65536 * b₂.toNat), rest)
    | _ => none
  dec_enc ch rest := by
    have hlt : ch.toNat < 1114112 := by
      rcases ch.valid with h | h
      · exact Nat.lt_trans h (by decide)
      · exact h.2
    have hval : ch.toNat % 256 + 256 * (ch.toNat / 256 % 256) + 65536 * (ch.toNat / 65536 % 256) =
        ch.toNat := by omega
    simp only [List.cons_append, List.nil_append, UInt8.toNat_ofNat', Option.some.injEq,
      Prod.mk.injEq, and_true]
    rw [hval, Char.ofNat_toNat]

/-! ## Lists -/

section List
variable (c : Coding α)

def encList : List α → List UInt8
  | [] => [0]
  | a :: l => 1 :: (c.enc a ++ encList l)

def decList : Nat → List UInt8 → Option (List α × List UInt8)
  | 0, _ => none
  | _, [] => none
  | fuel + 1, b :: bytes =>
    if b = 0 then some ([], bytes)
    else (c.dec bytes).bind fun x => (decList fuel x.2).map fun y => (x.1 :: y.1, y.2)

theorem decList_encList (rest : List UInt8) : ∀ (l : List α) (fuel : Nat), l.length < fuel →
    c.decList fuel (c.encList l ++ rest) = some (l, rest)
  | _, 0, h => by omega
  | [], fuel + 1, _ => rfl
  | a :: l, fuel + 1, h => by
    rw [List.length_cons] at h
    rw [encList, List.cons_append, List.append_assoc, decList, if_neg (by decide), c.dec_enc,
      Option.bind_some, decList_encList rest l fuel (by omega), Option.map_some]

theorem length_lt_encList : ∀ l : List α, l.length < (c.encList l).length
  | [] => Nat.zero_lt_one
  | a :: l => by
    have ih := length_lt_encList l
    rw [encList, List.length_cons, List.length_cons, List.length_append]
    omega

def list : Coding (List α) where
  enc := c.encList
  dec bytes := c.decList bytes.length bytes
  dec_enc l rest := by
    have hlen := c.length_lt_encList l
    apply c.decList_encList
    rw [List.length_append]
    omega

def option : Coding (Option α) :=
  c.list.comap Option.toList (fun l => some l.head?) fun o => by cases o <;> rfl

end List

end Coding
end Skippr
