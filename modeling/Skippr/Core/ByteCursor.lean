import Skippr.Core.BigEndian
import Skippr.Core.Text

/-!
# Reading a byte buffer from a cursor

A `ByteCursor` consumes the front of a buffer or fails. `Reads p bytes a` says that
on any buffer that starts with `bytes` it reads `a` and stops right behind them.

* `Reads.bind`: readings in sequence are those of the parts.
* `reads_readU8`, `reads_readBe`, `reads_readText`, `reads_readCString`: the
  primitives read what the encodings wrote.
* `Reads.times`: as many as there are.
-/
namespace Skippr

/-! ## UTF-8 -/

def toUtf8 (t : Text) : List UInt8 := t.flatMap String.utf8EncodeChar

/-- `std::str::from_utf8`. -/
def fromUtf8 (bytes : List UInt8) : Option Text :=
  (ByteArray.mk bytes.toArray).utf8Decode?.map Array.toList

theorem fromUtf8_toUtf8 (t : Text) : fromUtf8 (toUtf8 t) = some t := by
  have hbytes : ByteArray.mk (toUtf8 t).toArray = t.utf8Encode := by
    apply ByteArray.ext
    rw [List.utf8Encode, List.data_toByteArray, toUtf8]
  unfold fromUtf8
  rw [hbytes, List.utf8Decode?_utf8Encode]
  rfl

theorem ofNat_eq_zero {n : Nat} (h : (0 : UInt8) = UInt8.ofNat n) : n % 256 = 0 := by
  have := congrArg UInt8.toNat h
  rw [UInt8.toNat_ofNat'] at this
  exact this.symm

theorem eq_zero_of_mem_utf8EncodeChar {c : Char} (h : (0 : UInt8) ∈ String.utf8EncodeChar c) :
    c.toNat = 0 := by
  unfold String.utf8EncodeChar at h
  dsimp only at h
  change c.val.toNat = 0
  -- Every byte of a longer encoding has its high bit set.
  split at h
  · have := ofNat_eq_zero (List.mem_singleton.1 h)
    omega
  · exfalso
    split at h
    · simp only [List.mem_cons, List.not_mem_nil, or_false] at h
      rcases h with h | h <;> have := ofNat_eq_zero h <;> omega
    · split at h
      · simp only [List.mem_cons, List.not_mem_nil, or_false] at h
        rcases h with h | h | h <;> have := ofNat_eq_zero h <;> omega
      · simp only [List.mem_cons, List.not_mem_nil, or_false] at h
        rcases h with h | h | h | h <;> have := ofNat_eq_zero h <;> omega

theorem zero_notMem_toUtf8 {t : Text} (h : Char.ofNat 0 ∉ t) : (0 : UInt8) ∉ toUtf8 t := by
  intro hmem
  obtain ⟨c, hc, hzero⟩ := List.mem_flatMap.1 hmem
  have hnat := eq_zero_of_mem_utf8EncodeChar hzero
  have hchar : c = Char.ofNat 0 := Char.toNat_inj.1 hnat
  exact h (hchar ▸ hc)

/-! ## Cursors -/

abbrev ByteCursor := StateT (List UInt8) Option

namespace ByteCursor
variable {α β : Type}

def readU8 : ByteCursor UInt8
  | [] => none
  | b :: rest => some (b, rest)

def readBytes (len : Nat) : ByteCursor (List UInt8) := fun buf =>
  if buf.length < len then none else some (buf.take len, buf.drop len)

/-- `from_be_bytes` of so many bytes. -/
def readBe (width : Nat) : ByteCursor Nat := do
  let bytes ← readBytes width
  return ofBeBytes (bytes.map UInt8.toFin)

def readText (len : Nat) : ByteCursor Text := do
  let bytes ← readBytes len
  StateT.lift (fromUtf8 bytes)

/-- Up to the next byte 0. -/
def readCString : ByteCursor Text := fun buf =>
  match buf.dropWhile (· ≠ 0) with
  | [] => none
  | _ :: rest => (fromUtf8 (buf.takeWhile (· ≠ 0))).map fun text => (text, rest)

def times (p : ByteCursor α) : Nat → ByteCursor (List α)
  | 0 => return []
  | n + 1 => do
    let a ← p
    let rest ← times p n
    return a :: rest

/-! ## What is read -/

def Reads (p : ByteCursor α) (bytes : List UInt8) (a : α) : Prop :=
  ∀ rest, p.run (bytes ++ rest) = some (a, rest)

theorem Reads.bind {p : ByteCursor α} {f : α → ByteCursor β} {bytes bytes' : List UInt8} {a : α} {b : β}
    (hp : Reads p bytes a) (hf : Reads (f a) bytes' b) : Reads (p >>= f) (bytes ++ bytes') b := by
  intro rest
  rw [StateT.run_bind, List.append_assoc, hp]
  exact hf rest

theorem Reads.map {p : ByteCursor α} {bytes : List UInt8} {a : α} (hp : Reads p bytes a) (f : α → β) :
    Reads (p >>= fun a => pure (f a)) bytes (f a) := by
  intro rest
  rw [StateT.run_bind, hp]
  rfl

theorem reads_readU8 (b : UInt8) : Reads readU8 [b] b := fun _ => rfl

theorem reads_readBytes (bytes : List UInt8) : Reads (readBytes bytes.length) bytes bytes := by
  intro rest
  have hlen : ¬ (bytes ++ rest).length < bytes.length := by
    rw [List.length_append]
    omega
  change readBytes bytes.length (bytes ++ rest) = _
  rw [readBytes, if_neg hlen, List.take_left, List.drop_left]

theorem reads_readBe {width n : Nat} (h : n < 256 ^ width) :
    Reads (readBe width) ((beBytes width n).map UInt8.ofFin) n := by
  have hbytes := reads_readBytes ((beBytes width n).map UInt8.ofFin)
  rw [List.length_map, length_beBytes] at hbytes
  have hread := hbytes.map fun bytes => ofBeBytes (bytes.map UInt8.toFin)
  have hback : ((beBytes width n).map UInt8.ofFin).map UInt8.toFin = beBytes width n := by
    rw [List.map_map]
    exact List.map_id _
  rw [hback, ofBeBytes_beBytes h] at hread
  exact hread

theorem reads_readText (t : Text) : Reads (readText (toUtf8 t).length) (toUtf8 t) t := by
  intro rest
  have hbytes := reads_readBytes (toUtf8 t) rest
  rw [readText, StateT.run_bind, hbytes]
  simp [StateT.run_lift, fromUtf8_toUtf8]

theorem reads_readCString {t : Text} (h : Char.ofNat 0 ∉ t) :
    Reads readCString (toUtf8 t ++ [0]) t := by
  intro rest
  have hnonzero : ∀ b ∈ toUtf8 t, decide (b ≠ 0) = true := by
    intro b hb
    have hne : b ≠ 0 := fun heq => zero_notMem_toUtf8 h (heq ▸ hb)
    exact decide_eq_true hne
  have hbuf : toUtf8 t ++ [0] ++ rest = toUtf8 t ++ 0 :: rest := by
    rw [List.append_assoc, List.singleton_append]
  have hdrop : (toUtf8 t ++ 0 :: rest).dropWhile (· ≠ 0) = 0 :: rest := by
    rw [List.dropWhile_append_of_pos hnonzero]
    rfl
  have htake : (toUtf8 t ++ 0 :: rest).takeWhile (· ≠ 0) = toUtf8 t := by
    rw [List.takeWhile_append_of_pos hnonzero]
    exact List.append_nil _
  change readCString _ = _
  rw [hbuf, readCString, hdrop, htake, fromUtf8_toUtf8]
  rfl

theorem Reads.times {p : ByteCursor α} {γ : Type} {enc : γ → List UInt8} {val : γ → α} {l : List γ}
    (h : ∀ x ∈ l, Reads p (enc x) (val x)) :
    Reads (times p l.length) (l.flatMap enc) (l.map val) := by
  induction l with
  | nil => exact fun _ => rfl
  | cons x l ih =>
    have hhead := h x List.mem_cons_self
    have htail := ih (List.forall_mem_cons.1 h).2
    exact hhead.bind (htail.map fun rest => val x :: rest)

end ByteCursor

end Skippr
