import Mathlib

/-!
# Reading a list through a cursor

A binary file is a list; it is read at a position that every read moves and a
seek sets. What stands where is one predicate, `StandsAt`, and a reader that is
placed before what it expects succeeds.

* `StandsAt.left`, `StandsAt.right`: two parts that follow one another.
* `Cursor`, `readExact`, `position`, `seek`, `require`, `orFail`: a fallible
  reader with its position.
* `bind_of_ok`, `bind_eq_ok_at`: one reader after the other.
* `readExact_of_standsAt`: reading what stands there.
-/
namespace Skippr

variable {α β γ ε σ : Type}

/-! ## Positions -/

def StandsAt (xs : List α) (pos : Nat) (part : List α) : Prop :=
  ∃ before after, xs = before ++ part ++ after ∧ before.length = pos

def slice (xs : List α) (start len : Nat) : List α := (xs.drop start).take len

variable {xs p q : List α} {pos n : Nat}

theorem StandsAt.le (h : StandsAt xs pos p) : pos + p.length ≤ xs.length := by
  obtain ⟨before, after, rfl, rfl⟩ := h
  simp only [List.length_append]
  omega

theorem StandsAt.slice_eq (h : StandsAt xs pos p) : slice xs pos p.length = p := by
  obtain ⟨before, after, rfl, rfl⟩ := h
  rw [slice, List.append_assoc, List.drop_left, List.take_left]

theorem standsAt_self (xs : List α) : StandsAt xs 0 xs := ⟨[], [], by simp, rfl⟩

theorem StandsAt.left (h : StandsAt xs pos (p ++ q)) : StandsAt xs pos p := by
  obtain ⟨before, after, rfl, rfl⟩ := h
  exact ⟨before, q ++ after, by simp, rfl⟩

theorem StandsAt.right (h : StandsAt xs pos (p ++ q)) : StandsAt xs (pos + p.length) q := by
  obtain ⟨before, after, rfl, rfl⟩ := h
  exact ⟨before ++ p, after, by simp, by simp⟩

/-! ## Readers -/

abbrev Cursor (ε : Type) : Type → Type := StateT Nat (Except ε)

/-- `Read::read_exact`: the next `n` elements; `eof` when there are fewer. -/
def readExact (xs : List α) (eof : ε) (n : Nat) : Cursor ε (List α) := fun pos =>
  if pos + n ≤ xs.length then .ok (slice xs pos n, pos + n) else .error eof

def position : Cursor ε Nat := fun pos => .ok (pos, pos)

def seek (pos : Nat) : Cursor ε Unit := fun _ => .ok ((), pos)

def require (cond : Prop) [Decidable cond] (e : ε) : Cursor ε Unit := fun pos =>
  if cond then .ok ((), pos) else .error e

def orFail (o : Option β) (e : ε) : Cursor ε β := fun pos =>
  match o with
  | some b => .ok (b, pos)
  | none => .error e

theorem bind_of_ok {r : Cursor ε β} {f : β → Cursor ε γ} {b : β} {pos pos' : Nat}
    (h : r pos = .ok (b, pos')) : (r >>= f) pos = f b pos' := by
  show (r pos >>= fun x => f x.1 x.2) = f b pos'
  rw [h]
  rfl

theorem bind_eq_ok_at {r : Cursor ε β} {f : β → Cursor ε γ} {pos : Nat} {x : γ × Nat}
    (h : (r >>= f) pos = .ok x) : ∃ b pos', r pos = .ok (b, pos') ∧ f b pos' = .ok x := by
  change (r pos >>= fun y => f y.1 y.2) = .ok x at h
  cases hr : r pos with
  | error e =>
    rw [hr] at h
    cases h
  | ok y =>
    rw [hr] at h
    exact ⟨y.1, y.2, rfl, h⟩

theorem readExact_of_standsAt {eof : ε} (h : StandsAt xs pos p) (hn : p.length = n) :
    readExact xs eof n pos = .ok (p, pos + n) := by
  subst hn
  rw [readExact, if_pos h.le, h.slice_eq]

theorem require_of {cond : Prop} [Decidable cond] {e : ε} (h : cond) (pos : Nat) :
    require cond e pos = .ok ((), pos) := if_pos h

theorem of_require {cond : Prop} [Decidable cond] {e : ε} {pos : Nat} {x : Unit × Nat}
    (h : require cond e pos = .ok x) : cond := by
  by_contra hnot
  rw [require, if_neg hnot] at h
  cases h

theorem require_ok {cond : Prop} [Decidable cond] {e : ε} {pos pos' : Nat} {u : Unit}
    (h : require cond e pos = .ok (u, pos')) : cond ∧ pos' = pos := by
  have hcond := of_require h
  rw [require_of hcond] at h
  cases h
  exact ⟨hcond, rfl⟩

theorem orFail_of {o : Option β} {b : β} {e : ε} (h : o = some b) (pos : Nat) :
    orFail o e pos = .ok (b, pos) := by
  subst h
  rfl

theorem readExact_ok {eof : ε} {part : List α} {pos' : Nat}
    (h : readExact xs eof n pos = .ok (part, pos')) :
    part = slice xs pos n ∧ pos' = pos + n ∧ pos + n ≤ xs.length := by
  unfold readExact at h
  split at h
  · rename_i hle
    cases h
    exact ⟨rfl, rfl, hle⟩
  · cases h

/-! ## Readers that stay inside -/

/-- Wherever it starts inside `xs`, the reader returns inside, at least `n`
further on. -/
def Advances (xs : List α) (n : Nat) (r : Cursor ε β) : Prop :=
  ∀ pos b pos', pos ≤ xs.length → r pos = .ok (b, pos') → pos + n ≤ pos' ∧ pos' ≤ xs.length

namespace Advances
variable {r : Cursor ε β} {m : Nat}

theorem mono (h : Advances xs n r) (hm : m ≤ n) : Advances xs m r := by
  intro pos b pos' hpos hr
  have := h pos b pos' hpos hr
  omega

theorem bind {f : β → Cursor ε γ} (hr : Advances xs m r) (hf : ∀ b, Advances xs n (f b)) :
    Advances xs (m + n) (r >>= f) := by
  intro pos x pos' hpos h
  obtain ⟨b, mid, hb, hx⟩ := bind_eq_ok_at h
  have hmid := hr pos b mid hpos hb
  have hend := hf b mid x pos' hmid.2 hx
  omega

protected theorem pure (b : β) : Advances xs 0 (pure b : Cursor ε β) := by
  intro pos b' pos' hpos h
  cases h
  omega

protected theorem readExact (eof : ε) : Advances xs n (readExact xs eof n) := by
  intro pos part pos' _ h
  obtain ⟨-, rfl, hle⟩ := readExact_ok h
  exact ⟨Nat.le_refl _, hle⟩

protected theorem position : Advances xs 0 (position : Cursor ε Nat) := by
  intro pos b pos' hpos h
  cases h
  omega

protected theorem require {cond : Prop} [Decidable cond] {e : ε} :
    Advances xs 0 (require cond e) := by
  intro pos b pos' hpos h
  unfold Skippr.require at h
  split at h
  · cases h
    omega
  · cases h

protected theorem orFail {o : Option β} {e : ε} : Advances xs 0 (orFail o e) := by
  intro pos b pos' hpos h
  unfold Skippr.orFail at h
  split at h
  · cases h
    omega
  · cases h

end Advances

/-! ## Loops -/

section Loop
variable {body : σ → Cursor ε (σ ⊕ β)} {s s' : σ} {pos' : Nat}

/-- A loop whose rounds go on with a new state, end it with a value, or fail. -/
inductive Loops (body : σ → Cursor ε (σ ⊕ β)) : σ → Nat → Except ε (β × Nat) → Prop
  | fail {s pos e} : body s pos = .error e → Loops body s pos (.error e)
  | stop {s pos b pos'} : body s pos = .ok (.inr b, pos') → Loops body s pos (.ok (b, pos'))
  | next {s pos s' pos' result} : body s pos = .ok (.inl s', pos') → Loops body s' pos' result →
      Loops body s pos result

/-- The loop from `s` at `pos` comes by `s'` at `pos'`, however it ends. -/
inductive Heads (body : σ → Cursor ε (σ ⊕ β)) (s : σ) (pos : Nat) : σ → Nat → Prop
  | start : Heads body s pos s pos
  | next {s' pos' s'' pos''} : Heads body s pos s' pos' → body s' pos' = .ok (.inl s'', pos'') →
      Heads body s pos s'' pos''

theorem Heads.inside (h : Heads body s pos s' pos') (hbody : ∀ s, Advances xs n (body s))
    (hpos : pos ≤ xs.length) : pos ≤ pos' ∧ pos' ≤ xs.length := by
  induction h with
  | start => exact ⟨Nat.le_refl _, hpos⟩
  | next _ hround ih =>
    have := hbody _ _ _ _ ih.2 hround
    omega

/-- At most `n` rounds; more fail with `out`. -/
def rounds (out : ε) (body : σ → Cursor ε (σ ⊕ β)) : Nat → σ → Cursor ε β
  | 0, _ => fun _ => .error out
  | n + 1, s => body s >>= Sum.elim (rounds out body n) pure

theorem Advances.rounds {out : ε} (hbody : ∀ s, Advances xs n (body s)) :
    ∀ (k : Nat) (s : σ), Advances xs n (rounds out body k s)
  | 0, _ => by
    intro pos b pos' _ h
    cases h
  | k + 1, s => by
    apply Advances.bind (n := 0) (hbody s)
    intro x
    cases x with
    | inl s' => exact (Advances.rounds hbody k s').mono (Nat.zero_le _)
    | inr b => exact .pure b

theorem loops_of_rounds {out : ε} (hbody : ∀ s, Advances xs 1 (body s)) :
    ∀ (n : Nat) (s : σ) (pos : Nat), pos ≤ xs.length → xs.length < pos + n →
      Loops body s pos (rounds out body n s pos)
  | 0, _, _, _, hn => by omega
  | n + 1, s, pos, hpos, hn => by
    cases hround : body s pos with
    | error e =>
      have herror : rounds out body (n + 1) s pos = .error e := by
        show (body s pos >>= _) = _
        rw [hround]
        rfl
      rw [herror]
      exact .fail hround
    | ok x =>
      obtain ⟨x, mid⟩ := x
      have hmid := hbody s pos x mid hpos hround
      rw [rounds, bind_of_ok hround]
      cases x with
      | inl s' => exact .next hround (loops_of_rounds hbody n s' mid hmid.2 (by omega))
      | inr b => exact .stop hround

end Loop

end Skippr
