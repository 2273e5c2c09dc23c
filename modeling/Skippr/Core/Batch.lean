import Skippr.Core.Map

/-!
# Write batches

A batch of puts and deletes, applied to a map in order. A later write of a key
hides an earlier one, so the value at a key is the effect of the last write that
names it.

* `get_applyWrites`: the value at any key.
* `get_applyWrites_of_agree`: what the writes of a key have in common is stored.
* `get_applyWrites_of_unnamed`: the other keys keep their values.
-/
namespace Skippr

inductive Write (K V : Type)
  | put (key : K) (value : V)
  | delete (key : K)
deriving DecidableEq, Repr

namespace Write
variable {K V : Type}

def key : Write K V → K
  | .put key _ => key
  | .delete key => key

def effect : Write K V → Option V
  | .put _ value => some value
  | .delete _ => none

def apply [DecidableEq K] (m : Map K V) : Write K V → Map K V
  | .put key value => m.insert key value
  | .delete key => m.erase key

theorem get_apply [DecidableEq K] (m : Map K V) (w : Write K V) (k : K) :
    Map.get (w.apply m) k = if w.key = k then w.effect else Map.get m k := by
  cases w with
  | put key value => simp only [apply, Map.get_insert, Write.key, effect, eq_comm]
  | delete key => simp only [apply, Map.get_erase, Write.key, effect, eq_comm]

end Write

section Batch
variable {K V : Type} [DecidableEq K]

def applyWrites (m : Map K V) (ws : List (Write K V)) : Map K V := ws.foldl Write.apply m

def lastWrite (k : K) (ws : List (Write K V)) : Option (Write K V) :=
  (ws.filter fun w => w.key = k).getLast?

theorem get_applyWrites (m : Map K V) (ws : List (Write K V)) (k : K) :
    Map.get (applyWrites m ws) k = (lastWrite k ws).elim (Map.get m k) Write.effect := by
  induction ws using List.reverseRecOn with
  | nil => rfl
  | append_singleton ws w ih =>
    have hlast : lastWrite k (ws ++ [w]) = if w.key = k then some w else lastWrite k ws := by
      unfold lastWrite
      rw [List.filter_append]
      split <;> simp_all
    rw [applyWrites, List.foldl_append, List.foldl_cons, List.foldl_nil, Write.get_apply, hlast]
    split
    · rfl
    · exact ih

variable {k : K} {ws : List (Write K V)}

theorem mem_of_lastWrite {w : Write K V} (h : lastWrite k ws = some w) : w ∈ ws ∧ w.key = k := by
  have hmem := List.mem_filter.1 (List.mem_of_getLast? h)
  exact ⟨hmem.1, of_decide_eq_true hmem.2⟩

theorem lastWrite_eq_none : lastWrite k ws = none ↔ ∀ w ∈ ws, w.key ≠ k := by
  simp [lastWrite]

theorem get_applyWrites_of_unnamed (m : Map K V) (h : ∀ w ∈ ws, w.key ≠ k) :
    Map.get (applyWrites m ws) k = Map.get m k := by
  rw [get_applyWrites, lastWrite_eq_none.2 h]
  rfl

theorem get_applyWrites_of_agree (m : Map K V) {w : Write K V} (hw : w ∈ ws)
    (h : ∀ w' ∈ ws, w'.key = w.key → w'.effect = w.effect) :
    Map.get (applyWrites m ws) w.key = w.effect := by
  rw [get_applyWrites]
  cases hlast : lastWrite w.key ws with
  | none => exact absurd rfl (lastWrite_eq_none.1 hlast w hw)
  | some w' =>
    obtain ⟨hmem, hkey⟩ := mem_of_lastWrite hlast
    exact h w' hmem hkey

end Batch
end Skippr
