import Skippr.Core.LTS
import Skippr.Core.Map

/-!
# The slot queue of a runtime sink pool (src/runtime_plugins/host.rs)

Every worker has the same number of slots. The queue counts the free ones and
holds the workers that have one; a lease takes a slot and gives it back when it
is dropped.
-/
namespace Skippr.L5.SinkSlots

/-- The workers are named by their ids. -/
structure SlotState where
  available : List Nat
  freeByWorker : Map Nat Nat

section Queue
variable (capacity : Nat) (s : SlotState) (w : Nat)

/-- mirrors host.rs:2320-2327 -/
def addWorker : SlotState := ⟨s.available ++ [w], s.freeByWorker.insert w capacity⟩

/-- `none` is a panic.
mirrors host.rs:2329-2341 -/
def tryAcquire : Option (Option Nat × SlotState) :=
  match s.available with
  | [] => some (none, s)
  | w :: rest => (s.freeByWorker.get w).map fun free =>
      (some w, ⟨if 0 < free - 1 then rest ++ [w] else rest, s.freeByWorker.insert w (free - 1)⟩)

/-- mirrors host.rs:2352-2360 -/
def removeIdleWorker : Bool × SlotState :=
  if s.freeByWorker.get w ≠ some capacity then (false, s)
  else (true, ⟨s.available.filter (· ≠ w), s.freeByWorker.erase w⟩)

/-- mirrors host.rs:2362-2374 -/
def release : Option SlotState :=
  (s.freeByWorker.get w).map fun free =>
    ⟨if free = 0 then s.available ++ [w] else s.available,
      s.freeByWorker.insert w (min (free + 1) capacity)⟩

end Queue

structure St where
  slots : SlotState
  leases : List Nat

inductive Lbl
  | addWorker (w : Nat)
  | tryAcquire
  | release (w : Nat)
  | removeIdleWorker (w : Nat)

def call (capacity : Nat) (s : St) : Lbl → Option St
  | .addWorker w => some { s with slots := addWorker capacity s.slots w }
  | .tryAcquire => (tryAcquire s.slots).map fun r => ⟨r.2, r.1.toList ++ s.leases⟩
  | .release w => (release capacity s.slots w).map fun slots => ⟨slots, s.leases.erase w⟩
  | .removeIdleWorker w => some { s with slots := (removeIdleWorker capacity s.slots w).2 }

/-- A worker that is added is not there, and a lease that is released is out. -/
def Proper (s : St) : Lbl → Prop
  | .addWorker w => s.slots.freeByWorker.get w = none
  | .release w => w ∈ s.leases
  | _ => True

instance decidableProper (s : St) (l : Lbl) : Decidable (Proper s l) :=
  match l with
  | .addWorker _ => inferInstanceAs (Decidable (_ = _))
  | .release _ => inferInstanceAs (Decidable (_ ∈ _))
  | .tryAcquire | .removeIdleWorker _ => inferInstanceAs (Decidable True)

def lts (capacity : Nat) : LTS St Lbl := LTS.ofFn (· = ⟨⟨[], ∅⟩, []⟩) (call capacity)

/-- A worker's leases and free slots make up its capacity, and it is in the
queue if it has a free slot; one that is not there has neither. -/
def Accounted (capacity : Nat) (s : St) (w : Nat) : Prop :=
  match s.slots.freeByWorker.get w with
  | none => w ∉ s.slots.available ∧ s.leases.count w = 0
  | some free => (w ∈ s.slots.available ↔ 0 < free) ∧ s.leases.count w + free = capacity

structure Inv (capacity : Nat) (s : St) : Prop where
  nodup : s.slots.available.Nodup
  accounted : ∀ w, Accounted capacity s w

variable {capacity : Nat} {s s' : St} {w : Nat}

theorem free_of_available (h : Inv capacity s) (hw : w ∈ s.slots.available) :
    ∃ free, s.slots.freeByWorker.get w = some free ∧ 0 < free := by
  have hacc := h.accounted w
  unfold Accounted at hacc
  grind

theorem free_of_lease (h : Inv capacity s) (hw : w ∈ s.leases) :
    ∃ free, s.slots.freeByWorker.get w = some free ∧ free < capacity := by
  have hacc := h.accounted w
  have hcount := List.count_pos_iff.2 hw
  unfold Accounted at hacc
  grind

theorem inv_call {l : Lbl} (hpos : 0 < capacity) (h : Inv capacity s) (hl : Proper s l)
    (hs : call capacity s l = some s') : Inv capacity s' := by
  have hnodup := h.nodup
  have hacc := h.accounted
  simp only [Accounted] at hacc
  cases l with
  | addWorker w =>
    have hnone : s.slots.freeByWorker.get w = none := hl
    cases hs
    refine ⟨?_, fun v => ?_⟩ <;> simp only [Accounted, addWorker, Map.get_insert]
    · grind
    · grind
  | tryAcquire =>
    simp only [call, tryAcquire] at hs
    split at hs
    · cases hs
      exact h
    · rename_i w rest havailable
      obtain ⟨free, hfree, -⟩ := free_of_available h (w := w) (by simp [havailable])
      simp only [hfree, Option.map_some, Option.some.injEq] at hs
      subst hs
      refine ⟨?_, fun v => ?_⟩
      · grind
      · have hv := hacc v
        by_cases hvw : v = w <;> simp only [Accounted, Map.get_insert, hvw, if_true, if_false]
        · grind
        · grind
  | release w =>
    obtain ⟨free, hfree, hlt⟩ := free_of_lease h hl
    simp only [call, release, hfree, Option.map_some, Option.some.injEq] at hs
    subst hs
    refine ⟨?_, fun v => ?_⟩
    · grind
    · have hv := hacc v
      by_cases hvw : v = w <;> simp only [Accounted, Map.get_insert, hvw, if_true, if_false]
      · grind
      · grind
  | removeIdleWorker w =>
    cases hs
    unfold removeIdleWorker
    split
    · exact h
    · refine ⟨hnodup.filter _, fun v => ?_⟩
      simp only [Accounted, Map.get_erase]
      grind

theorem inv_inductive (hpos : 0 < capacity) : ((lts capacity).restrict Proper).Inductive (Inv capacity) where
  init := by
    rintro s rfl
    exact ⟨List.nodup_nil, fun w => ⟨List.not_mem_nil, rfl⟩⟩
  step := fun s l s' h hs => inv_call hpos h hs.1 hs.2

/-- **The slots are accounted for** after any calls that add fresh workers and
release leases that are out: a worker with a lease is not removed, and no call
panics. -/
theorem slots_accounted (capacity : Nat) (hpos : 0 < capacity) (s : St)
    (h : ((lts capacity).restrict Proper).Reachable s) :
    s.slots.available.Nodup ∧ (∀ w, Accounted capacity s w) ∧
      (∀ w ∈ s.leases, removeIdleWorker capacity s.slots w = (false, s.slots)) ∧
      ∀ l, Proper s l → (call capacity s l).isSome := by
  have hinv := (inv_inductive hpos).reachable s h
  refine ⟨hinv.nodup, hinv.accounted, fun w hw => ?_, fun l hl => ?_⟩
  · obtain ⟨free, hfree, hlt⟩ := free_of_lease hinv hw
    exact if_pos (by simp [hfree, hlt.ne])
  · cases l with
    | addWorker w | removeIdleWorker w => rfl
    | tryAcquire =>
      simp only [call, tryAcquire]
      split
      · rfl
      · rename_i w rest havailable
        obtain ⟨free, hfree, -⟩ := free_of_available hinv (w := w) (by simp [havailable])
        simp [hfree]
    | release w =>
      obtain ⟨free, hfree, -⟩ := free_of_lease hinv hl
      simp [call, release, hfree]

theorem slots_accounted_two : ∃ s, ((lts 2).restrict Proper).Reachable s ∧ s.leases = [0] ∧
    Accounted 2 s 0 := by
  obtain ⟨s, hreach, hleases⟩ : ∃ s, ((lts 2).restrict Proper).Reachable s ∧ s.leases = [0] :=
    exists_restrict_reachable [.addWorker 0, .tryAcquire, .tryAcquire, .release 0] rfl (by decide +kernel)
  exact ⟨s, hreach, hleases, (slots_accounted 2 (by decide) s hreach).2.1 0⟩

end Skippr.L5.SinkSlots
