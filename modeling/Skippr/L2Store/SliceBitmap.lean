import Mathlib

/-!
# `SliceBitmap`: which slices of a segment are compacted

mirrors crates/skippr-wal-catalog/src/row.rs:72-120. The byte vector is the set
of the ordinals whose bit is set; an ordinal past `slice_count` has no bit,
which `lt` records.
-/
namespace Skippr.L2

structure SliceBitmap where
  sliceCount : Nat
  bits : Finset Nat
  lt : ∀ i ∈ bits, i < sliceCount
deriving DecidableEq

namespace SliceBitmap

def new (sliceCount : Nat) : SliceBitmap := ⟨sliceCount, ∅, by simp⟩

/-- Ordinals past the end are skipped. -/
def orBits (b : SliceBitmap) (ordinals : Finset Nat) : SliceBitmap where
  sliceCount := b.sliceCount
  bits := b.bits ∪ ordinals.filter (· < b.sliceCount)
  lt i hi := by
    rcases Finset.mem_union.1 hi with h | h
    · exact b.lt i h
    · exact (Finset.mem_filter.1 h).2

def isDone (b : SliceBitmap) (i : Nat) : Bool := decide (i ∈ b.bits)

def allDone (b : SliceBitmap) : Bool := decide (∀ i < b.sliceCount, i ∈ b.bits)

theorem isDone_orBits (b : SliceBitmap) (o : Finset Nat) (i : Nat) :
    (b.orBits o).isDone i = true ↔ b.isDone i = true ∨ (i ∈ o ∧ i < b.sliceCount) := by
  simp [isDone, orBits]

theorem isDone_of_allDone {b : SliceBitmap} (h : b.allDone = true) {i : Nat}
    (hi : i < b.sliceCount) : b.isDone i = true := by
  simp only [allDone, decide_eq_true_eq] at h
  simpa [isDone] using h i hi

end SliceBitmap
end Skippr.L2
