import Skippr.Core.Text

/-!
# `skippr.wal-slices`: the exclude-set property of a lake snapshot

A grouped commit records the WAL slices whose rows it adds in one snapshot
property, `seg@start` refs joined by commas (crates/skippr-lease paths and
src/wal_slice_ref.rs). A reader decodes it to know which WAL slices the lake
already holds.
-/
namespace Skippr.L1

inductive PathError
  /-- "path component must not be empty" -/
  | empty
  /-- "path component '..' is not allowed" -/
  | notAllowed (value : Text)
  /-- "path component '..' contains a reserved character" -/
  | reserved (value : Text)
deriving DecidableEq, Repr

/-- mirrors crates/skippr-lease/src/paths.rs:16-21 -/
def reservedChars : List Char := ['/', '\\', '\x00', '#', ',', '@']

/-- mirrors paths.rs:5-28 -/
def validatePathComponent (value : Text) : Except PathError Unit :=
  if value = [] then .error .empty
  else if value = ['.'] ∨ value = ['.', '.'] then .error (.notAllowed value)
  else if reservedChars.any (fun c => value.contains c) then .error (.reserved value)
  else .ok ()

/-- mirrors crates/skippr-lease/src/identity.rs:137-149 -/
structure SegmentId where
  raw : Text
  valid : validatePathComponent raw = .ok ()
deriving DecidableEq

namespace SegmentId

def new (raw : Text) : Except PathError SegmentId :=
  match h : validatePathComponent raw with
  | .ok () => .ok ⟨raw, h⟩
  | .error e => .error e

@[simp] theorem new_raw (id : SegmentId) : new id.raw = .ok id := by
  obtain ⟨raw, valid⟩ := id
  unfold new
  split
  · rfl
  · rename_i e h
    rw [valid] at h
    cases h

theorem raw_ne_nil (id : SegmentId) : id.raw ≠ [] := by
  intro h
  have := id.valid
  rw [h] at this
  cases this

theorem notMem_raw (id : SegmentId) {c : Char} (hc : c ∈ reservedChars) : c ∉ id.raw := by
  have hv := id.valid
  unfold validatePathComponent at hv
  split at hv
  · cases hv
  split at hv
  · cases hv
  split at hv
  · cases hv
  · rename_i h
    intro hmem
    exact h (List.any_eq_true.2 ⟨c, hc, List.contains_iff_mem.2 hmem⟩)

end SegmentId

/-- mirrors wal_slice_ref.rs:17-20 -/
structure WalSliceRef where
  segmentId : SegmentId
  start : UInt64
deriving DecidableEq

inductive WalSliceRefError
  /-- "malformed wal slice ref .." -/
  | malformed (part : Text)
  /-- "segment id .. is not a valid path component" -/
  | invalidSegment (segmentId : Text)
  /-- "Iceberg snapshot ancestry exceeds walk ceiling" -/
  | ancestryTooLong
deriving DecidableEq, Repr

namespace WalSliceRef

/-- mirrors wal_slice_ref.rs:37-41 -/
def tryFromParts (segmentId : Text) (start : UInt64) : Except WalSliceRefError WalSliceRef :=
  match SegmentId.new segmentId with
  | .ok id => .ok ⟨id, start⟩
  | .error _ => .error (.invalidSegment segmentId)

/-- mirrors wal_slice_ref.rs:44-48 -/
def display (r : WalSliceRef) : Text := r.segmentId.raw ++ '@' :: showNat r.start.toNat

def le (a b : WalSliceRef) : Prop :=
  a.segmentId.raw < b.segmentId.raw ∨ (a.segmentId = b.segmentId ∧ a.start ≤ b.start)

instance : DecidableRel le := fun a b =>
  inferInstanceAs (Decidable (a.segmentId.raw < b.segmentId.raw ∨
    (a.segmentId = b.segmentId ∧ a.start ≤ b.start)))

end WalSliceRef

/-- The refs pass through a `BTreeSet`, so they come out once each, in order.
mirrors wal_slice_ref.rs:50-57 -/
def encodeWalSlices (refs : List WalSliceRef) : Text :=
  [','].intercalate ((refs.dedup.insertionSort WalSliceRef.le).map WalSliceRef.display)

/-- mirrors wal_slice_ref.rs:66-77 -/
def decodePart (part : Text) : Except WalSliceRefError WalSliceRef :=
  match rsplitOnce '@' part with
  | none => .error (.malformed part)
  | some (seg, start) =>
    if seg = [] then .error (.malformed part)
    else match parseU64 start with
      | none => .error (.malformed part)
      | some n => WalSliceRef.tryFromParts seg (UInt64.ofNat n)

/-- mirrors wal_slice_ref.rs:59-79 -/
def decodeWalSlices (value : Text) : Except WalSliceRefError (Finset WalSliceRef) :=
  if value = [] then .ok ∅
  else (((value.splitOn ',').filter (· ≠ [])).mapM decodePart).map List.toFinset

/-! ## Round trip -/

theorem decodePart_display (r : WalSliceRef) : decodePart r.display = .ok r := by
  have hat : '@' ∉ showNat r.start.toNat := notMem_showNat rfl
  simp only [decodePart, WalSliceRef.display, rsplitOnce_append hat, if_neg r.segmentId.raw_ne_nil,
    parseU64_showNat r.start.toNat_lt, WalSliceRef.tryFromParts, SegmentId.new_raw,
    UInt64.ofNat_toNat]

theorem comma_notMem_display (r : WalSliceRef) : ',' ∉ r.display := by
  intro h
  rcases List.mem_append.1 h with h | h
  · exact r.segmentId.notMem_raw (by decide) h
  · rcases List.mem_cons.1 h with h | h
    · cases h
    · exact notMem_showNat rfl h

theorem mapM_decodePart_display :
    ∀ refs : List WalSliceRef, (refs.map WalSliceRef.display).mapM decodePart = .ok refs
  | [] => rfl
  | r :: refs => by
    rw [List.map_cons, List.mapM_cons, decodePart_display, mapM_decodePart_display refs]
    rfl

theorem decode_join {refs : List WalSliceRef} (hne : refs ≠ []) :
    decodeWalSlices ([','].intercalate (refs.map WalSliceRef.display)) = .ok refs.toFinset := by
  have hparts : ∀ p ∈ refs.map WalSliceRef.display, ',' ∉ p ∧ p ≠ [] := by
    exact List.forall_mem_map.2 fun r _ => ⟨comma_notMem_display r, by simp [WalSliceRef.display]⟩
  have hsplit := List.splitOn_intercalate ',' (fun p hp => (hparts p hp).1)
    (by simpa using hne : refs.map WalSliceRef.display ≠ [])
  have hfilter : (refs.map WalSliceRef.display).filter (· ≠ []) = refs.map WalSliceRef.display :=
    List.filter_eq_self.2 fun p hp => by simpa using (hparts p hp).2
  have hvalue : [','].intercalate (refs.map WalSliceRef.display) ≠ [] := by
    intro h
    rw [h] at hsplit
    have hnil : [] ∈ refs.map WalSliceRef.display := hsplit ▸ List.mem_singleton.2 rfl
    exact (hparts _ hnil).2 rfl
  rw [decodeWalSlices, if_neg hvalue, hsplit, hfilter, mapM_decodePart_display]
  rfl

/-- **Round trip.** A reader of the property gets exactly the refs the grouped
commit recorded. -/
theorem decode_encode (refs : List WalSliceRef) :
    decodeWalSlices (encodeWalSlices refs) = .ok refs.toFinset := by
  by_cases h : refs = []
  · subst h
    rfl
  · have hsort : refs.dedup.insertionSort WalSliceRef.le ≠ [] := by
      intro hnil
      obtain ⟨r, hr⟩ := List.exists_mem_of_ne_nil _ h
      have : r ∈ refs.dedup.insertionSort WalSliceRef.le := by simpa using hr
      rw [hnil] at this
      cases this
    rw [encodeWalSlices, decode_join hsort]
    congr 1
    ext r
    simp

end Skippr.L1
