import Skippr.L1Encoding.WalSliceRef

/-!
# Snapshot ancestry: which WAL slices the lake holds

A lake table is a set of snapshots linked by parent ids. A query collects the
`skippr.wal-slices` of every snapshot on the ancestry of the pinned one
(src/wal_slice_ref.rs, src/sqlrt/iceberg_table.rs) and hides those WAL slices.
-/
namespace Skippr.L6

open Skippr.L1

/-- The parts of an Iceberg snapshot the engine reads: its links and the
summary properties `skippr.pipeline`, `skippr.wal-slices`,
`deleted-data-files` and `removed-delete-files`. -/
structure Snapshot where
  snapshotId : Int
  parentSnapshotId : Option Int
  sequenceNumber : Int
  timestampMs : Int
  pipeline : Option Text
  walSlices : Option Text
  deletedDataFiles : Option Text
  removedDeleteFiles : Option Text
deriving DecidableEq, Repr

/-- Table metadata keeps its snapshots in a map keyed by id, hence `nodup`.
`refs` are the snapshot ids of branches and tags. -/
structure TableMetadata where
  snapshots : List Snapshot
  refs : List Int
  currentSnapshotId : Option Int
  nodup : (snapshots.map Snapshot.snapshotId).Nodup
deriving DecidableEq

namespace TableMetadata

def snapshotById (m : TableMetadata) (id : Int) : Option Snapshot :=
  m.snapshots.find? (fun s => s.snapshotId = id)

theorem mem_of_snapshotById {m : TableMetadata} {id : Int} {s : Snapshot}
    (h : m.snapshotById id = some s) : s ∈ m.snapshots ∧ s.snapshotId = id :=
  ⟨List.mem_of_find?_eq_some h, by simpa using List.find?_some h⟩

end TableMetadata

theorem TableMetadata.snapshotById_of_mem {m : TableMetadata} {s : Snapshot}
    (h : s ∈ m.snapshots) : m.snapshotById s.snapshotId = some s := by
  cases hf : m.snapshotById s.snapshotId with
  | none =>
    have := List.find?_eq_none.1 hf s h
    simp at this
  | some t =>
    obtain ⟨ht, hid⟩ := mem_of_snapshotById hf
    rw [List.inj_on_of_nodup_map m.nodup ht h hid]

/-! ## The walk -/

/-- mirrors wal_slice_ref.rs:15 -/
def ancestryWalkCeiling : Nat := 10000

/-- The `for` loop of the walk, with the iterations left as fuel.
mirrors wal_slice_ref.rs:90-102 -/
def walkLoop (lookup : Int → Option (Option Int × Option Text)) :
    Nat → Option Int → Finset WalSliceRef → Except WalSliceRefError (Finset WalSliceRef)
  | 0, _, _ => .error .ancestryTooLong
  | n + 1, next, out =>
    match next with
    | none => .ok out
    | some id =>
      match lookup id with
      | none => .ok out
      | some (parent, none) => walkLoop lookup n parent out
      | some (parent, some value) =>
        match decodeWalSlices value with
        | .error e => .error e
        | .ok refs => walkLoop lookup n parent (out ∪ refs)

/-- mirrors wal_slice_ref.rs:84-103 -/
def walkAncestryWalSlices (start : Int) (lookup : Int → Option (Option Int × Option Text)) :
    Except WalSliceRefError (Finset WalSliceRef) :=
  walkLoop lookup ancestryWalkCeiling (some start) ∅

/-- mirrors iceberg_table.rs:594-602 -/
def TableMetadata.lookup (m : TableMetadata) (id : Int) : Option (Option Int × Option Text) :=
  (m.snapshotById id).map fun s => (s.parentSnapshotId, s.walSlices)

/-- mirrors iceberg_table.rs:593-604 -/
def excludedSlices (m : TableMetadata) (snapshotId : Int) :
    Except WalSliceRefError (Finset WalSliceRef) :=
  walkAncestryWalSlices snapshotId m.lookup

/-- The exclude set at the current snapshot; a table without one excludes
nothing. mirrors src/sqlrt/tables.rs:673-705 -/
def currentExcluded (m : TableMetadata) : Except WalSliceRefError (Finset WalSliceRef) :=
  match m.currentSnapshotId with
  | none => .ok ∅
  | some id => excludedSlices m id

/-! ## The ancestry it walks -/

/-- The slices a snapshot names, none if its property is absent or malformed. -/
def Snapshot.slices (s : Snapshot) : Finset WalSliceRef :=
  match s.walSlices with
  | none => ∅
  | some value =>
    match decodeWalSlices value with
    | .ok refs => refs
    | .error _ => ∅

/-- At most `n` snapshots along the parent links from `next`. -/
def TableMetadata.chain (m : TableMetadata) : Nat → Option Int → List Snapshot
  | 0, _ => []
  | _ + 1, none => []
  | n + 1, some id =>
    match m.snapshotById id with
    | none => []
    | some s => s :: m.chain n s.parentSnapshotId

def TableMetadata.ancestry (m : TableMetadata) : List Snapshot :=
  m.chain ancestryWalkCeiling m.currentSnapshotId

def Snapshot.Readable (s : Snapshot) : Prop :=
  ∀ value, s.walSlices = some value → ∃ refs, decodeWalSlices value = .ok refs

theorem walkLoop_found (m : TableMetadata) (n : Nat) {id : Int} (out : Finset WalSliceRef)
    {s : Snapshot} (hs : m.snapshotById id = some s) (hr : s.Readable) :
    walkLoop m.lookup (n + 1) (some id) out =
      walkLoop m.lookup n s.parentSnapshotId (out ∪ s.slices) := by
  simp only [walkLoop, TableMetadata.lookup, hs, Option.map_some]
  cases hv : s.walSlices with
  | none => simp [Snapshot.slices, hv]
  | some value =>
    obtain ⟨refs, hd⟩ := hr value hv
    simp [Snapshot.slices, hv, hd]

theorem readable_of_walk (m : TableMetadata) (n : Nat) {id : Int} {out res : Finset WalSliceRef}
    {s : Snapshot} (hs : m.snapshotById id = some s)
    (h : walkLoop m.lookup (n + 1) (some id) out = .ok res) : s.Readable := by
  intro value hv
  simp only [walkLoop, TableMetadata.lookup, hs, hv, Option.map_some] at h
  cases hd : decodeWalSlices value with
  | error e => simp [hd] at h
  | ok refs => exact ⟨refs, rfl⟩

theorem walkLoop_missing (m : TableMetadata) (n : Nat) {id : Int} (out : Finset WalSliceRef)
    (hs : m.snapshotById id = none) : walkLoop m.lookup (n + 1) (some id) out = .ok out := by
  simp [walkLoop, TableMetadata.lookup, hs]

theorem walkLoop_mem (m : TableMetadata) :
    ∀ (n : Nat) (next : Option Int) (out res : Finset WalSliceRef),
      walkLoop m.lookup n next out = .ok res →
      ∀ r, r ∈ res ↔ r ∈ out ∨ ∃ s ∈ m.chain n next, r ∈ s.slices
  | 0, _, _, _, h, _ => by cases h
  | n + 1, none, out, res, h, r => by
    simp only [walkLoop, Except.ok.injEq] at h
    subst h
    simp [TableMetadata.chain]
  | n + 1, some id, out, res, h, r => by
    cases hs : m.snapshotById id with
    | none =>
      rw [walkLoop_missing m n out hs, Except.ok.injEq] at h
      subst h
      simp [TableMetadata.chain, hs]
    | some s =>
      rw [walkLoop_found m n out hs (readable_of_walk m n hs h)] at h
      have ih := walkLoop_mem m n _ _ _ h r
      simp only [TableMetadata.chain, hs, List.mem_cons, exists_eq_or_imp, ih, Finset.mem_union,
        or_assoc]

end Skippr.L6
