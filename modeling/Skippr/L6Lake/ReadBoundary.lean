import Skippr.Core.LTS
import Skippr.Core.Map
import Skippr.L2Store.SliceBitmap
import Skippr.L6Lake.Ancestry

/-!
# The read boundary: lake rows and live WAL slices of one query

A query over an append table reads the union of a lake snapshot and the WAL
slices that are not in it yet: the live slices minus the exclude set of the
snapshot's ancestry (src/sqlrt/tables.rs, read_boundary.rs,
src/buffer/wal_reader.rs). Segments are committed, compacted into the lake,
marked done and reclaimed meanwhile.

The writers here have no crash and no snapshot expiry; the snapshot that adds a
group's rows carries all its slices. A lake snapshot is taken as the slices
whose rows its data files hold.
-/
namespace Skippr.L6.Boundary

open Skippr.L1 Skippr.L2

/-! ## The reads -/

structure IndexEntry where
  ordinal : Nat
  start : UInt64
  ns : Text
deriving DecidableEq

/-- Slices of one segment start at different bytes. -/
structure IndexRow where
  entries : List IndexEntry
  nodup : (entries.map (·.start)).Nodup
deriving DecidableEq

structure SegmentRow where
  seq : Nat
  done : SliceBitmap

structure PinnedSlice where
  seq : Nat
  segmentId : SegmentId
  entry : IndexEntry
deriving DecidableEq

def PinnedSlice.sliceRef (p : PinnedSlice) : WalSliceRef := ⟨p.segmentId, p.entry.start⟩

def PinnedSlice.le (a b : PinnedSlice) : Prop :=
  a.seq < b.seq ∨ (a.seq = b.seq ∧ a.entry.ordinal ≤ b.entry.ordinal)

instance : DecidableRel PinnedSlice.le := fun a b =>
  inferInstanceAs (Decidable (a.seq < b.seq ∨ (a.seq = b.seq ∧ a.entry.ordinal ≤ b.entry.ordinal)))

/-- The slices of one Index row. A row without its Segment row is skipped; done
bits hide nothing. -/
def rowSlices (segments : List (SegmentId × SegmentRow)) (row : SegmentId × IndexRow) :
    List PinnedSlice :=
  match segments.find? (·.1 = row.1) with
  | none => []
  | some seg => row.2.entries.map fun entry => ⟨seg.2.seq, row.1, entry⟩

/-- mirrors wal_reader.rs:215-251 -/
def liveEntries (indexes : List (SegmentId × IndexRow)) (segments : List (SegmentId × SegmentRow)) :
    List PinnedSlice :=
  (indexes.flatMap (rowSlices segments)).insertionSort PinnedSlice.le

/-- mirrors wal_reader.rs:146-154 -/
def liveSlices (indexes : List (SegmentId × IndexRow)) (segments : List (SegmentId × SegmentRow))
    (ns : Text) : List PinnedSlice :=
  (liveEntries indexes segments).filter (·.entry.ns = ns)

/-- mirrors src/sqlrt/read_boundary.rs:30-38 -/
def minusExcluded (live : List PinnedSlice) (excluded : Finset WalSliceRef) : List PinnedSlice :=
  live.filter (·.sliceRef ∉ excluded)

/-- A lake table and, for each snapshot, the slices whose rows it holds. -/
structure Lake where
  table : TableMetadata
  files : Int → List WalSliceRef

/-- What the table holds at a snapshot id, nothing without one. -/
def Lake.at (l : Lake) : Option Int → List WalSliceRef
  | none => []
  | some id => l.files id

def Lake.current (l : Lake) : List WalSliceRef := l.at l.table.currentSnapshotId

structure UnionLeaves where
  lake : List WalSliceRef
  wal : List PinnedSlice

/-- The boundary between the live slices and the table as it was reloaded after
them. mirrors tables.rs:630-706 -/
def readBoundary (live : List PinnedSlice) (lake : Lake) : Except WalSliceRefError UnionLeaves :=
  match lake.table.currentSnapshotId with
  | none => .ok ⟨[], minusExcluded live ∅⟩
  | some id =>
    match excludedSlices lake.table id with
    | .error e => .error e
    | .ok excluded => .ok ⟨lake.files id, minusExcluded live excluded⟩

def UnionLeaves.slices (u : UnionLeaves) : List WalSliceRef :=
  u.lake ++ u.wal.map PinnedSlice.sliceRef

def UnionLeaves.rows (u : UnionLeaves) (rows : WalSliceRef → Nat) : List (WalSliceRef × Nat) :=
  u.slices.flatMap fun x => (List.range (rows x)).map fun i => (x, i)

/-! ## The writers -/

/-- `committed` keeps every Index row ever committed. -/
structure St where
  segments : Map SegmentId SegmentRow
  indexes : Map SegmentId IndexRow
  available : Finset WalSliceRef
  lakes : Text → Lake
  committed : Map SegmentId IndexRow

def emptyLake : Lake := ⟨⟨[], [], none, List.nodup_nil⟩, fun _ => []⟩

def init : St := ⟨∅, ∅, ∅, fun _ => emptyLake, ∅⟩

def IndexRow.refs (row : IndexRow) (id : SegmentId) : Finset WalSliceRef :=
  (row.entries.map fun e => (⟨id, e.start⟩ : WalSliceRef)).toFinset

/-- Segment ids are random and never used twice.
mirrors src/buffer/wal_handle.rs:738-818 -/
def commitSegment (s : St) (id : SegmentId) (row : IndexRow) (seq sliceCount : Nat) : Option St :=
  if s.committed.get id = none ∧ ∀ e ∈ row.entries, e.ordinal < sliceCount then
    some { s with
      segments := s.segments.insert id ⟨seq, SliceBitmap.new sliceCount⟩
      indexes := s.indexes.insert id row
      available := s.available ∪ row.refs id
      committed := s.committed.insert id row }
  else none

/-- Add a snapshot on top of the current one; its data files are those of the
parent and the new ones. -/
def Lake.commit (l : Lake) (snap : Snapshot) (group : List WalSliceRef) : Option Lake :=
  if h : snap.snapshotId ∉ l.table.snapshots.map Snapshot.snapshotId ∧
      snap.parentSnapshotId = l.table.currentSnapshotId then
    some {
      table := {
        snapshots := snap :: l.table.snapshots
        refs := l.table.refs
        currentSnapshotId := some snap.snapshotId
        nodup := List.nodup_cons.mpr ⟨h.1, l.table.nodup⟩ }
      files := Function.update l.files snap.snapshotId (l.current ++ group) }
  else none

def slicesIn (s : St) (id : SegmentId) (ns : Text) : List UInt64 :=
  match s.committed.get id with
  | none => []
  | some row => (row.entries.filter (·.ns = ns)).map (·.start)

/-- A grouped commit of slices of one namespace. The planner gives a slice to one
group only. -/
def commitGroup (s : St) (ns : Text) (snap : Snapshot) (group : List WalSliceRef) : Option St :=
  if group.Nodup ∧ (∀ x ∈ group, x ∈ s.available ∧ x.start ∈ slicesIn s x.segmentId ns) ∧
      snap.walSlices = some (encodeWalSlices group) then
    ((s.lakes ns).commit snap group).map fun lake =>
      { s with
        lakes := Function.update s.lakes ns lake
        available := s.available \ group.toFinset }
  else none

/-- A maintenance snapshot rewrites data files: it adds no rows and names no
slices. -/
def maintain (s : St) (ns : Text) (snap : Snapshot) : Option St :=
  if snap.walSlices = none then
    ((s.lakes ns).commit snap []).map fun lake => { s with lakes := Function.update s.lakes ns lake }
  else none

/-- Done bits follow the sink's ack: every slice they cover is in the lake.
mirrors wal_handle.rs:1143-1200 -/
def markDone (s : St) (id : SegmentId) (ordinals : Finset Nat) : Option St :=
  match s.segments.get id, s.indexes.get id with
  | some seg, some row =>
    if ∀ e ∈ row.entries, e.ordinal ∈ ordinals → (⟨id, e.start⟩ : WalSliceRef) ∈ (s.lakes e.ns).current then
      some { s with segments := s.segments.insert id { seg with done := seg.done.orBits ordinals } }
    else none
  | _, _ => none

/-- mirrors wal_handle.rs:1157-1184 -/
def reclaim (s : St) (id : SegmentId) : Option St :=
  match s.segments.get id with
  | none => none
  | some seg =>
    if seg.done.allDone then
      some { s with segments := s.segments.erase id, indexes := s.indexes.erase id }
    else none

inductive Lbl
  | commitSegment (id : SegmentId) (row : IndexRow) (seq sliceCount : Nat)
  | commitGroup (ns : Text) (snap : Snapshot) (group : List WalSliceRef)
  | maintain (ns : Text) (snap : Snapshot)
  | markDone (id : SegmentId) (ordinals : Finset Nat)
  | reclaim (id : SegmentId)

def step (s : St) : Lbl → Option St
  | .commitSegment id row seq sliceCount => commitSegment s id row seq sliceCount
  | .commitGroup ns snap group => commitGroup s ns snap group
  | .maintain ns snap => maintain s ns snap
  | .markDone id ordinals => markDone s id ordinals
  | .reclaim id => reclaim s id

def lts : LTS St Lbl := LTS.ofFn (· = init) step

/-! ## The exclude set is what the snapshot holds -/

structure LakeOk (l : Lake) : Prop where
  readable : ∀ s ∈ l.table.snapshots, s.Readable
  parent : ∀ s ∈ l.table.snapshots, ∀ p, s.parentSnapshotId = some p →
    p ∈ l.table.snapshots.map Snapshot.snapshotId
  files : ∀ s ∈ l.table.snapshots, ∀ r,
    r ∈ l.files s.snapshotId ↔ r ∈ s.slices ∨ r ∈ l.at s.parentSnapshotId
  current : ∀ id, l.table.currentSnapshotId = some id →
    id ∈ l.table.snapshots.map Snapshot.snapshotId
  nodup : l.current.Nodup

variable {l : Lake} {snap : Snapshot} {group : List WalSliceRef} {s s' : St} {id : SegmentId}
  {ns : Text}

theorem chain_slices (h : LakeOk l) :
    ∀ (n : Nat) (next : Option Int) (out res : Finset WalSliceRef),
      (∀ id, next = some id → id ∈ l.table.snapshots.map Snapshot.snapshotId) →
      walkLoop l.table.lookup n next out = .ok res →
      ∀ r, (∃ s ∈ l.table.chain n next, r ∈ s.slices) ↔ r ∈ l.at next
  | 0, _, _, _, _, hw, _ => by cases hw
  | n + 1, none, _, _, _, _, r => by simp [TableMetadata.chain, Lake.at]
  | n + 1, some id, out, res, hnext, hw, r => by
    obtain ⟨s, hs, hid⟩ := List.mem_map.mp (hnext id rfl)
    have hby : l.table.snapshotById id = some s := hid ▸ TableMetadata.snapshotById_of_mem hs
    rw [walkLoop_found l.table n out hby (h.readable s hs)] at hw
    have ih := chain_slices h n s.parentSnapshotId _ res (h.parent s hs) hw r
    have hfiles := h.files s hs r
    rw [hid] at hfiles
    simp only [TableMetadata.chain, hby, List.mem_cons, exists_eq_or_imp, ih]
    exact hfiles.symm

theorem excluded_iff (h : LakeOk l) {id : Int} {excluded : Finset WalSliceRef}
    (hid : id ∈ l.table.snapshots.map Snapshot.snapshotId)
    (he : excludedSlices l.table id = .ok excluded) (r : WalSliceRef) :
    r ∈ excluded ↔ r ∈ l.files id := by
  have hnext : ∀ i, some id = some i → i ∈ l.table.snapshots.map Snapshot.snapshotId := by
    rintro i ⟨⟩
    exact hid
  have hmem := walkLoop_mem l.table _ _ _ _ he r
  rw [hmem, chain_slices h _ _ _ _ hnext he r]
  simp [Lake.at]

theorem snapshotSlices_of_walSlices (h : snap.walSlices = some (encodeWalSlices group)) :
    snap.Readable ∧ snap.slices = group.toFinset := by
  constructor
  · intro value hv
    rw [h] at hv
    cases hv
    exact ⟨_, decode_encode group⟩
  · simp only [Snapshot.slices, h, decode_encode]

theorem lake_commit {l' : Lake} (h : LakeOk l) (hs : l.commit snap group = some l')
    (hread : snap.Readable) (hslices : snap.slices = group.toFinset) (hnodup : group.Nodup)
    (hfresh : ∀ x ∈ group, x ∉ l.current) : LakeOk l' ∧ l'.current = l.current ++ group := by
  unfold Lake.commit at hs
  split at hs
  swap
  · cases hs
  rename_i hg
  cases hs
  have hcur : (⟨⟨snap :: l.table.snapshots, l.table.refs, some snap.snapshotId,
      List.nodup_cons.mpr ⟨hg.1, l.table.nodup⟩⟩,
      Function.update l.files snap.snapshotId (l.current ++ group)⟩ : Lake).current =
      l.current ++ group := by
    show Function.update l.files snap.snapshotId (l.current ++ group) snap.snapshotId = _
    rw [Function.update_self]
  -- Old snapshots keep their files: their ids differ from the new one.
  have hold : ∀ id ∈ l.table.snapshots.map Snapshot.snapshotId,
      Function.update l.files snap.snapshotId (l.current ++ group) id = l.files id := by
    intro id hid
    rw [Function.update_of_ne]
    rintro rfl
    exact hg.1 hid
  have hat : ∀ p, (∀ id, p = some id → id ∈ l.table.snapshots.map Snapshot.snapshotId) →
      (⟨⟨snap :: l.table.snapshots, l.table.refs, some snap.snapshotId,
        List.nodup_cons.mpr ⟨hg.1, l.table.nodup⟩⟩,
        Function.update l.files snap.snapshotId (l.current ++ group)⟩ : Lake).at p = l.at p := by
    intro p hp
    cases p with
    | none => rfl
    | some id => exact hold id (hp id rfl)
  refine ⟨⟨?_, ?_, ?_, ?_, ?_⟩, hcur⟩
  · exact List.forall_mem_cons.2 ⟨hread, h.readable⟩
  · intro s hs p hp
    rw [List.map_cons]
    rcases List.mem_cons.mp hs with rfl | hs
    · rw [hg.2] at hp
      exact List.mem_cons_of_mem _ (h.current p hp)
    · exact List.mem_cons_of_mem _ (h.parent s hs p hp)
  · intro s hs r
    rcases List.mem_cons.mp hs with rfl | hs
    · rw [hat s.parentSnapshotId (by rw [hg.2]; exact h.current), hg.2, hslices]
      show r ∈ Function.update l.files s.snapshotId (l.current ++ group) s.snapshotId ↔ _
      rw [Function.update_self, List.mem_append, List.mem_toFinset, Lake.current]
      exact or_comm
    · rw [hat s.parentSnapshotId (h.parent s hs)]
      show r ∈ Function.update l.files snap.snapshotId (l.current ++ group) s.snapshotId ↔ _
      rw [hold s.snapshotId (List.mem_map_of_mem hs)]
      exact h.files s hs r
  · rintro id hid
    cases hid
    exact List.mem_cons_self
  · rw [hcur]
    exact List.nodup_append.mpr ⟨h.nodup, hnodup, fun a ha b hb hab => hfresh b hb (hab ▸ ha)⟩

/-! ## Invariant -/

def InLake (s : St) (id : SegmentId) (e : IndexEntry) : Prop :=
  (⟨id, e.start⟩ : WalSliceRef) ∈ (s.lakes e.ns).current

structure Inv (s : St) : Prop where
  lake : ∀ ns, LakeOk (s.lakes ns)
  index : ∀ id row, s.indexes.get id = some row → s.committed.get id = some row ∧
    ∃ seg, s.segments.get id = some seg ∧ ∀ e ∈ row.entries, e.ordinal < seg.done.sliceCount
  segment : ∀ id seg, s.segments.get id = some seg → ∃ row, s.indexes.get id = some row
  kept : ∀ id row, s.committed.get id = some row →
    s.indexes.get id = some row ∨ ∀ e ∈ row.entries, InLake s id e
  done : ∀ id seg row, s.segments.get id = some seg → s.indexes.get id = some row →
    ∀ e ∈ row.entries, seg.done.isDone e.ordinal = true → InLake s id e
  available : ∀ x ∈ s.available, ∀ ns, x ∉ (s.lakes ns).current
  known : ∀ ns, ∀ x ∈ (s.lakes ns).current, s.committed.get x.segmentId ≠ none

/-- What a later state has kept: the lakes only grow and committed rows stay
known. -/
structure Later (s s' : St) : Prop where
  lake : ∀ ns, ∀ x ∈ (s.lakes ns).current, x ∈ (s'.lakes ns).current
  committed : ∀ id row, s.committed.get id = some row → s'.committed.get id = some row

theorem inv_commitSegment {row : IndexRow} {seq sliceCount : Nat} (h : Inv s)
    (hs : commitSegment s id row seq sliceCount = some s') : Inv s' ∧ Later s s' := by
  obtain ⟨⟨hfresh, hord⟩, rfl⟩ := of_guard hs
  refine ⟨⟨h.lake, ?_, ?_, ?_, ?_, ?_, ?_⟩, fun _ _ hx => hx, ?_⟩
  · intro id' row' hget
    rw [Map.get_insert] at hget
    rw [Map.get_insert, Map.get_insert]
    split at hget
    · rename_i hid
      cases hget
      rw [if_pos hid, if_pos hid]
      exact ⟨rfl, _, rfl, hord⟩
    · rename_i hid
      rw [if_neg hid, if_neg hid]
      exact h.index id' row' hget
  · intro id' seg hget
    rw [Map.get_insert] at hget ⊢
    split at hget
    · rename_i hid
      rw [if_pos hid]
      exact ⟨row, rfl⟩
    · rename_i hid
      rw [if_neg hid]
      exact h.segment id' seg hget
  · intro id' row' hget
    rw [Map.get_insert] at hget ⊢
    split at hget
    · rename_i hid
      cases hget
      exact .inl (if_pos hid)
    · rename_i hid
      rw [if_neg hid]
      exact h.kept id' row' hget
  · intro id' seg row' hget hrow e he hdone
    rw [Map.get_insert] at hget hrow
    split at hget
    · cases hget
      simp [SliceBitmap.isDone, SliceBitmap.new] at hdone
    · rename_i hid
      rw [if_neg hid] at hrow
      exact h.done id' seg row' hget hrow e he hdone
  · intro x hx ns
    rcases Finset.mem_union.mp hx with hx | hx
    · exact h.available x hx ns
    · -- The new segment's slices are in no lake: its id was never seen.
      intro hlake
      obtain ⟨e, -, rfl⟩ := List.mem_map.mp (List.mem_toFinset.mp hx)
      exact h.known ns _ hlake hfresh
  · intro ns x hx
    rw [Map.get_insert]
    split
    · exact Option.some_ne_none row
    · exact h.known ns x hx
  · intro id' row' hget
    rw [Map.get_insert, if_neg]
    · exact hget
    · rintro rfl
      rw [hfresh] at hget
      cases hget

theorem inv_lake {lake : Lake} {available : Finset WalSliceRef} (h : Inv s)
    (hc : (s.lakes ns).commit snap group = some lake) (hread : snap.Readable)
    (hslices : snap.slices = group.toFinset) (hnodup : group.Nodup)
    (hfresh : ∀ x ∈ group, x ∉ (s.lakes ns).current)
    (hknown : ∀ x ∈ group, s.committed.get x.segmentId ≠ none)
    (hav : available ⊆ s.available \ group.toFinset) :
    Inv { s with lakes := Function.update s.lakes ns lake, available := available } ∧
      Later s { s with lakes := Function.update s.lakes ns lake, available := available } := by
  obtain ⟨hok, hcur⟩ := lake_commit (h.lake ns) hc hread hslices hnodup hfresh
  have hmem : ∀ ns' x, x ∈ (Function.update s.lakes ns lake ns').current ↔
      x ∈ (s.lakes ns').current ∨ (ns' = ns ∧ x ∈ group) := by
    intro ns' x
    by_cases hns : ns' = ns
    · subst hns
      rw [Function.update_self, hcur, List.mem_append]
      simp
    · rw [Function.update_of_ne hns]
      simp [hns]
  have hgrow : ∀ id e, InLake s id e →
      InLake { s with lakes := Function.update s.lakes ns lake, available := available } id e :=
    fun id e hin => (hmem e.ns _).mpr (.inl hin)
  refine ⟨⟨?_, h.index, h.segment, ?_, ?_, ?_, ?_⟩, ?_, fun _ _ hr => hr⟩
  · intro ns'
    show LakeOk (Function.update s.lakes ns lake ns')
    by_cases hns : ns' = ns
    · subst hns
      rw [Function.update_self]
      exact hok
    · rw [Function.update_of_ne hns]
      exact h.lake ns'
  · intro id row hget
    rcases h.kept id row hget with hidx | hin
    · exact .inl hidx
    · exact .inr fun e he => hgrow id e (hin e he)
  · intro id seg row hget hrow e he hdone
    exact hgrow id e (h.done id seg row hget hrow e he hdone)
  · intro x hx ns' hlake
    obtain ⟨hxa, hxg⟩ := Finset.mem_sdiff.mp (hav hx)
    rcases (hmem ns' x).mp hlake with hold | ⟨-, hg⟩
    · exact h.available x hxa ns' hold
    · exact hxg (List.mem_toFinset.mpr hg)
  · intro ns' x hx
    rcases (hmem ns' x).mp hx with hold | ⟨-, hg⟩
    · exact h.known ns' x hold
    · exact hknown x hg
  · intro ns' x hx
    exact (hmem ns' x).mpr (.inl hx)

theorem inv_commitGroup (h : Inv s) (hs : commitGroup s ns snap group = some s') :
    Inv s' ∧ Later s s' := by
  unfold commitGroup at hs
  split at hs
  swap
  · cases hs
  rename_i hg
  obtain ⟨hnodup, hmem, hprop⟩ := hg
  obtain ⟨lake, hc, rfl⟩ := Option.map_eq_some_iff.mp hs
  obtain ⟨hread, hslices⟩ := snapshotSlices_of_walSlices hprop
  refine inv_lake h hc hread hslices hnodup (fun x hx => h.available x (hmem x hx).1 ns) ?_
    (Finset.Subset.refl _)
  intro x hx hnone
  have hin := (hmem x hx).2
  simp only [slicesIn, hnone] at hin
  cases hin

theorem inv_maintain (h : Inv s) (hs : maintain s ns snap = some s') : Inv s' ∧ Later s s' := by
  unfold maintain at hs
  split at hs
  swap
  · cases hs
  rename_i hprop
  obtain ⟨lake, hc, rfl⟩ := Option.map_eq_some_iff.mp hs
  refine inv_lake h hc ?_ ?_ List.nodup_nil nofun nofun ?_
  · intro value hv
    rw [hprop] at hv
    cases hv
  · simp only [Snapshot.slices, hprop]
    rfl
  · simp

theorem inv_markDone {ordinals : Finset Nat} (h : Inv s) (hs : markDone s id ordinals = some s') :
    Inv s' ∧ Later s s' := by
  unfold markDone at hs
  split at hs
  swap
  · cases hs
  rename_i seg row hseg hrow
  obtain ⟨hin, rfl⟩ := of_guard hs
  refine ⟨⟨h.lake, ?_, ?_, h.kept, ?_, h.available, h.known⟩, fun _ _ hx => hx, fun _ _ hr => hr⟩
  · intro id' row' hget
    obtain ⟨hc, seg', hseg', hord⟩ := h.index id' row' hget
    refine ⟨hc, ?_⟩
    rw [Map.get_insert]
    split
    · rename_i hid
      subst hid
      rw [hseg] at hseg'
      cases hseg'
      exact ⟨_, rfl, hord⟩
    · exact ⟨seg', hseg', hord⟩
  · intro id' seg' hget
    rcases Map.get_insert_cases hget with ⟨hid, -⟩ | ⟨-, hget⟩
    · rw [hid]
      exact ⟨row, hrow⟩
    · exact h.segment id' seg' hget
  · intro id' seg' row' hget hrow' e he hdone
    rcases Map.get_insert_cases hget with ⟨rfl, rfl⟩ | ⟨-, hget⟩
    · rw [hrow] at hrow'
      cases hrow'
      rcases (SliceBitmap.isDone_orBits seg.done ordinals e.ordinal).mp hdone with hold | ⟨hmem, -⟩
      · exact h.done id' seg row hseg hrow e he hold
      · exact hin e he hmem
    · exact h.done id' seg' row' hget hrow' e he hdone

theorem inv_reclaim (h : Inv s) (hs : reclaim s id = some s') : Inv s' ∧ Later s s' := by
  unfold reclaim at hs
  split at hs
  · cases hs
  rename_i seg hseg
  obtain ⟨hall, rfl⟩ := of_guard hs
  refine ⟨⟨h.lake, ?_, ?_, ?_, ?_, h.available, h.known⟩, fun _ _ hx => hx, fun _ _ hr => hr⟩
  · intro id' row' hget
    rw [Map.get_erase] at hget ⊢
    split at hget
    · cases hget
    · rename_i hid
      rw [if_neg hid]
      exact h.index id' row' hget
  · intro id' seg' hget
    rw [Map.get_erase] at hget ⊢
    split at hget
    · cases hget
    · rename_i hid
      rw [if_neg hid]
      exact h.segment id' seg' hget
  · intro id' row' hget
    rw [Map.get_erase]
    rcases h.kept id' row' hget with hidx | hin
    · split
      · rename_i hid
        subst hid
        obtain ⟨-, seg', hseg', hord⟩ := h.index id' row' hidx
        rw [hseg] at hseg'
        cases hseg'
        refine .inr fun e he => ?_
        exact h.done id' seg row' hseg hidx e he
          (SliceBitmap.isDone_of_allDone hall (hord e he))
      · exact .inl hidx
    · exact .inr hin
  · intro id' seg' row' hget hrow e he hdone
    rw [Map.get_erase] at hget hrow
    split at hget
    · cases hget
    · rename_i hid
      rw [if_neg hid] at hrow
      exact h.done id' seg' row' hget hrow e he hdone

theorem inv_step {l : Lbl} (h : Inv s) (hs : step s l = some s') : Inv s' ∧ Later s s' := by
  cases l with
  | commitSegment id row seq sliceCount => exact inv_commitSegment h hs
  | commitGroup ns snap group => exact inv_commitGroup h hs
  | maintain ns snap => exact inv_maintain h hs
  | markDone id ordinals => exact inv_markDone h hs
  | reclaim id => exact inv_reclaim h hs

theorem inv_init : Inv init :=
  ⟨fun _ => ⟨nofun, nofun, nofun, nofun, List.nodup_nil⟩, nofun, nofun, nofun, nofun, nofun, nofun⟩

end Skippr.L6.Boundary
