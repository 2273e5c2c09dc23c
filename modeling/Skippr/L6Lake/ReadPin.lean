import Skippr.Core.PagedScan
import Skippr.L6Lake.ReadBoundary

/-!
# Pinning a query while the writers run

`pin_union_leaves` reads the Index rows, then the Segment rows, then the lake.
The two catalog reads are scans of 100 rows a page (`query_all`), so the catalog
changes between the reads and within each of them.
-/
namespace Skippr.L6.Boundary

open Skippr.L1 Skippr.L2

/-! ## The pin as a process -/

/-- Catalog keys are ordered by their text. -/
instance : LinearOrder SegmentId :=
  LinearOrder.lift' SegmentId.raw fun a b h => by
    obtain ⟨a, ha⟩ := a
    obtain ⟨b, hb⟩ := b
    cases h
    rfl

/-- mirrors crates/skippr-wal-catalog/src/store.rs:66 -/
def pageSize : Nat := 100

inductive Pin
  | idle
  | indexes (ns : Text) (scan : Scan SegmentId IndexRow)
  | segments (ns : Text) (indexes : List (SegmentId × IndexRow)) (scan : Scan SegmentId SegmentRow)
  | lake (ns : Text) (live : List PinnedSlice)
  | failed (e : WalSliceRefError)
  | pinned (ns : Text) (leaves : UnionLeaves)

/-- The next read of the pin, in the state the writers are in.
mirrors src/sqlrt/tables.rs:611-706, store.rs:62-82 -/
def Pin.next (s : St) : Pin → Option Pin
  | .indexes ns scan =>
    let scan := scan.page pageSize s.indexes
    some (if scan.finished then .segments ns scan.out .start else .indexes ns scan)
  | .segments ns rows scan =>
    let scan := scan.page pageSize s.segments
    some (if scan.finished then .lake ns (liveSlices rows scan.out ns) else .segments ns rows scan)
  | .lake ns live =>
    match readBoundary live (s.lakes ns) with
    | .error e => some (.failed e)
    | .ok leaves => some (.pinned ns leaves)
  | .idle | .failed _ | .pinned _ _ => none

/-- `before` is what was committed when the pin started. -/
structure Sys where
  writers : St
  pin : Pin
  before : Map SegmentId IndexRow

inductive SysLbl
  | write (l : Lbl)
  | start (ns : Text)
  | read

def sysStep (s : Sys) : SysLbl → Option Sys
  | .write l => (step s.writers l).map fun w => { s with writers := w }
  | .start ns => some { s with pin := .indexes ns .start, before := s.writers.committed }
  | .read => (s.pin.next s.writers).map fun pin => { s with pin := pin }

def sysInit : Sys := ⟨init, .idle, ∅⟩

def sys : LTS Sys SysLbl := LTS.ofFn (· = sysInit) sysStep

/-! ## What each read has found -/

def OnLake (w : St) (id : SegmentId) (row : IndexRow) : Prop := ∀ e ∈ row.entries, InLake w id e

structure IndexesOk (w : St) (before : Map SegmentId IndexRow)
    (indexes : List (SegmentId × IndexRow)) : Prop where
  rows : ∀ e ∈ indexes, w.committed.get e.1 = some e.2
  sorted : indexes.Pairwise fun a b => a.1 < b.1
  covers : ∀ id row, before.get id = some row → (id, row) ∈ indexes ∨ OnLake w id row

structure LiveOk (w : St) (before : Map SegmentId IndexRow) (ns : Text) (live : List PinnedSlice) :
    Prop where
  nodup : (live.map PinnedSlice.sliceRef).Nodup
  covers : ∀ id row, before.get id = some row → ∀ e ∈ row.entries, e.ns = ns →
    (⟨id, e.start⟩ : WalSliceRef) ∈ live.map PinnedSlice.sliceRef ∨ InLake w id e

structure LeavesOk (before : Map SegmentId IndexRow) (ns : Text) (u : UnionLeaves) : Prop where
  nodup : u.slices.Nodup
  covers : ∀ id row, before.get id = some row → ∀ e ∈ row.entries, e.ns = ns →
    (⟨id, e.start⟩ : WalSliceRef) ∈ u.slices

/-- A slice committed before the pin has been read from the catalog or is in the
lake, which is read last. -/
def PinOk (w : St) (before : Map SegmentId IndexRow) : Pin → Prop
  | .idle | .failed _ => True
  | .indexes _ scan =>
    scan.Ok (fun id row => w.committed.get id = some row)
      fun id => ∀ row, before.get id = some row → OnLake w id row
  | .segments _ indexes scan =>
    IndexesOk w before indexes ∧
      scan.Ok (fun _ _ => True) fun id => ∀ row, (id, row) ∈ indexes → OnLake w id row
  | .lake ns live => LiveOk w before ns live
  | .pinned ns u => LeavesOk before ns u

variable {w : St} {before : Map SegmentId IndexRow} {indexes : List (SegmentId × IndexRow)}
  {ns : Text}

theorem PinOk.mono {w' : St} (hl : Later w w') :
    ∀ {pin : Pin}, PinOk w before pin → PinOk w' before pin := by
  have hlake : ∀ id row, OnLake w id row → OnLake w' id row :=
    fun id row h e he => hl.lake _ _ (h e he)
  intro pin h
  cases pin with
  | idle | failed e | pinned ns u => exact h
  | indexes ns scan =>
    exact Scan.Ok.mono h hl.committed fun id hg row hrow => hlake id row (hg row hrow)
  | segments ns indexes scan =>
    obtain ⟨hidx, hscan⟩ := h
    refine ⟨⟨fun e he => hl.committed _ _ (hidx.rows e he), hidx.sorted, ?_⟩, ?_⟩
    · intro id row hrow
      exact (hidx.covers id row hrow).imp_right (hlake id row)
    · exact hscan.mono (fun _ _ h => h) fun id hg row hrow => hlake id row (hg row hrow)
  | lake ns live =>
    refine ⟨h.nodup, fun id row hrow e he hns => ?_⟩
    exact (h.covers id row hrow e he hns).imp_right fun hin => hl.lake _ _ hin

/-! ## The reads -/

theorem mem_rowSlices {segments : List (SegmentId × SegmentRow)} {row : SegmentId × IndexRow}
    {p : PinnedSlice} (h : p ∈ rowSlices segments row) : p.segmentId = row.1 := by
  unfold rowSlices at h
  split at h
  · cases h
  · obtain ⟨e, -, rfl⟩ := List.mem_map.mp h
    rfl

theorem rowSlices_nodup (segments : List (SegmentId × SegmentRow)) (row : SegmentId × IndexRow) :
    ((rowSlices segments row).map PinnedSlice.sliceRef).Nodup := by
  unfold rowSlices
  split
  · exact List.nodup_nil
  · rw [List.map_map]
    have hinj : Function.Injective (WalSliceRef.mk row.1) := fun a b h => by
      cases h
      rfl
    have := List.Nodup.map hinj row.2.nodup
    rw [List.map_map] at this
    exact this

theorem liveSlices_nodup (hs : indexes.Pairwise fun a b => a.1 < b.1)
    (segments : List (SegmentId × SegmentRow)) (ns : Text) :
    ((liveSlices indexes segments ns).map PinnedSlice.sliceRef).Nodup := by
  have hflat : ((indexes.flatMap (rowSlices segments)).map PinnedSlice.sliceRef).Nodup := by
    rw [List.map_flatMap, List.nodup_flatMap]
    refine ⟨fun row _ => rowSlices_nodup segments row, hs.imp fun {a b} hlt => ?_⟩
    intro x ha hb
    obtain ⟨p, hp, rfl⟩ := List.mem_map.mp ha
    obtain ⟨q, hq, heq⟩ := List.mem_map.mp hb
    have hid : q.segmentId = p.segmentId := congrArg WalSliceRef.segmentId heq
    rw [mem_rowSlices hp, mem_rowSlices hq] at hid
    exact absurd hid hlt.ne'
  have hperm : (liveEntries indexes segments).Perm (indexes.flatMap (rowSlices segments)) :=
    List.perm_insertionSort _ _
  exact ((hperm.map _).nodup_iff.mpr hflat).sublist (List.filter_sublist.map _)

theorem mem_liveSlices {segments : List (SegmentId × SegmentRow)} {id : SegmentId} {row : IndexRow}
    {e : IndexEntry} {seg : SegmentRow} (hrow : (id, row) ∈ indexes) (hseg : (id, seg) ∈ segments)
    (he : e ∈ row.entries) :
    (⟨id, e.start⟩ : WalSliceRef) ∈ (liveSlices indexes segments e.ns).map PinnedSlice.sliceRef := by
  obtain ⟨found, hfound⟩ : ∃ found, segments.find? (·.1 = id) = some found := by
    refine Option.isSome_iff_exists.mp (List.find?_isSome.mpr ⟨_, hseg, ?_⟩)
    exact decide_eq_true rfl
  refine List.mem_map.mpr ⟨⟨found.2.seq, id, e⟩, ?_, rfl⟩
  simp only [liveSlices, liveEntries, List.mem_filter, List.mem_insertionSort, List.mem_flatMap]
  refine ⟨⟨(id, row), hrow, ?_⟩, by simp⟩
  simp only [rowSlices, hfound]
  exact List.mem_map_of_mem he

theorem pageSize_pos : 0 < pageSize := by decide

theorem pinOk_indexes {scan : Scan SegmentId IndexRow} (h : Inv w)
    (hb : ∀ id row, before.get id = some row → w.committed.get id = some row)
    (hp : PinOk w before (.indexes ns scan)) :
    PinOk w before (.indexes ns (scan.page pageSize w.indexes)) := by
  refine Scan.Ok.page pageSize_pos hp (fun id row hrow => (h.index id row hrow).1) ?_
  intro id hnone row hrow
  rcases h.kept id row (hb id row hrow) with hidx | hlake
  · rw [hnone] at hidx
    cases hidx
  · exact hlake

theorem indexesOk_of_finished {scan : Scan SegmentId IndexRow}
    (hb : ∀ id row, before.get id = some row → w.committed.get id = some row)
    (hp : PinOk w before (.indexes ns scan)) (hf : scan.finished = true) :
    IndexesOk w before scan.out := by
  refine ⟨fun e he => hp.rows e he, hp.sorted, ?_⟩
  intro id row hrow
  rcases hp.passed id (.inl hf) with ⟨row', hout⟩ | hgone
  · have := hp.rows _ hout
    rw [hb id row hrow] at this
    cases this
    exact .inl hout
  · exact .inr (hgone row hrow)

theorem pinOk_segments {scan : Scan SegmentId SegmentRow} (h : Inv w)
    (hp : PinOk w before (.segments ns indexes scan)) :
    PinOk w before (.segments ns indexes (scan.page pageSize w.segments)) := by
  obtain ⟨hidx, hscan⟩ := hp
  refine ⟨hidx, hscan.page pageSize_pos (fun _ _ _ => trivial) ?_⟩
  intro id hnone row hrow
  rcases h.kept id row (hidx.rows _ hrow) with hlive | hlake
  · obtain ⟨-, seg, hseg, -⟩ := h.index id row hlive
    rw [hnone] at hseg
    cases hseg
  · exact hlake

theorem liveOk_of_finished {scan : Scan SegmentId SegmentRow}
    (hp : PinOk w before (.segments ns indexes scan)) (hf : scan.finished = true) :
    LiveOk w before ns (liveSlices indexes scan.out ns) := by
  obtain ⟨hidx, hscan⟩ := hp
  refine ⟨liveSlices_nodup hidx.sorted scan.out ns, ?_⟩
  rintro id row hrow e he rfl
  rcases hidx.covers id row hrow with hin | hlake
  · rcases hscan.passed id (.inl hf) with ⟨seg, hseg⟩ | hgone
    · exact .inl (mem_liveSlices hin hseg he)
    · exact .inr (hgone row hin e he)
  · exact .inr (hlake e he)

theorem leavesOk_of_slices {live : List PinnedSlice} {excluded : Finset WalSliceRef} (h : Inv w)
    (hp : LiveOk w before ns live) (hex : ∀ r, r ∈ excluded ↔ r ∈ (w.lakes ns).current) :
    LeavesOk before ns ⟨(w.lakes ns).current, minusExcluded live excluded⟩ := by
  have hwal : ∀ r, r ∈ (minusExcluded live excluded).map PinnedSlice.sliceRef ↔
      r ∈ live.map PinnedSlice.sliceRef ∧ r ∉ (w.lakes ns).current := by
    intro r
    simp only [minusExcluded, List.mem_map, List.mem_filter, decide_eq_true_eq]
    constructor
    · rintro ⟨p, ⟨hp, hout⟩, rfl⟩
      exact ⟨⟨p, hp, rfl⟩, fun hin => hout ((hex _).mpr hin)⟩
    · rintro ⟨⟨p, hp, rfl⟩, hout⟩
      exact ⟨p, ⟨hp, fun hin => hout ((hex _).mp hin)⟩, rfl⟩
  constructor
  · refine List.nodup_append.mpr ⟨(h.lake ns).nodup, ?_, ?_⟩
    · exact hp.nodup.sublist (List.filter_sublist.map _)
    · rintro a ha b hb rfl
      exact ((hwal a).mp hb).2 ha
  · rintro id row hrow e he rfl
    refine List.mem_append.mpr ?_
    by_cases hin : (⟨id, e.start⟩ : WalSliceRef) ∈ (w.lakes e.ns).current
    · exact .inl hin
    · rcases hp.covers id row hrow e he rfl with hlive | hlake
      · exact .inr ((hwal _).mpr ⟨hlive, hin⟩)
      · exact absurd hlake hin

theorem leavesOk_readBoundary {live : List PinnedSlice} {u : UnionLeaves} (h : Inv w)
    (hp : LiveOk w before ns live) (hu : readBoundary live (w.lakes ns) = .ok u) :
    LeavesOk before ns u := by
  unfold readBoundary at hu
  split at hu
  · rename_i hcur
    have hnil : (w.lakes ns).current = [] := by simp [Lake.current, hcur, Lake.at]
    cases hu
    rw [← hnil]
    exact leavesOk_of_slices h hp fun r => by simp [hnil]
  · rename_i id hcur
    have hfiles : (w.lakes ns).current = (w.lakes ns).files id := by
      simp [Lake.current, hcur, Lake.at]
    split at hu
    · cases hu
    · rename_i excluded hwalk
      cases hu
      rw [← hfiles]
      refine leavesOk_of_slices h hp fun r => ?_
      rw [hfiles]
      exact excluded_iff (h.lake ns) ((h.lake ns).current id hcur) hwalk r

theorem pinOk_next {pin pin' : Pin} (h : Inv w)
    (hb : ∀ id row, before.get id = some row → w.committed.get id = some row)
    (hp : PinOk w before pin) (hn : pin.next w = some pin') : PinOk w before pin' := by
  cases pin with
  | idle | failed e | pinned ns u => cases hn
  | indexes ns scan =>
    have hpage := pinOk_indexes h hb hp
    simp only [Pin.next, Option.some.injEq] at hn
    split at hn
    · rename_i hf
      subst hn
      exact ⟨indexesOk_of_finished hb hpage hf, .start⟩
    · subst hn
      exact hpage
  | segments ns indexes scan =>
    have hpage := pinOk_segments h hp
    simp only [Pin.next, Option.some.injEq] at hn
    split at hn
    · rename_i hf
      subst hn
      exact liveOk_of_finished hpage hf
    · subst hn
      exact hpage
  | lake ns live =>
    simp only [Pin.next] at hn
    split at hn
    · cases hn
      trivial
    · rename_i u hu
      cases hn
      exact leavesOk_readBoundary h hp hu

/-! ## Every run -/

structure SysInv (s : Sys) : Prop where
  writers : Inv s.writers
  before : ∀ id row, s.before.get id = some row → s.writers.committed.get id = some row
  pin : PinOk s.writers s.before s.pin

theorem sysInv_step {s s' : Sys} {l : SysLbl} (h : SysInv s) (hs : sysStep s l = some s') :
    SysInv s' := by
  cases l with
  | write l =>
    obtain ⟨w, hw, rfl⟩ := Option.map_eq_some_iff.mp hs
    obtain ⟨hinv, hl⟩ := inv_step h.writers hw
    exact ⟨hinv, fun id row hrow => hl.committed id row (h.before id row hrow), h.pin.mono hl⟩
  | start ns =>
    cases hs
    exact ⟨h.writers, fun _ _ hrow => hrow, .start⟩
  | read =>
    obtain ⟨pin, hn, rfl⟩ := Option.map_eq_some_iff.mp hs
    exact ⟨h.writers, h.before, pinOk_next h.writers h.before h.pin hn⟩

theorem sysInv_inductive : sys.Inductive SysInv where
  init := by
    rintro s rfl
    exact ⟨inv_init, nofun, trivial⟩
  step _ _ _ h hs := sysInv_step h hs

theorem count_rows (u : UnionLeaves) (rows : WalSliceRef → Nat) (x : WalSliceRef) {i : Nat}
    (hi : i < rows x) : (u.rows rows).count (x, i) = u.slices.count x := by
  unfold UnionLeaves.rows
  induction u.slices with
  | nil => rfl
  | cons y l ih =>
    rw [List.flatMap_cons, List.count_append, ih, List.count_cons, Nat.add_comm]
    congr 1
    have hinj : Function.Injective fun j : Nat => (y, j) := fun a b h => (Prod.mk.inj h).2
    by_cases hxy : y = x
    · subst hxy
      rw [List.count_map_of_injective _ _ hinj, List.count_eq_one_of_mem List.nodup_range
        (List.mem_range.mpr hi)]
      simp
    · rw [List.count_eq_zero_of_not_mem]
      · simp [hxy]
      · intro hmem
        obtain ⟨j, -, hj⟩ := List.mem_map.mp hmem
        exact hxy (Prod.mk.inj hj).1

theorem nodup_rows {u : UnionLeaves} (h : u.slices.Nodup) (rows : WalSliceRef → Nat) :
    (u.rows rows).Nodup := by
  refine List.nodup_flatMap.mpr ⟨fun x _ => ?_, h.imp fun {x y} hxy => ?_⟩
  · exact List.nodup_range.map fun a b hab => (Prod.mk.inj hab).2
  · intro r hx hy
    obtain ⟨i, -, rfl⟩ := List.mem_map.mp hx
    obtain ⟨j, -, hj⟩ := List.mem_map.mp hy
    exact hxy (Prod.mk.inj hj).1.symm

def Pin.pinnedNs : Pin → Option Text
  | .pinned ns _ => some ns
  | _ => none

def segmentA : SegmentId := ⟨['a'], rfl⟩

def rowA : IndexRow := ⟨[⟨0, 0, ['t']⟩], List.nodup_singleton _⟩

def reclaimedRun : List SysLbl :=
  let group : List WalSliceRef := [⟨segmentA, 0⟩]
  [.write (.commitSegment segmentA rowA 1 1), .start ['t'], .read,
    .write (.commitGroup ['t'] ⟨7, none, 1, 0, none, some (encodeWalSlices group), none, none⟩ group),
    .write (.markDone segmentA {0}), .write (.reclaim segmentA), .read, .read]

end Skippr.L6.Boundary
