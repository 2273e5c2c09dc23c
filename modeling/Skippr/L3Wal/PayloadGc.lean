import Skippr.Core.LTS
import Skippr.Core.Map
import Skippr.L1Encoding.WalSliceRef

/-!
# WAL payloads and the collection of orphans

A segment's payload is a file of the pipeline's `segs` directory or an S3
object; the segment row names it. `persist_segment` writes the payload before it
commits the row, a migration writes a second payload and points the row at it
(src/migration/wal.rs), a reclaim deletes the row before the payload. What a
crash in between leaves behind is deleted by `gc_orphan_payloads` at the next
start (src/buffer/wal_catalog_import.rs).
-/
namespace Skippr.L3.Payload

open Skippr.L1 (SegmentId)

/-! ## File names -/

def seg : Text := ['s', 'e', 'g']

/-- `.seg.tmp`, the end of a file that is still being written. -/
def tmpEnd : Text := ['.', 's', 'e', 'g', '.', 't', 'm', 'p']

def migrating : Text := ['-', 'm', 'i', 'g', 'r', 'a', 't', 'i', 'n', 'g']

structure Path where
  dir : Text
  name : Text
deriving DecidableEq, Repr

def fileStem (name : Text) : Text :=
  match rsplitOnce '.' name with
  | some ([], _) => name
  | some (stem, _) => stem
  | none => name

def extension (name : Text) : Option Text :=
  match rsplitOnce '.' name with
  | some ([], _) => none
  | some (_, ext) => some ext
  | none => none

/-- mirrors src/buffer/segment_file.rs:620-625 -/
def segmentFile (dir id : Text) : Path := ⟨dir, id ++ '.' :: seg⟩

/-- The file `write_payload_atomically` fills before it renames it.
mirrors segment_file.rs:663 -/
def tmpFile (p : Path) : Path := ⟨p.dir, fileStem p.name ++ tmpEnd⟩

inductive PayloadLocation
  | disk (path : Path)
  | s3 (bucket key : Text)
deriving DecidableEq, Repr

/-- Where a migration puts the rewritten payload of a segment.
mirrors wal.rs:219-255 -/
def rewrittenLocation (id : SegmentId) : PayloadLocation → PayloadLocation
  | .disk path => .disk (segmentFile path.dir (id.raw ++ migrating))
  | .s3 bucket key => .s3 bucket (key ++ migrating)

variable {x : Text} {cfg : Config} {rows : Rows}

theorem stem_segmentFile (dir : Text) (hx : x ≠ []) :
    fileStem (segmentFile dir x).name = x ∧ extension (segmentFile dir x).name = some seg := by
  have hsplit : rsplitOnce '.' (x ++ '.' :: seg) = some (x, seg) := rsplitOnce_append (by decide) x
  cases x with
  | nil => exact absurd rfl hx
  | cons c x => simp only [fileStem, extension, segmentFile, hsplit, and_self]

theorem not_tmpEnd_segmentFile (dir x : Text) : ¬ tmpEnd <:+ (segmentFile dir x).name := by
  rintro ⟨front, hfront⟩
  have hlast := congrArg List.getLast? hfront
  simp [segmentFile, seg, tmpEnd] at hlast

/-! ## The collection -/

abbrev Rows := Map SegmentId PayloadLocation

structure Config where
  segs : Text
  /-- `WalStorage::S3` -/
  onS3 : Bool
  bucket : Text
  /-- `get_wal_s3_prefix` -/
  keyBase : Text
deriving DecidableEq, Repr

def liveIds (rows : Rows) : List Text := rows.keys.map (·.raw)

def liveS3Keys (rows : Rows) : List Text :=
  rows.toList.filterMap fun r =>
    match r.2 with
    | .s3 _ key => some key
    | .disk _ => none

/-- Whether the loop over the `segs` directory drops an entry.
mirrors wal_catalog_import.rs:1000-1020 -/
def IsOrphan (live : List Text) (name : Text) : Prop :=
  tmpEnd <:+ name ∨ (extension name = some seg ∧ fileStem name ∉ live)

instance (live : List Text) (name : Text) : Decidable (IsOrphan live name) :=
  inferInstanceAs (Decidable (_ ∨ _))

def s3WalListCeiling : Nat := 500000

/-- mirrors wal_catalog_import.rs:259-274 -/
def listWalPrefix (cfg : Config) (objects : Finset (Text × Text)) : Option (Finset (Text × Text)) :=
  let listed := objects.filter fun o => o.1 = cfg.bucket ∧ cfg.keyBase <+: o.2
  if s3WalListCeiling ≤ listed.card then none else some listed

/-- mirrors wal_catalog_import.rs:1028-1041 -/
def gcOrphanS3Payloads (cfg : Config) (live : List Text) (objects : Finset (Text × Text)) :
    Option (Finset PayloadLocation) :=
  (listWalPrefix cfg objects).map fun listed =>
    (listed.filter fun o => '.' :: seg <:+ o.2 ∧ o.2 ∉ live).image fun o => .s3 cfg.bucket o.2

/-- mirrors wal_catalog_import.rs:998-1021 -/
def gcOrphanFiles (cfg : Config) (live : List Text) (files : Finset Path) : Finset PayloadLocation :=
  (files.filter fun p => p.dir = cfg.segs ∧ IsOrphan live p.name).image .disk

/-- The payloads `gc_orphan_payloads` deletes; it returns an error after the
files if the bucket listing fails.
mirrors wal_catalog_import.rs:984-1026 -/
def gcOrphanPayloads (cfg : Config) (rows : Rows) (files : Finset Path)
    (objects : Finset (Text × Text)) : Finset PayloadLocation :=
  gcOrphanFiles cfg (liveIds rows) files ∪
    if cfg.onS3 then (gcOrphanS3Payloads cfg (liveS3Keys rows) objects).getD ∅ else ∅

def gcSucceeds (cfg : Config) (objects : Finset (Text × Text)) : Bool :=
  !cfg.onS3 || (listWalPrefix cfg objects).isSome

/-! ## The calls -/

/-- A payload is written for a new row, or to replace the one at `old`. -/
inductive Purpose
  | fresh
  | rewrite (old : PayloadLocation)
deriving DecidableEq, Repr

inductive Call
  /-- Look the row up; if there is none, write the payload. -/
  | look (id : SegmentId) (target : PayloadLocation)
  | write (id : SegmentId) (target : PayloadLocation) (purpose : Purpose)
  /-- The bytes are in the temporary file. -/
  | rename (id : SegmentId) (path : Path) (purpose : Purpose)
  | commit (id : SegmentId) (target : PayloadLocation) (purpose : Purpose)
  | drop (location : PayloadLocation)
deriving DecidableEq

structure St where
  up : Bool
  rows : Rows
  files : Finset Path
  objects : Finset (Text × Text)
  calls : Map Nat Call

/-- `fail` is an error return between two effects; `undeleted` are the files
and objects a collection did not get to or failed to delete. -/
inductive Lbl
  | persist (n : Nat) (id : SegmentId)
  | persistS3 (n : Nat) (id : SegmentId) (bucket key : Text)
  | rewrite (n : Nat) (id : SegmentId)
  | reclaim (n : Nat) (id : SegmentId)
  | advance (n : Nat)
  | fail (n : Nat)
  | crash
  | restart (undeleted : List PayloadLocation)
deriving DecidableEq

def St.present (s : St) : PayloadLocation → Bool
  | .disk path => path ∈ s.files
  | .s3 bucket key => (bucket, key) ∈ s.objects

def St.setCall (s : St) (n : Nat) (c : Call) : St := { s with calls := s.calls.insert n c }

def St.endCall (s : St) (n : Nat) : St := { s with calls := s.calls.erase n }

def St.begin (s : St) (n : Nat) (c : Call) : Option St :=
  if s.up ∧ s.calls.get n = none then some (s.setCall n c) else none

def St.delete (s : St) (doomed : Finset PayloadLocation) : St :=
  { s with
    files := s.files.filter fun p => .disk p ∉ doomed
    objects := s.objects.filter fun o => .s3 o.1 o.2 ∉ doomed }

/-- mirrors segment_file.rs:662-677 (files), wal.rs:239-249 (objects) -/
def writeStep (s : St) (n : Nat) (id : SegmentId) (purpose : Purpose) : PayloadLocation → St
  | .disk path => { s.setCall n (.rename id path purpose) with files := insert (tmpFile path) s.files }
  | .s3 bucket key =>
    { s.setCall n (.commit id (.s3 bucket key) purpose) with
      objects := insert (bucket, key) s.objects }

/-- `commit_new_segment` and `replace_payload_location`.
mirrors src/buffer/wal_handle.rs:797-811, 1075-1106, wal.rs:256-309 -/
def commitStep (s : St) (n : Nat) (id : SegmentId) (target : PayloadLocation) : Purpose → St
  | .fresh =>
    match s.rows.get id with
    | some _ => s.endCall n
    | none => { s.endCall n with rows := s.rows.insert id target }
  | .rewrite old =>
    match s.rows.get id with
    | none => s.endCall n
    | some _ =>
      if old = target then { s.endCall n with rows := s.rows.insert id target }
      else { s.setCall n (.drop old) with rows := s.rows.insert id target }

def advance (s : St) (n : Nat) : Call → St
  | .look id target =>
    match s.rows.get id with
    | some _ => s.endCall n
    | none => s.setCall n (.write id target .fresh)
  | .write id target purpose => writeStep s n id purpose target
  | .rename id path purpose =>
    if tmpFile path ∈ s.files then
      { s.setCall n (.commit id (.disk path) purpose) with
        files := insert path (s.files.erase (tmpFile path)) }
    else s.endCall n
  | .commit id target purpose => commitStep s n id target purpose
  | .drop location => (s.endCall n).delete {location}

/-- `wal_startup` on a catalog whose format row is clean.
mirrors src/buffer/wal_startup.rs:10-42 -/
def restart (cfg : Config) (s : St) (undeleted : List PayloadLocation) : St :=
  { s.delete ((gcOrphanPayloads cfg s.rows s.files s.objects).filter (· ∉ undeleted)) with
    up := gcSucceeds cfg s.objects }

def step (cfg : Config) (s : St) : Lbl → Option St
  | .persist n id => s.begin n (.look id (.disk (segmentFile cfg.segs id.raw)))
  | .persistS3 n id bucket key => s.begin n (.look id (.s3 bucket key))
  | .rewrite n id =>
    match s.rows.get id with
    | some location =>
      if s.present location then
        s.begin n (.write id (rewrittenLocation id location) (.rewrite location))
      else none
    | none => none
  | .reclaim n id =>
    match s.rows.get id with
    | some location =>
      (s.begin n (.drop location)).map fun s => { s with rows := s.rows.erase id }
    | none => none
  | .advance n => (s.calls.get n).map (advance s n)
  | .fail n => some (s.endCall n)
  | .crash => some { s with up := false, calls := ∅ }
  | .restart undeleted => if s.up then none else some (restart cfg s undeleted)

/-- A catalog that holds no rewritten segment, as `persist_segment` and the import
of an older release leave it. -/
def Initial (cfg : Config) (s : St) : Prop :=
  s.up = false ∧ s.calls = ∅ ∧
    ∀ id path, s.rows.get id = some (.disk path) → path = segmentFile cfg.segs id.raw

def lts (cfg : Config) : LTS St Lbl := LTS.ofFn (Initial cfg) (step cfg)

/-! ## What rows point at -/

def Named (cfg : Config) (id : SegmentId) : PayloadLocation → Prop
  | .disk path =>
    path = segmentFile cfg.segs id.raw ∨ path = segmentFile cfg.segs (id.raw ++ migrating)
  | .s3 _ _ => True

theorem Named.rewritten {id : SegmentId} {location : PayloadLocation} (h : Named cfg id location) :
    Named cfg id (rewrittenLocation id location) := by
  cases location with
  | s3 bucket key => trivial
  | disk path =>
    have hdir : path.dir = cfg.segs := by
      cases h with
      | inl h | inr h => rw [h]; rfl
    show _ ∨ _
    rw [hdir]
    exact .inr rfl

def CallOk (cfg : Config) : Call → Prop
  | .look id target => Named cfg id target
  | .write id target _ => Named cfg id target
  | .rename id path _ => Named cfg id (.disk path)
  | .commit id target _ => Named cfg id target
  | .drop _ => True

structure Inv (cfg : Config) (s : St) : Prop where
  rows : ∀ id location, s.rows.get id = some location → Named cfg id location
  calls : ∀ n c, s.calls.get n = some c → CallOk cfg c

section Invariant
variable {cfg : Config} {s s' : St} {n : Nat}

variable {c : Call}

theorem Inv.setCall (h : Inv cfg s) (hc : CallOk cfg c) : Inv cfg (s.setCall n c) where
  rows := h.rows
  calls m d hd := by
    replace hd : Map.get (s.calls.insert n c) m = some d := hd
    rcases Map.get_insert_cases hd with ⟨-, rfl⟩ | ⟨-, hd⟩
    · exact hc
    · exact h.calls m d hd

theorem Inv.endCall (h : Inv cfg s) : Inv cfg (s.endCall n) where
  rows := h.rows
  calls m d hd := by
    replace hd : Map.get (s.calls.erase n) m = some d := hd
    exact h.calls m d (Map.of_get_erase hd).2

theorem Inv.insertRow (h : Inv cfg s) {id : SegmentId} {target : PayloadLocation}
    (ht : Named cfg id target) : Inv cfg { s with rows := s.rows.insert id target } where
  rows other location hl := by
    rcases Map.get_insert_cases hl with ⟨hid, rfl⟩ | ⟨-, hl⟩
    · exact hid ▸ ht
    · exact h.rows other location hl
  calls := h.calls

theorem Inv.eraseRow (h : Inv cfg s) (id : SegmentId) :
    Inv cfg { s with rows := s.rows.erase id } where
  rows other location hl := by
    exact h.rows other location (Map.of_get_erase hl).2
  calls := h.calls

theorem inv_begin (h : Inv cfg s) (hc : CallOk cfg c) (hs : s.begin n c = some s') :
    Inv cfg s' := by
  obtain ⟨-, rfl⟩ := of_guard hs
  exact h.setCall hc

theorem inv_commitStep (h : Inv cfg s) {id : SegmentId} {target : PayloadLocation}
    (ht : Named cfg id target) (purpose : Purpose) :
    Inv cfg (commitStep s n id target purpose) := by
  cases purpose with
  | fresh =>
    simp only [commitStep]
    split
    · exact h.endCall
    · exact h.endCall.insertRow ht
  | rewrite old =>
    simp only [commitStep]
    split
    · exact h.endCall
    · split
      · exact h.endCall.insertRow ht
      · exact (h.setCall (c := .drop old) trivial).insertRow ht

theorem inv_advance (h : Inv cfg s) (hc : CallOk cfg c) : Inv cfg (advance s n c) := by
  cases c with
  | look id target =>
    simp only [advance]
    split
    · exact h.endCall
    · exact h.setCall hc
  | write id target purpose =>
    cases target with
    | disk path => exact { h.setCall (c := .rename id path purpose) hc with }
    | s3 bucket key => exact { h.setCall (c := .commit id (.s3 bucket key) purpose) hc with }
  | rename id path purpose =>
    simp only [advance]
    split
    · exact { h.setCall (c := .commit id (.disk path) purpose) hc with }
    · exact h.endCall
  | commit id target purpose => exact inv_commitStep h hc purpose
  | drop location => exact { h.endCall with }

theorem inv_inductive (cfg : Config) : (lts cfg).Inductive (Inv cfg) where
  init s hs := by
    obtain ⟨-, hcalls, hrows⟩ := hs
    constructor
    · intro id location hl
      cases location with
      | disk path => exact .inl (hrows id path hl)
      | s3 bucket key => trivial
    · intro n c hc
      rw [hcalls] at hc
      cases hc
  step s l s' h hstep := by
    cases l with
    | persist n id =>
      have hc : CallOk cfg (.look id (.disk (segmentFile cfg.segs id.raw))) := .inl rfl
      exact inv_begin h hc hstep
    | persistS3 n id bucket key => exact inv_begin h (c := .look id (.s3 bucket key)) trivial hstep
    | rewrite n id =>
      simp only [lts, LTS.ofFn, step] at hstep
      split at hstep
      · rename_i location hl
        split at hstep
        · have hc : CallOk cfg (.write id (rewrittenLocation id location) (.rewrite location)) :=
            (h.rows id location hl).rewritten
          exact inv_begin h hc hstep
        · cases hstep
      · cases hstep
    | reclaim n id =>
      simp only [lts, LTS.ofFn, step] at hstep
      split at hstep
      · rename_i location hl
        obtain ⟨s₁, hs₁, rfl⟩ := Option.map_eq_some_iff.1 hstep
        exact (inv_begin h (c := .drop location) trivial hs₁).eraseRow id
      · cases hstep
    | advance n =>
      obtain ⟨c, hc, rfl⟩ := Option.map_eq_some_iff.1 hstep
      exact inv_advance h (h.calls n c hc)
    | fail n =>
      cases hstep
      exact h.endCall
    | crash =>
      cases hstep
      exact ⟨h.rows, fun n c hc => by cases hc⟩
    | restart undeleted =>
      simp only [lts, LTS.ofFn, step] at hstep
      obtain ⟨-, rfl⟩ := of_guard_not hstep
      exact { h with }

end Invariant

/-! ## What a collection keeps -/

theorem mem_liveIds : x ∈ liveIds rows ↔ ∃ id, rows.get id ≠ none ∧ id.raw = x := by
  simp only [liveIds, List.mem_map, Map.mem_keys_iff]

theorem isOrphan_segmentFile (live : List Text) (dir : Text) (hx : x ≠ []) :
    IsOrphan live (segmentFile dir x).name ↔ x ∉ live := by
  unfold IsOrphan
  rw [(stem_segmentFile dir hx).1, (stem_segmentFile dir hx).2]
  simp [not_tmpEnd_segmentFile dir x]

theorem disk_mem_gc {files : Finset Path} {objects : Finset (Text × Text)} {path : Path} :
    .disk path ∈ gcOrphanPayloads cfg rows files objects ↔
      path ∈ files ∧ path.dir = cfg.segs ∧ IsOrphan (liveIds rows) path.name := by
  have hs3 : .disk path ∉ (gcOrphanS3Payloads cfg (liveS3Keys rows) objects).getD ∅ := by
    cases hlist : listWalPrefix cfg objects <;> simp [gcOrphanS3Payloads, hlist]
  unfold gcOrphanPayloads
  split <;> simp [gcOrphanFiles, hs3]

theorem s3_not_mem_gc {files : Finset Path} {objects : Finset (Text × Text)} {id : SegmentId}
    {bucket key : Text} (hrow : rows.get id = some (.s3 bucket key)) :
    .s3 bucket key ∉ gcOrphanPayloads cfg rows files objects := by
  have hlive : key ∈ liveS3Keys rows :=
    List.mem_filterMap.2 ⟨(id, .s3 bucket key), (Map.mem_toList _ _ _).2 hrow, rfl⟩
  have hs3 : .s3 bucket key ∉ (gcOrphanS3Payloads cfg (liveS3Keys rows) objects).getD ∅ := by
    cases hlist : listWalPrefix cfg objects with
    | none => simp [gcOrphanS3Payloads, hlist]
    | some listed =>
      simp only [gcOrphanS3Payloads, hlist, Option.map_some, Option.getD_some, Finset.mem_image,
        Finset.mem_filter, not_exists, not_and]
      intro o ho heq
      obtain ⟨-, rfl⟩ := PayloadLocation.s3.inj heq
      exact ho.2.2 hlive
  unfold gcOrphanPayloads
  split <;> simp [gcOrphanFiles, hs3]

/-- **What a collection deletes.** In every reachable state, a collection
deletes no payload that a live row points at exactly when every segment whose
rewritten payload lies in the `segs` directory shares the catalog with a segment
called after that payload. -/
theorem gc_keeps_live_iff (cfg : Config) (s : St) (h : (lts cfg).Reachable s) :
    (∀ id location, s.rows.get id = some location →
        location ∉ gcOrphanPayloads cfg s.rows s.files s.objects) ↔
      ∀ id, s.rows.get id = some (.disk (segmentFile cfg.segs (id.raw ++ migrating))) →
        segmentFile cfg.segs (id.raw ++ migrating) ∈ s.files →
        ∃ other, s.rows.get other ≠ none ∧ other.raw = id.raw ++ migrating := by
  have hinv := (inv_inductive cfg).reachable s h
  have hne : ∀ id : SegmentId, id.raw ++ migrating ≠ [] := fun id hnil => by
    simp [migrating] at hnil
  constructor
  · intro hkeeps id hrow hfile
    have hkept := hkeeps id _ hrow
    rw [disk_mem_gc] at hkept
    rw [← mem_liveIds]
    by_contra hid
    exact hkept ⟨hfile, rfl, (isOrphan_segmentFile _ _ (hne id)).2 hid⟩
  · intro hcond id location hrow
    cases location with
    | s3 bucket key => exact s3_not_mem_gc hrow
    | disk path =>
      rw [disk_mem_gc]
      intro hmem
      obtain ⟨hfile, -, horphan⟩ := hmem
      cases hinv.rows id _ hrow with
      | inl hpath =>
        subst hpath
        apply (isOrphan_segmentFile _ _ id.raw_ne_nil).1 horphan
        exact mem_liveIds.2 ⟨id, by rw [hrow]; exact Option.some_ne_none _, rfl⟩
      | inr hpath =>
        subst hpath
        apply (isOrphan_segmentFile _ _ (hne id)).1 horphan
        exact mem_liveIds.2 (hcond id hrow hfile)

/-! ## A rename and a restart -/

def t1 : SegmentId := ⟨['t', '1'], rfl⟩

def onDisk : Config := ⟨['s', 'e', 'g', 's'], false, [], []⟩

def emptyState : St := ⟨false, ∅, ∅, ∅, ∅⟩

def crashedPersist : List Lbl :=
  [.restart [], .persist 0 t1, .advance 0, .advance 0, .advance 0, .advance 0,
    .persist 1 ⟨['t', '2'], rfl⟩, .advance 1, .advance 1, .advance 1, .crash]

def crashedState : St := (exec (step onDisk) emptyState crashedPersist).get (by decide +kernel)

def rewriteRun : List Lbl :=
  [.restart [], .persist 0 t1, .advance 0, .advance 0, .advance 0, .advance 0,
    .rewrite 0 t1, .advance 0, .advance 0, .advance 0, .advance 0, .crash]

def rewrittenState : St := (exec (step onDisk) emptyState rewriteRun).get (by decide +kernel)

theorem initial_emptyState : Initial onDisk emptyState :=
  ⟨rfl, rfl, fun _ _ h => by cases h⟩

/-- The orphan of the cut persist goes, the payload of `t1` stays. -/
theorem gc_keeps_live_crashed :
    (lts onDisk).Reachable crashedState ∧
      gcOrphanPayloads onDisk crashedState.rows crashedState.files crashedState.objects =
        {.disk (segmentFile onDisk.segs ['t', '2'])} ∧
      ∀ id location, crashedState.rows.get id = some location → location ∉
        gcOrphanPayloads onDisk crashedState.rows crashedState.files crashedState.objects := by
  have hreach : (lts onDisk).Reachable crashedState :=
    reachable_of_exec initial_emptyState (Option.some_get _).symm
  refine ⟨hreach, by decide +kernel, (gc_keeps_live_iff onDisk crashedState hreach).2 ?_⟩
  intro id _ hfile
  have hfiles : crashedState.files =
      {segmentFile onDisk.segs ['t', '1'], segmentFile onDisk.segs ['t', '2']} := by decide +kernel
  rw [hfiles] at hfile
  have hlen : (id.raw ++ migrating).length = 2 := by
    simp only [Finset.mem_insert, Finset.mem_singleton, segmentFile, Path.mk.injEq, true_and,
      List.append_cancel_right_eq] at hfile
    cases hfile with
    | inl h | inr h => rw [h]; rfl
  simp [migrating] at hlen

/-- The file of the rewritten segment is called `t1-migrating.seg`: the
collection of the next start deletes it, and the row still points at it. -/
theorem rewritten_payload_collected :
    (lts onDisk).Reachable rewrittenState ∧
      rewrittenState.rows.get t1 = some (.disk (segmentFile onDisk.segs (t1.raw ++ migrating))) ∧
      .disk (segmentFile onDisk.segs (t1.raw ++ migrating)) ∈ gcOrphanPayloads onDisk
        rewrittenState.rows rewrittenState.files rewrittenState.objects ∧
      (restart onDisk rewrittenState []).rows.get t1 =
        some (.disk (segmentFile onDisk.segs (t1.raw ++ migrating))) ∧
      (restart onDisk rewrittenState []).files = ∅ :=
  ⟨reachable_of_exec initial_emptyState (Option.some_get _).symm, by decide +kernel,
    by decide +kernel, by decide +kernel, by decide +kernel⟩

end Skippr.L3.Payload
