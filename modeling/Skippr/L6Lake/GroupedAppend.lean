import Skippr.Core.LTS
import Skippr.Core.Map
import Skippr.L6Lake.History

/-!
# Grouped appends and their idempotency gate
(crates/skippr-iceberg-writer/src/lib.rs)

A grouped commit is recognised by the properties of its snapshot: before every
attempt the writer looks for them among the snapshots of the table it is about
to extend. The catalog accepts the attempt only if `main` is still the snapshot
the writer looked at. Writers work from cached metadata of any age; maintenance
adds snapshots and history expiry removes them in between.
-/
namespace Skippr.L6.Append

open Skippr.L1

inductive SnapshotProp
  | compactionId
  | idempotencyKey
  | schemaFingerprint
  | walFingerprint
  | walRefCount
  | walSlices
  | pipeline
  | maintenance
  | deletedDataFiles
  | removedDeleteFiles
deriving DecidableEq, Repr

structure ObjectWriteManifest where
  compactionId : Text
  idempotencyKey : Text
  schemaFingerprint : Text
  walRefsFingerprint : Text
  walRefCount : Nat
  walRefsFingerprintV2 : Option Text
  walSlices : List WalSliceRef

/-- mirrors lib.rs:3322-3352 -/
def groupedSnapshotProperties (m : ObjectWriteManifest) : List (SnapshotProp × Text) :=
  [(.compactionId, m.compactionId),
    (.idempotencyKey, m.idempotencyKey),
    (.schemaFingerprint, m.schemaFingerprint),
    (.walFingerprint, m.walRefsFingerprintV2.getD m.walRefsFingerprint),
    (.walRefCount, showNat m.walRefCount),
    (.walSlices, encodeWalSlices m.walSlices)]

abbrev Props := Map SnapshotProp Text

/-- mirrors lib.rs:3312-3319 -/
def groupedCommitProperties (pipeline : Text) (m : ObjectWriteManifest) : Props :=
  (groupedSnapshotProperties m).foldr (fun kv props => props.insert kv.1 kv.2)
    ((∅ : Props).insert .pipeline pipeline)

/-- mirrors lib.rs:1470-1479; the file counts
are Iceberg's own summary of the rewrite. -/
def maintenanceProperties (pipeline fingerprint deleted removed : Text) : Props :=
  ((((∅ : Props).insert .removedDeleteFiles removed).insert .deletedDataFiles deleted).insert
    .maintenance fingerprint).insert .pipeline pipeline

structure Snap where
  snapshotId : Int
  parentSnapshotId : Option Int
  sequenceNumber : Int
  timestampMs : Int
  props : Props

def Snap.snapshot (s : Snap) : Snapshot where
  snapshotId := s.snapshotId
  parentSnapshotId := s.parentSnapshotId
  sequenceNumber := s.sequenceNumber
  timestampMs := s.timestampMs
  pipeline := s.props.get .pipeline
  walSlices := s.props.get .walSlices
  deletedDataFiles := s.props.get .deletedDataFiles
  removedDeleteFiles := s.props.get .removedDeleteFiles

structure Table where
  snapshots : List Snap
  refs : List Int
  currentSnapshotId : Option Int
  lastSequenceNumber : Int
  nodup : (snapshots.map Snap.snapshotId).Nodup

namespace Table

def empty : Table := ⟨[], [], none, 0, List.nodup_nil⟩

def metadata (t : Table) : TableMetadata where
  snapshots := t.snapshots.map Snap.snapshot
  refs := t.refs
  currentSnapshotId := t.currentSnapshotId
  nodup := by
    rw [List.map_map]
    exact t.nodup

def next (t : Table) (id timestampMs : Int) (props : Props) : Snap where
  snapshotId := id
  parentSnapshotId := t.currentSnapshotId
  sequenceNumber := t.lastSequenceNumber + 1
  timestampMs := timestampMs
  props := props

/-- `AddSnapshot` and `SetSnapshotRef` of `main`; an id the table has is
refused. -/
def add (t : Table) (s : Snap) : Table :=
  if h : s.snapshotId ∈ t.snapshots.map Snap.snapshotId then t
  else {
    snapshots := s :: t.snapshots
    refs := t.refs
    currentSnapshotId := some s.snapshotId
    lastSequenceNumber := s.sequenceNumber
    nodup := List.nodup_cons.2 ⟨h, t.nodup⟩ }

def remove (t : Table) (ids : List Int) : Table where
  snapshots := t.snapshots.filter fun s => !ids.contains s.snapshotId
  refs := t.refs.filter fun r => !ids.contains r
  currentSnapshotId := t.currentSnapshotId
  lastSequenceNumber := t.lastSequenceNumber
  nodup := t.nodup.sublist (List.filter_sublist.map _)

end Table

/-- mirrors lib.rs:3356-3370 -/
def tableHasGroupedSnapshot (t : Table) (m : ObjectWriteManifest) : Bool :=
  t.snapshots.any fun s => (groupedSnapshotProperties m).all fun kv => s.props.get kv.1 = some kv.2

structure Config where
  pipeline : Text
  manifest : Text → ObjectWriteManifest
  compactionId_eq : ∀ c, (manifest c).compactionId = c

/-- `caches` is the table metadata each writer holds, `attempts` the gated
attempts, with the metadata the gate saw. `history` is every snapshot the table
has had, newest first; `live` and `reclaimed` are the WAL segments. -/
structure St (W : Type) where
  table : Table
  history : List Snap
  caches : Map W Table
  attempts : Map W (Text × Table)
  live : Finset Text
  reclaimed : Finset Text

inductive Lbl (W : Type)
  | refresh (w : W)
  | gate (w : W) (c : Text)
  | commit (w : W) (id timestampMs : Int)
  | crash (w : W)
  | maintain (w : W) (id timestampMs : Int) (fingerprint deleted removed : Text)
  | expire (w : W) (nowMs : Int)
  | openSegment (segment : Text)
  | reclaim (segment : Text)

section Machine
variable {W : Type} [DecidableEq W] (cfg : Config)

def addOn (s : St W) (base : Table) (id timestampMs : Int) (props : Props) : St W :=
  if base.currentSnapshotId = s.table.currentSnapshotId then
    { s with
      table := s.table.add (base.next id timestampMs props)
      history := base.next id timestampMs props :: s.history }
  else s

/-- Snapshot ids are never used twice. A failed or refused commit ends the
attempt; what the writer makes of an ambiguous result is to refresh and gate
again. mirrors lib.rs:2425-2499,1103-1171,1443-1491 -/
def step (s : St W) : Lbl W → Option (St W)
  | .refresh w => some { s with caches := s.caches.insert w s.table }
  | .gate w c =>
    match s.caches.get w with
    | none => none
    | some base =>
      if tableHasGroupedSnapshot base (cfg.manifest c) then some s
      else some { s with attempts := s.attempts.insert w (c, base) }
  | .commit w id timestampMs =>
    match s.attempts.get w with
    | none => none
    | some (c, base) =>
      if id ∈ s.history.map Snap.snapshotId then none
      else some (addOn { s with attempts := s.attempts.erase w } base id timestampMs
        (groupedCommitProperties cfg.pipeline (cfg.manifest c)))
  | .crash w => some { s with caches := s.caches.erase w, attempts := s.attempts.erase w }
  | .maintain w id timestampMs fingerprint deleted removed =>
    match s.caches.get w with
    | none => none
    | some base =>
      if id ∈ s.history.map Snap.snapshotId then none
      else some (addOn s base id timestampMs
        (maintenanceProperties cfg.pipeline fingerprint deleted removed))
  | .expire w nowMs =>
    match s.caches.get w with
    | none => none
    | some base =>
      if base.currentSnapshotId = s.table.currentSnapshotId then
        some { s with
          table := s.table.remove (expirableSnapshotIds base.metadata ⟨cfg.pipeline, s.live, nowMs⟩) }
      else some s
  | .openSegment segment =>
    if segment ∈ s.reclaimed then none else some { s with live := insert segment s.live }
  | .reclaim segment =>
    some { s with live := s.live.erase segment, reclaimed := insert segment s.reclaimed }

def initial : St W where
  table := .empty
  history := []
  caches := ∅
  attempts := ∅
  live := ∅
  reclaimed := ∅

def lts : LTS (St W) (Lbl W) := .ofFn (fun s => s = initial) (step cfg)

/-- The snapshots of the table's history that added the files of `c`. -/
def St.appendsOf (s : St W) (c : Text) : List Snap :=
  s.history.filter fun x => x.props.get .compactionId = some c

/-- A grouped attempt commits only while its manifest names segments and all
of them are live. -/
def Held (s : St W) : Lbl W → Prop
  | .commit w _ _ => ∀ a ∈ s.attempts.get w, (cfg.manifest a.1).walSlices ≠ [] ∧
      ∀ r ∈ (cfg.manifest a.1).walSlices, r.segmentId.raw ∈ s.live
  | _ => True

/-! ## Properties of the snapshots a commit adds -/

theorem get_groupedCommitProperties (pipeline : Text) (m : ObjectWriteManifest) :
    ∀ kv ∈ groupedSnapshotProperties m,
      (groupedCommitProperties pipeline m).get kv.1 = some kv.2 := by
  intro kv hkv
  simp only [groupedSnapshotProperties, List.mem_cons, List.not_mem_nil, or_false] at hkv
  rcases hkv with rfl | rfl | rfl | rfl | rfl | rfl <;>
    simp [groupedCommitProperties, groupedSnapshotProperties, Map.get_insert]

theorem get_compactionId_grouped (c : Text) :
    (groupedCommitProperties cfg.pipeline (cfg.manifest c)).get .compactionId = some c := by
  rw [get_groupedCommitProperties _ _ (.compactionId, (cfg.manifest c).compactionId)
    (by simp [groupedSnapshotProperties]), cfg.compactionId_eq]

theorem slices_grouped {x : Snap} {m : ObjectWriteManifest}
    (h : x.props = groupedCommitProperties cfg.pipeline m) :
    x.snapshot.slices = m.walSlices.toFinset := by
  have hget : x.snapshot.walSlices = some (encodeWalSlices m.walSlices) := by
    rw [Snap.snapshot, h]
    exact get_groupedCommitProperties cfg.pipeline m (.walSlices, encodeWalSlices m.walSlices)
      (by simp [groupedSnapshotProperties])
  rw [Snapshot.slices, hget]
  simp only [decode_encode]

theorem hasGroupedSnapshot_of_mem {t : Table} {x : Snap} {m : ObjectWriteManifest}
    (hx : x ∈ t.snapshots) (h : x.props = groupedCommitProperties cfg.pipeline m) :
    tableHasGroupedSnapshot t m = true := by
  rw [tableHasGroupedSnapshot, List.any_eq_true]
  refine ⟨x, hx, ?_⟩
  rw [List.all_eq_true]
  intro kv hkv
  rw [h, get_groupedCommitProperties _ _ kv hkv]
  simp

/-! ## The invariant -/

/-- `t` is a version the table has had: as long as `main` did not move since,
it holds every snapshot the table still has. -/
structure Older (t : Table) (s : St W) : Prop where
  holds : t.currentSnapshotId = s.table.currentSnapshotId →
    ∀ x ∈ s.table.snapshots, x ∈ t.snapshots
  known : ∀ id ∈ t.currentSnapshotId, id ∈ s.history.map Snap.snapshotId

/-- What the snapshot of a grouped commit is worth: it carries the manifest's
properties, its segments are live or reclaimed, and it leaves the table only
once all of them are reclaimed. -/
structure Marked (s : St W) (x : Snap) (c : Text) : Prop where
  props : x.props = groupedCommitProperties cfg.pipeline (cfg.manifest c)
  segments : ∀ r ∈ (cfg.manifest c).walSlices, r.segmentId.raw ∈ s.live ∨ r.segmentId.raw ∈ s.reclaimed
  kept : x ∈ s.table.snapshots ∨
    ∀ r ∈ (cfg.manifest c).walSlices, r.segmentId.raw ∈ s.reclaimed

structure Inv (s : St W) : Prop where
  current : ∀ id ∈ s.table.currentSnapshotId, id ∈ s.history.map Snap.snapshotId
  known : ∀ x ∈ s.table.snapshots, x ∈ s.history
  caches : ∀ w t, s.caches.get w = some t → Older t s
  attempts : ∀ w c t, s.attempts.get w = some (c, t) →
    Older t s ∧ tableHasGroupedSnapshot t (cfg.manifest c) = false
  marked : ∀ x ∈ s.history, ∀ c, x.props.get .compactionId = some c → Marked cfg s x c
  disjoint : ∀ segment ∈ s.live, segment ∉ s.reclaimed
  once : ∀ c, (s.appendsOf c).length ≤ 1

variable {cfg}

variable {s s' : St W} {id ts : Int} {w : W}

theorem Inv.older (h : Inv cfg s) : Older s.table s := ⟨fun _ _ hx => hx, h.current⟩

theorem inv_initial : Inv cfg (initial : St W) where
  current id h := by cases h
  known x h := by cases h
  caches w t h := by cases h
  attempts w c t h := by cases h
  marked x h := by cases h
  disjoint seg h := by cases h
  once c := Nat.zero_le _

theorem Inv.setWriters (h : Inv cfg s) (caches : Map W Table) (attempts : Map W (Text × Table))
    (hcaches : ∀ w t, caches.get w = some t → Older t s)
    (hattempts : ∀ w c t, attempts.get w = some (c, t) →
      Older t s ∧ tableHasGroupedSnapshot t (cfg.manifest c) = false) :
    Inv cfg { s with caches := caches, attempts := attempts } := { h with
  caches w t ht := ⟨(hcaches w t ht).holds, (hcaches w t ht).known⟩
  attempts w c t ht :=
    ⟨⟨(hattempts w c t ht).1.holds, (hattempts w c t ht).1.known⟩, (hattempts w c t ht).2⟩
  marked x hx c hc := ⟨(h.marked x hx c hc).props, (h.marked x hx c hc).segments,
    (h.marked x hx c hc).kept⟩ }

/-- What a conditional update may add: no grouped commit, or the first of its
compaction, with all its segments live. -/
def Fresh (cfg : Config) (s : St W) (props : Props) : Prop :=
  props.get .compactionId = none ∨
    ∃ c, props = groupedCommitProperties cfg.pipeline (cfg.manifest c) ∧ s.appendsOf c = [] ∧
      ∀ r ∈ (cfg.manifest c).walSlices, r.segmentId.raw ∈ s.live

omit [DecidableEq W] in
theorem appendsOf_cons (s : St W) (t : Table) (x : Snap) (c : Text) :
    St.appendsOf { s with table := t, history := x :: s.history } c =
      (if x.props.get .compactionId = some c then [x] else []) ++ s.appendsOf c := by
  simp only [St.appendsOf, List.filter_cons]
  split <;> simp_all

theorem inv_addOn (h : Inv cfg s) {base : Table} {props : Props}
    (hid : id ∉ s.history.map Snap.snapshotId)
    (hfresh : base.currentSnapshotId = s.table.currentSnapshotId → Fresh cfg s props) :
    Inv cfg (addOn s base id ts props) := by
  unfold addOn
  split
  · rename_i hmain
    generalize hx : base.next id ts props = x
    have hxid : x.snapshotId = id := by rw [← hx]; rfl
    have hxprops : x.props = props := by rw [← hx]; rfl
    have hnew : x.snapshotId ∉ s.table.snapshots.map Snap.snapshotId := by
      intro hmem
      obtain ⟨y, hy, hyid⟩ := List.mem_map.1 hmem
      exact hid (hxid ▸ hyid ▸ List.mem_map_of_mem (h.known y hy))
    have hadd : s.table.add x = { s.table with
        snapshots := x :: s.table.snapshots, currentSnapshotId := some x.snapshotId
        lastSequenceNumber := x.sequenceNumber, nodup := List.nodup_cons.2 ⟨hnew, s.table.nodup⟩ } := by
      rw [Table.add, dif_neg hnew]
    have hids : ∀ i ∈ s.history.map Snap.snapshotId, i ∈ (x :: s.history).map Snap.snapshotId :=
      fun i hi => List.mem_cons_of_mem _ hi
    -- `main` moved to an id no version has, so no held metadata can commit
    have holder : ∀ t : Table, Older t s →
        Older t { s with table := s.table.add x, history := x :: s.history } := by
      intro t ht
      refine ⟨fun hcur => ?_, fun i hi => hids i (ht.known i hi)⟩
      rw [hadd] at hcur
      exact absurd (ht.known _ (by rw [hcur]; rfl)) (hxid ▸ hid)
    constructor
    case current =>
      intro i hi
      rw [hadd] at hi
      cases hi
      exact List.mem_cons_self
    case known =>
      intro y hy
      rw [hadd] at hy
      rcases List.mem_cons.1 hy with rfl | hy
      · exact List.mem_cons_self
      · exact List.mem_cons_of_mem _ (h.known y hy)
    case caches => exact fun w t ht => holder t (h.caches w t ht)
    case attempts => exact fun w c t ht => ⟨holder t (h.attempts w c t ht).1, (h.attempts w c t ht).2⟩
    case marked =>
      intro y hy c hc
      rcases List.mem_cons.1 hy with rfl | hy
      · rw [hxprops] at hc
        rcases hfresh hmain with hnone | ⟨c', rfl, -, hlive⟩
        · rw [hnone] at hc
          cases hc
        · rw [get_compactionId_grouped, Option.some.injEq] at hc
          subst hc
          refine ⟨hxprops, fun r hr => .inl (hlive r hr), .inl ?_⟩
          rw [hadd]
          exact List.mem_cons_self
      · obtain ⟨hprops, hseg, hkept⟩ := h.marked y hy c hc
        refine ⟨hprops, hseg, hkept.imp_left fun hmem => ?_⟩
        rw [hadd]
        exact List.mem_cons_of_mem _ hmem
    case disjoint => exact h.disjoint
    case once =>
      intro c
      rw [appendsOf_cons, hxprops]
      split
      · rename_i hc
        rcases hfresh hmain with hnone | ⟨c', rfl, hnil, -⟩
        · rw [hnone] at hc
          cases hc
        · rw [get_compactionId_grouped, Option.some.injEq] at hc
          subst hc
          rw [hnil]
          exact Nat.le_refl 1
      · exact h.once c
  · exact h

theorem inv_gate {c : Text} (h : Inv cfg s) (hstep : step cfg s (.gate w c) = some s') :
    Inv cfg s' := by
  simp only [step] at hstep
  split at hstep
  · cases hstep
  · rename_i base hbase
    split at hstep
    · cases hstep
      exact h
    · rename_i hgate
      cases hstep
      refine h.setWriters _ _ h.caches fun w' c' t ht => ?_
      rcases Map.get_insert_cases ht with ⟨-, heq⟩ | ⟨-, ht⟩
      · cases heq
        exact ⟨h.caches w base hbase, by simpa using hgate⟩
      · exact h.attempts w' c' t ht

theorem inv_eraseAttempt (h : Inv cfg s) (w : W) :
    Inv cfg { s with attempts := s.attempts.erase w } :=
  h.setWriters _ _ h.caches fun w' c t ht => h.attempts w' c t (Map.of_get_erase ht).2

/-- The gate saw the table the attempt extends, and the marker of a compaction
with a live segment is never expired: what passes both has no marker. -/
theorem appendsOf_eq_nil (h : Inv cfg s) {c : Text} {base : Table} (hbase : Older base s)
    (hgate : tableHasGroupedSnapshot base (cfg.manifest c) = false)
    (hmain : base.currentSnapshotId = s.table.currentSnapshotId)
    (hne : (cfg.manifest c).walSlices ≠ [])
    (hlive : ∀ r ∈ (cfg.manifest c).walSlices, r.segmentId.raw ∈ s.live) : s.appendsOf c = [] := by
  rw [St.appendsOf, List.filter_eq_nil_iff]
  intro x hx hc
  rw [decide_eq_true_eq] at hc
  have hm := h.marked x hx c hc
  rcases hm.kept with hmem | hgone
  · have hyes := hasGroupedSnapshot_of_mem cfg (hbase.holds hmain x hmem) hm.props
    rw [hgate] at hyes
    cases hyes
  · obtain ⟨r, hr⟩ := List.exists_mem_of_ne_nil _ hne
    exact h.disjoint _ (hlive r hr) (hgone r hr)

theorem inv_commit (h : Inv cfg s) (hheld : Held cfg s (.commit w id ts))
    (hstep : step cfg s (.commit w id ts) = some s') : Inv cfg s' := by
  simp only [step] at hstep
  split at hstep
  · cases hstep
  · rename_i c base hattempt
    obtain ⟨hid, rfl⟩ := of_guard_not hstep
    obtain ⟨hbase, hgate⟩ := h.attempts w c base hattempt
    obtain ⟨hne, hlive⟩ := hheld (c, base) hattempt
    refine inv_addOn (inv_eraseAttempt h w) hid fun hmain => .inr ⟨c, rfl, ?_, hlive⟩
    exact appendsOf_eq_nil h hbase hgate hmain hne hlive

theorem inv_maintain {fp deleted removed : Text} (h : Inv cfg s)
    (hstep : step cfg s (.maintain w id ts fp deleted removed) = some s') : Inv cfg s' := by
  simp only [step] at hstep
  split at hstep
  · cases hstep
  · obtain ⟨hid, rfl⟩ := of_guard_not hstep
    refine inv_addOn h hid fun _ => .inl ?_
    simp only [maintenanceProperties, Map.get_insert, reduceCtorEq, if_false, Map.get_empty]

theorem inv_expire {now : Int} (h : Inv cfg s) (hstep : step cfg s (.expire w now) = some s') :
    Inv cfg s' := by
  simp only [step] at hstep
  split at hstep
  · cases hstep
  · rename_i base hcache
    split at hstep
    · rename_i hmain
      cases hstep
      have hsub : ∀ ids, ∀ x ∈ (s.table.remove ids).snapshots, x ∈ s.table.snapshots :=
        fun ids x hx => (List.mem_filter.1 hx).1
      generalize hids : expirableSnapshotIds base.metadata ⟨cfg.pipeline, s.live, now⟩ = ids
      have holder : ∀ t : Table, Older t s → Older t { s with table := s.table.remove ids } :=
        fun t ht => ⟨fun hcur x hx => ht.holds hcur x (hsub ids x hx), ht.known⟩
      constructor
      case current => exact h.current
      case known => exact fun x hx => h.known x (hsub ids x hx)
      case caches => exact fun w t ht => holder t (h.caches w t ht)
      case attempts => exact fun w c t ht => ⟨holder t (h.attempts w c t ht).1, (h.attempts w c t ht).2⟩
      case marked =>
        intro x hx c hc
        obtain ⟨hprops, hseg, hkept⟩ := h.marked x hx c hc
        refine ⟨hprops, hseg, ?_⟩
        rcases hkept with hmem | hgone
        · by_cases hrem : x.snapshotId ∈ ids
          · -- an expired snapshot names no live segment
            have hbase : x.snapshot ∈ base.metadata.snapshots :=
              List.mem_map_of_mem ((h.caches w base hcache).holds hmain x hmem)
            have hno := not_namesLive_of_mayExpire hbase
              (expirable_subset (hids ▸ hrem : x.snapshot.snapshotId ∈ _))
            refine .inr fun r hr => (hseg r hr).resolve_left fun hl => hno ⟨r, ?_, hl⟩
            rw [slices_grouped cfg hprops]
            exact List.mem_toFinset.2 hr
          · exact .inl (List.mem_filter.2 ⟨hmem, by simpa using hrem⟩)
        · exact .inr hgone
      case disjoint => exact h.disjoint
      case once => exact h.once
    · cases hstep
      exact h

theorem inv_segments (h : Inv cfg s) (live reclaimed : Finset Text)
    (hdis : ∀ segment ∈ live, segment ∉ reclaimed) (hrec : s.reclaimed ⊆ reclaimed)
    (hlive : ∀ segment ∈ s.live, segment ∈ live ∨ segment ∈ reclaimed) :
    Inv cfg { s with live := live, reclaimed := reclaimed } := { h with
  caches w t ht := ⟨(h.caches w t ht).holds, (h.caches w t ht).known⟩
  attempts w c t ht :=
    ⟨⟨(h.attempts w c t ht).1.holds, (h.attempts w c t ht).1.known⟩, (h.attempts w c t ht).2⟩
  marked x hx c hc := by
    obtain ⟨hprops, hseg, hkept⟩ := h.marked x hx c hc
    refine ⟨hprops, fun r hr => ?_, hkept.imp_right fun hgone r hr => hrec (hgone r hr)⟩
    rcases hseg r hr with hl | hr'
    · exact hlive _ hl
    · exact .inr (hrec hr')
  disjoint := hdis }

theorem inv_inductive : ((lts cfg).restrict (Held cfg)).Inductive (Inv (W := W) cfg) where
  init s hs := by
    obtain rfl : s = initial := hs
    exact inv_initial
  step s l s' h hl := by
    obtain ⟨hheld, hstep⟩ := hl
    cases l with
    | refresh w =>
      cases hstep
      refine h.setWriters _ _ (fun w' t ht => ?_) h.attempts
      rcases Map.get_insert_cases ht with ⟨-, rfl⟩ | ⟨-, ht⟩
      · exact h.older
      · exact h.caches w' t ht
    | gate w c => exact inv_gate h hstep
    | commit w id ts => exact inv_commit h hheld hstep
    | crash w =>
      cases hstep
      refine (inv_eraseAttempt h w).setWriters _ _ (fun w' t ht => ?_) (inv_eraseAttempt h w).attempts
      exact (inv_eraseAttempt h w).caches w' t (Map.of_get_erase ht).2
    | maintain w id ts fp deleted removed => exact inv_maintain h hstep
    | expire w now => exact inv_expire h hstep
    | openSegment segment =>
      simp only [lts, LTS.ofFn, step] at hstep
      obtain ⟨hnew, rfl⟩ := of_guard_not hstep
      refine inv_segments h _ _ (fun seg hseg => ?_) (Finset.Subset.refl _)
        fun seg hseg => .inl (Finset.mem_insert_of_mem hseg)
      rcases Finset.mem_insert.1 hseg with rfl | hseg
      · exact hnew
      · exact h.disjoint seg hseg
    | reclaim segment =>
      cases hstep
      refine inv_segments h _ _ (fun seg hseg hrec => ?_) (Finset.subset_insert _ _) fun seg hseg => ?_
      · rcases Finset.mem_insert.1 hrec with rfl | hrec
        · exact (Finset.mem_erase.1 hseg).1 rfl
        · exact h.disjoint seg (Finset.mem_erase.1 hseg).2 hrec
      · by_cases heq : seg = segment
        · exact .inr (heq ▸ Finset.mem_insert_self ..)
        · exact .inl (Finset.mem_erase.2 ⟨heq, hseg⟩)

end Machine

/-- **At most once.** In every run whose grouped attempts commit only while the
segments of their manifest are live, no compaction is added by two snapshots of
the table's history. -/
theorem appended_once_of_held {W : Type} [DecidableEq W] (cfg : Config) (s : St W)
    (h : ((lts cfg).restrict (Held cfg)).Reachable s) (c : Text) : (s.appendsOf c).length ≤ 1 :=
  (inv_inductive.reachable s h).once c

/-! ## An overtaken writer -/

def oneSegment : Config where
  pipeline := ['p']
  manifest c := ⟨c, c, ['s'], ['f'], 1, none, [⟨⟨['b'], by decide⟩, 0⟩]⟩
  compactionId_eq _ := rfl

instance {W : Type} [DecidableEq W] (cfg : Config) (s : St W) : DecidablePred (Held cfg s)
  | .commit w _ _ => inferInstanceAs (Decidable (∀ a ∈ s.attempts.get w,
      (cfg.manifest a.1).walSlices ≠ [] ∧
        ∀ r ∈ (cfg.manifest a.1).walSlices, r.segmentId.raw ∈ s.live))
  | .refresh _ | .gate _ _ | .crash _ | .maintain _ _ _ _ _ _ | .expire _ _ | .openSegment _
  | .reclaim _ => .isTrue trivial

/-- Two writers gate compaction `c` on the empty table; one commits, the other
is refused, refreshes and finds the marker. -/
def conflictRun : List (Lbl Bool) :=
  [.openSegment ['b'], .refresh false, .gate false ['c'], .refresh true, .gate true ['c'],
    .commit true 1 0, .commit false 2 0, .refresh false, .gate false ['c']]

def conflictState : St Bool :=
  (exec (guarded (Held oneSegment) (step oneSegment)) initial conflictRun).get (by decide +kernel)

theorem appended_once_conflict :
    ((lts oneSegment).restrict (Held oneSegment)).Reachable conflictState ∧
      (conflictState.appendsOf ['c']).map Snap.snapshotId = [1] ∧
      (conflictState.appendsOf ['c']).length ≤ 1 := by
  have hreach : ((lts oneSegment).restrict (Held oneSegment)).Reachable conflictState :=
    restrict_reachable_of_exec rfl (Option.some_get _).symm
  exact ⟨hreach, by decide +kernel, appended_once_of_held oneSegment conflictState hreach ['c']⟩

def commitAs (c : Text) (id : Nat) : List (Lbl Bool) :=
  [.refresh true, .gate true c, .commit true id 0]

def rewriteAs (id : Nat) : List (Lbl Bool) := [.refresh true, .maintain true id 0 [] [] []]

def stall : List (Lbl Bool) := [.openSegment ['b'], .refresh false, .gate false ['c']]

def overtake : List (Lbl Bool) :=
  (commitAs ['c'] 0 :: (List.range' 1 15).map fun i => commitAs (List.replicate i 'x') i).flatten ++
    (List.range' 16 100).flatMap rewriteAs

/-- Segment `b` is reclaimed and history expired two days later. The stalled
commit is refused; the writer refreshes, gates again and commits. -/
def resume : List (Lbl Bool) :=
  [.reclaim ['b'], .refresh true, .expire true (2 * snapshotRetainAgeMs), .commit false 116 0,
    .refresh false, .gate false ['c'], .commit false 116 0]

theorem expired_marker_appends_twice : ∃ s : St Bool, (lts oneSegment).Reachable s ∧
    (s.appendsOf ['c']).map Snap.snapshotId = [116, 0] :=
  exists_reachable (stall ++ overtake ++ resume) rfl (by decide +kernel)

end Skippr.L6.Append
