import Skippr.L6Lake.Ancestry

/-!
# Bounded table history: `expire_history`

After a grouped commit the writer removes old snapshots from the table
(crates/skippr-iceberg-writer/src/history.rs, lib.rs). A snapshot that names a
WAL segment the host still holds is kept, because its `skippr.wal-slices` keep
a query from reading those rows twice.

Keeping it is not enough. Eligibility is decided per snapshot while the query
walks parent links, so a kept snapshot is lost to the walk as soon as a
younger snapshot of the chain is removed.
-/
namespace Skippr.L6

open Skippr.L1

/-- mirrors history.rs:15-20 -/
def snapshotRetainAgeMs : Int := 24 * 60 * 60 * 1000
def snapshotRetainLatest : Nat := 100
def snapshotExpireMinBatch : Nat := 16
def snapshotExpireMaxPerPass : Nat := 256

def saturatingSub (a b : Int) : Int := max (-2 ^ 63) (min (2 ^ 63 - 1) (a - b))

/-- mirrors history.rs:28-32 -/
structure ExpiryFence where
  pipeline : Text
  live : Finset Text
  nowMs : Int
deriving DecidableEq

/-- mirrors history.rs:35-43 -/
structure SnapshotFacts where
  id : Int
  sequenceNumber : Int
  timestampMs : Int
  referenced : Bool
  pipeline : Option Text
  walSlices : Option (Finset WalSliceRef)
  removesFiles : Bool
deriving DecidableEq

/-- mirrors history.rs:79-84 -/
def walSlicesFromProperty : Option Text → Option (Finset WalSliceRef)
  | none => none
  | some raw =>
    match decodeWalSlices raw with
    | .ok refs => some refs
    | .error _ => none

/-- A numeric summary property, 0 if absent or not a number. -/
def countProp (value : Option Text) : Nat := (value.bind parseU64).getD 0

/-- mirrors history.rs:46-65 -/
def SnapshotFacts.of (s : Snapshot) (referenced : List Int) : SnapshotFacts where
  id := s.snapshotId
  sequenceNumber := s.sequenceNumber
  timestampMs := s.timestampMs
  referenced := referenced.contains s.snapshotId
  pipeline := s.pipeline
  walSlices := walSlicesFromProperty s.walSlices
  removesFiles := 0 < countProp s.deletedDataFiles || 0 < countProp s.removedDeleteFiles

/-- mirrors history.rs:67-76 -/
def SnapshotFacts.eligible (f : SnapshotFacts) (fence : ExpiryFence) : Bool :=
  !f.referenced
    && decide (f.timestampMs ≤ saturatingSub fence.nowMs snapshotRetainAgeMs)
    && decide (f.pipeline = some fence.pipeline)
    && match f.walSlices with
      | none => false
      | some slices => decide (∀ r ∈ slices, r.segmentId.raw ∉ fence.live)

/-- The loop over the candidates, oldest first. A snapshot that removed files
goes only once nothing older is kept.
mirrors history.rs:107-119 -/
def selectLoop (fence : ExpiryFence) : List SnapshotFacts → List Int → Bool → List Int
  | [], expired, _ => expired
  | f :: fs, expired, retainedOlder =>
    if expired.length < snapshotExpireMaxPerPass && f.eligible fence
        && !(f.removesFiles && retainedOlder) then
      selectLoop fence fs (expired ++ [f.id]) retainedOlder
    else selectLoop fence fs expired true

/-- All snapshots but the newest hundred.
mirrors history.rs:103-107 -/
def candidates (facts : List SnapshotFacts) : List SnapshotFacts :=
  let sorted := facts.insertionSort fun a b => a.sequenceNumber ≤ b.sequenceNumber
  sorted.take (sorted.length - snapshotRetainLatest)

/-- mirrors history.rs:102-124 -/
def selectExpirable (facts : List SnapshotFacts) (fence : ExpiryFence) : List Int :=
  let expired := selectLoop fence (candidates facts) [] false
  if expired.length < snapshotExpireMinBatch then [] else expired

/-- mirrors history.rs:92-99 -/
def TableMetadata.facts (m : TableMetadata) : List SnapshotFacts :=
  m.snapshots.map fun s => SnapshotFacts.of s (m.refs ++ m.currentSnapshotId.toList)

/-- mirrors history.rs:88-100 -/
def expirableSnapshotIds (m : TableMetadata) (fence : ExpiryFence) : List Int :=
  selectExpirable m.facts fence

/-- The `RemoveSnapshots` update: the snapshots go, and with them the refs
that named them. Parent links of the snapshots that stay are left as they are. -/
def TableMetadata.removeSnapshots (m : TableMetadata) (ids : List Int) : TableMetadata where
  snapshots := m.snapshots.filter fun s => !ids.contains s.snapshotId
  refs := m.refs.filter fun r => !ids.contains r
  currentSnapshotId := m.currentSnapshotId
  nodup := m.nodup.sublist (List.filter_sublist.map _)

/-- What one pass is given: the pipeline, the live segments the host sent (if
any), the clock, and whether the expiry commit succeeded. -/
structure Pass where
  pipeline : Text
  live : Option (Finset Text)
  nowMs : Int
  committed : Bool
deriving DecidableEq

/-- mirrors crates/skippr-iceberg-writer/src/lib.rs:1103-1171 -/
def expireHistory (m : TableMetadata) (p : Pass) : TableMetadata :=
  match p.live with
  | none => m
  | some live =>
    let expired := expirableSnapshotIds m ⟨p.pipeline, live, p.nowMs⟩
    if expired = [] then m
    else if p.committed then m.removeSnapshots expired else m

def runPasses (m : TableMetadata) (ps : List Pass) : TableMetadata := ps.foldl expireHistory m

/-! ## What a pass can remove -/

def mayExpireIds (m : TableMetadata) (fence : ExpiryFence) : List Int :=
  ((candidates m.facts).filter fun f => f.eligible fence).map SnapshotFacts.id

theorem selectLoop_mem (fence : ExpiryFence) :
    ∀ (fs : List SnapshotFacts) (expired : List Int) (b : Bool) (id : Int),
      id ∈ selectLoop fence fs expired b →
      id ∈ expired ∨ id ∈ (fs.filter fun f => f.eligible fence).map SnapshotFacts.id
  | [], _, _, _, h => .inl h
  | f :: fs, expired, b, id, h => by
    simp only [selectLoop] at h
    split at h
    · rename_i hsel
      simp only [Bool.and_eq_true] at hsel
      rw [List.filter_cons, if_pos hsel.1.2, List.map_cons, List.mem_cons]
      rcases selectLoop_mem fence fs _ _ id h with h | h
      · rcases List.mem_append.1 h with h | h
        · exact .inl h
        · exact .inr (.inl (List.mem_singleton.1 h))
      · exact .inr (.inr h)
    · rcases selectLoop_mem fence fs _ _ id h with h | h
      · exact .inl h
      · exact .inr (((List.sublist_cons_self f fs).filter _).map _ |>.subset h)

theorem selectLoop_length (fence : ExpiryFence) :
    ∀ (fs : List SnapshotFacts) (expired : List Int) (b : Bool),
      (selectLoop fence fs expired b).length ≤
        expired.length + (fs.filter fun f => f.eligible fence).length
  | [], _, _ => by simp [selectLoop]
  | f :: fs, expired, b => by
    simp only [selectLoop]
    split
    · rename_i hsel
      simp only [Bool.and_eq_true] at hsel
      have ih := selectLoop_length fence fs (expired ++ [f.id]) b
      rw [List.filter_cons, if_pos hsel.1.2]
      simp only [List.length_append, List.length_cons, List.length_nil] at ih ⊢
      omega
    · have ih := selectLoop_length fence fs expired true
      have hle := ((List.sublist_cons_self f fs).filter fun f => f.eligible fence).length_le
      omega

variable {m : TableMetadata} {fence : ExpiryFence} {s : Snapshot}

theorem expirable_subset {id : Int} (h : id ∈ expirableSnapshotIds m fence) :
    id ∈ mayExpireIds m fence := by
  simp only [expirableSnapshotIds, selectExpirable] at h
  split at h
  · cases h
  · rcases selectLoop_mem fence _ _ _ id h with h | h
    · cases h
    · exact h

theorem expirable_eq_nil (h : (mayExpireIds m fence).length < snapshotExpireMinBatch) :
    expirableSnapshotIds m fence = [] := by
  have hlen := selectLoop_length fence (candidates m.facts) [] false
  rw [mayExpireIds, List.length_map] at h
  simp only [List.length_nil, Nat.zero_add] at hlen
  simp only [expirableSnapshotIds, selectExpirable, if_pos (Nat.lt_of_le_of_lt hlen h)]

/-! ## The walk over what is left -/

def Snapshot.NamesLive (s : Snapshot) (live : Finset Text) : Prop :=
  ∃ r ∈ s.slices, r.segmentId.raw ∈ live

instance (s : Snapshot) (live : Finset Text) : Decidable (s.NamesLive live) :=
  inferInstanceAs (Decidable (∃ r ∈ s.slices, r.segmentId.raw ∈ live))

theorem not_namesLive_of_eligible {referenced : List Int}
    (h : (SnapshotFacts.of s referenced).eligible fence = true) : ¬ s.NamesLive fence.live := by
  rintro ⟨r, hr, hlive⟩
  simp only [SnapshotFacts.eligible, Bool.and_eq_true] at h
  have hslices := h.2
  simp only [SnapshotFacts.of, walSlicesFromProperty] at hslices
  unfold Snapshot.slices at hr
  cases hv : s.walSlices with
  | none => simp [hv] at hslices
  | some value =>
    cases hd : decodeWalSlices value with
    | error e => simp [hv, hd] at hslices
    | ok refs =>
      simp only [hv, hd, decide_eq_true_eq] at hslices hr
      exact hslices r hr hlive

theorem not_namesLive_of_mayExpire (hs : s ∈ m.snapshots) (h : s.snapshotId ∈ mayExpireIds m fence) :
    ¬ s.NamesLive fence.live := by
  obtain ⟨f, hf, hid⟩ := List.mem_map.1 h
  obtain ⟨hcand, hel⟩ := List.mem_filter.1 hf
  have hfacts : f ∈ m.facts := (List.mem_insertionSort _).1 (List.mem_of_mem_take hcand)
  obtain ⟨t, ht, rfl⟩ := List.mem_map.1 hfacts
  have hts : t = s := List.inj_on_of_nodup_map m.nodup ht hs hid
  subst hts
  exact not_namesLive_of_eligible hel

theorem snapshotById_remove (m : TableMetadata) (ids : List Int) (id : Int) :
    (m.removeSnapshots ids).snapshotById id = if id ∈ ids then none else m.snapshotById id := by
  simp only [TableMetadata.snapshotById, TableMetadata.removeSnapshots, List.find?_filter]
  split
  · rename_i hmem
    refine List.find?_eq_none.2 fun s _ hs => ?_
    simp only [Bool.not_eq_true', decide_eq_true_eq] at hs
    obtain ⟨hnot, rfl⟩ := hs
    simp [hmem] at hnot
  · rename_i hmem
    congr 1
    funext s
    by_cases hid : s.snapshotId = id
    · simp [hid, hmem]
    · simp [hid]

theorem chain_mem_snapshots :
    ∀ (n : Nat) (next : Option Int), s ∈ m.chain n next → s ∈ m.snapshots
  | 0, _, h => by cases h
  | n + 1, none, h => by cases h
  | n + 1, some id, h => by
    simp only [TableMetadata.chain] at h
    cases hs : m.snapshotById id with
    | none => simp [hs] at h
    | some t =>
      simp only [hs, List.mem_cons] at h
      rcases h with rfl | h
      · exact (TableMetadata.mem_of_snapshotById hs).1
      · exact chain_mem_snapshots n _ h

/-- Removing snapshots that stand above no snapshot naming a live segment
keeps every live slice in the walk. Induction on the iterations left: until the
walk meets a removed snapshot it goes as before, and from there on down nothing
names a live segment. -/
theorem walkLoop_remove (m : TableMetadata) (ids : List Int) (live : Finset Text) :
    ∀ (n : Nat) (next : Option Int) (out out' res : Finset WalSliceRef),
      (∀ r ∈ out, r.segmentId.raw ∈ live → r ∈ out') →
      (m.chain n next).Pairwise (fun s t => s.snapshotId ∈ ids → ¬ t.NamesLive live) →
      (∀ s ∈ m.chain n next, s.snapshotId ∈ ids → ¬ s.NamesLive live) →
      walkLoop m.lookup n next out = .ok res →
      ∃ res', walkLoop (m.removeSnapshots ids).lookup n next out' = .ok res' ∧
        ∀ r ∈ res, r.segmentId.raw ∈ live → r ∈ res'
  | 0, _, _, _, _, _, _, _, h => by cases h
  | n + 1, none, out, out', res, hout, _, _, h => by
    simp only [walkLoop, Except.ok.injEq] at h
    subst h
    exact ⟨out', rfl, hout⟩
  | n + 1, some id, out, out', res, hout, habove, hself, h => by
    cases hs : m.snapshotById id with
    | none =>
      rw [walkLoop_missing m n out hs, Except.ok.injEq] at h
      subst h
      have hs' : (m.removeSnapshots ids).snapshotById id = none := by
        rw [snapshotById_remove, hs, ite_self]
      exact ⟨out', walkLoop_missing _ n out' hs', hout⟩
    | some s =>
      have hid : s.snapshotId = id := (TableMetadata.mem_of_snapshotById hs).2
      have hmem := walkLoop_mem m (n + 1) (some id) out res h
      have hread := readable_of_walk m n hs h
      rw [walkLoop_found m n out hs hread] at h
      simp only [TableMetadata.chain, hs, List.pairwise_cons, List.mem_cons, forall_eq_or_imp]
        at habove hself hmem
      by_cases hrem : id ∈ ids
      · have hs' : (m.removeSnapshots ids).snapshotById id = none := by
          rw [snapshotById_remove, if_pos hrem]
        refine ⟨out', walkLoop_missing _ n out' hs', fun r hr hlive => ?_⟩
        rcases (hmem r).1 hr with hr | ⟨t, rfl | ht, hrt⟩
        · exact hout r hr hlive
        · exact absurd ⟨r, hrt, hlive⟩ (hself.1 (hid ▸ hrem))
        · exact absurd ⟨r, hrt, hlive⟩ (habove.1 t ht (hid ▸ hrem))
      · have hs' : (m.removeSnapshots ids).snapshotById id = some s := by
          rw [snapshotById_remove, if_neg hrem, hs]
        rw [walkLoop_found _ n out' hs' hread]
        refine walkLoop_remove m ids live n _ _ _ res (fun r hr hlive => ?_) habove.2 hself.2 h
        rcases Finset.mem_union.1 hr with hr | hr
        · exact Finset.mem_union_left _ (hout r hr hlive)
        · exact Finset.mem_union_right _ hr

/-! ## Sequences of passes -/

/-- The state a pass may run in: it cannot reach the batch minimum, or no
snapshot it may remove stands above one that names a live segment. -/
def PassSafe (m : TableMetadata) (p : Pass) : Prop :=
  ∀ live ∈ p.live,
    (mayExpireIds m ⟨p.pipeline, live, p.nowMs⟩).length < snapshotExpireMinBatch ∨
    m.ancestry.Pairwise fun s t =>
      s.snapshotId ∈ mayExpireIds m ⟨p.pipeline, live, p.nowMs⟩ → ¬ t.NamesLive live

def PassesSafe : TableMetadata → List Pass → Prop
  | _, [] => True
  | m, p :: ps => PassSafe m p ∧ PassesSafe (expireHistory m p) ps

/-- The host still holds the segment of `r` in this pass; a pass that is sent
no live set removes nothing. -/
def Pass.Holds (p : Pass) (r : WalSliceRef) : Prop := ∀ live ∈ p.live, r.segmentId.raw ∈ live

theorem excluded_remove {ids : List Int} {live : Finset Text} {res : Finset WalSliceRef}
    (habove : m.ancestry.Pairwise fun s t => s.snapshotId ∈ ids → ¬ t.NamesLive live)
    (hself : ∀ s ∈ m.snapshots, s.snapshotId ∈ ids → ¬ s.NamesLive live)
    (h : currentExcluded m = .ok res) :
    ∃ res', currentExcluded (m.removeSnapshots ids) = .ok res' ∧
      ∀ r ∈ res, r.segmentId.raw ∈ live → r ∈ res' := by
  simp only [currentExcluded, TableMetadata.ancestry] at h habove ⊢
  have hcur : (m.removeSnapshots ids).currentSnapshotId = m.currentSnapshotId := rfl
  rw [hcur]
  cases hc : m.currentSnapshotId with
  | none =>
    rw [hc, Except.ok.injEq] at h
    subst h
    exact ⟨∅, rfl, fun r hr => absurd hr (Finset.notMem_empty r)⟩
  | some id =>
    rw [hc] at h habove
    exact walkLoop_remove m ids live _ _ ∅ ∅ res (fun r hr => absurd hr (Finset.notMem_empty r))
      habove (fun s hs => hself s (chain_mem_snapshots _ _ hs)) h

theorem expireHistory_keeps {p : Pass} {res : Finset WalSliceRef} (hsafe : PassSafe m p)
    (h : currentExcluded m = .ok res) :
    ∃ res', currentExcluded (expireHistory m p) = .ok res' ∧ ∀ r ∈ res, p.Holds r → r ∈ res' := by
  have hsame : ∃ res', currentExcluded m = .ok res' ∧ ∀ r ∈ res, p.Holds r → r ∈ res' :=
    ⟨res, h, fun r hr _ => hr⟩
  unfold expireHistory
  cases hl : p.live with
  | none => exact hsame
  | some live =>
    dsimp only
    split
    · exact hsame
    · rename_i hne
      split
      · rcases hsafe live hl with hfew | habove
        · exact absurd (expirable_eq_nil hfew) hne
        · obtain ⟨res', hres', hkeep⟩ := excluded_remove
            (habove.imp fun himp hmem => himp (expirable_subset hmem))
            (fun s hs hmem => not_namesLive_of_mayExpire hs (expirable_subset hmem)) h
          exact ⟨res', hres', fun r hr hlive => hkeep r hr (hlive live hl)⟩
      · exact hsame

/-- **Live slices stay excluded.** Over any sequence of passes, each run in a
safe state, the walk from the current snapshot keeps returning every slice it
returned before of a segment the host held in all of them. -/
theorem runPasses_keeps_live_slices (ps : List Pass) (m : TableMetadata) (res : Finset WalSliceRef)
    (hsafe : PassesSafe m ps) (h : currentExcluded m = .ok res) :
    ∃ res', currentExcluded (runPasses m ps) = .ok res' ∧
      ∀ r ∈ res, (∀ p ∈ ps, p.Holds r) → r ∈ res' := by
  induction ps generalizing m res with
  | nil => exact ⟨res, h, fun r hr _ => hr⟩
  | cons p ps ih =>
    obtain ⟨res₁, h₁, hkeep₁⟩ := expireHistory_keeps hsafe.1 h
    obtain ⟨res', h', hkeep'⟩ := ih (expireHistory m p) res₁ hsafe.2 h₁
    refine ⟨res', h', fun r hr hlive => hkeep' r (hkeep₁ r hr ?_) fun q hq => ?_⟩
    · exact hlive p List.mem_cons_self
    · exact hlive q (List.mem_cons_of_mem p hq)

/-! ## A linear history of 117 grouped commits -/

/-- Commit `i` of pipeline `p`; commit `k` carries slice 0 of segment `a`, the
others slice 0 of segment `b`. -/
def groupedCommit (k i : Nat) : Snapshot where
  snapshotId := i
  parentSnapshotId := if i ≤ 1 then none else some (i - 1)
  sequenceNumber := i
  timestampMs := 0
  pipeline := some ['p']
  walSlices := some (if i = k then ['a', '@', '0'] else ['b', '@', '0'])
  deletedDataFiles := none
  removedDeleteFiles := none

/-- 100 snapshots that are too new to go, 16 that make a batch, and one more. -/
def linearHistory (k : Nat) : TableMetadata where
  snapshots := (List.range' 1 117).map (groupedCommit k)
  refs := []
  currentSnapshotId := some 117
  nodup := by
    rw [List.map_map]
    exact List.Nodup.map (fun i j h => Int.ofNat.inj h) List.nodup_range'

def passHoldingA : Pass := ⟨['p'], some {['a']}, 2 * snapshotRetainAgeMs, true⟩

def sliceA : WalSliceRef := ⟨⟨['a'], by decide⟩, 0⟩

def hides (m : TableMetadata) (r : WalSliceRef) : Bool :=
  match currentExcluded m with
  | .ok res => r ∈ res
  | .error _ => false

theorem passHoldingA_holds : passHoldingA.Holds sliceA := by
  intro live hlive
  cases hlive
  decide

/-- With the live slice on the youngest of the 17 old commits, the pass removes
the 16 below it and the slice stays hidden. -/
theorem pass_above_keeps_live_slice :
    (runPasses (linearHistory 17) [passHoldingA]).snapshots.length = 101 ∧
    ∃ res', currentExcluded (runPasses (linearHistory 17) [passHoldingA]) = .ok res' ∧
      sliceA ∈ res' := by
  refine ⟨by decide +kernel, ?_⟩
  have hsafe : PassesSafe (linearHistory 17) [passHoldingA] := by
    refine ⟨fun live hlive => .inr ?_, trivial⟩
    cases hlive
    decide +kernel
  have hread : hides (linearHistory 17) sliceA = true := by decide +kernel
  unfold hides at hread
  cases hres : currentExcluded (linearHistory 17) with
  | error e => simp [hres] at hread
  | ok res =>
    obtain ⟨res', h', hkeep⟩ := runPasses_keeps_live_slices [passHoldingA] _ res hsafe hres
    refine ⟨res', h', hkeep sliceA (by simpa [hres] using hread) fun p hp => ?_⟩
    rw [List.mem_singleton.1 hp]
    exact passHoldingA_holds

/-- The oldest commit carries the live slice. The pass keeps it, removes the
16 commits above it, and the walk stops at the gap. -/
theorem pass_loses_live_slice :
    hides (linearHistory 1) sliceA = true ∧ passHoldingA.Holds sliceA ∧
      hides (expireHistory (linearHistory 1) passHoldingA) sliceA = false :=
  ⟨by decide +kernel, passHoldingA_holds, by decide +kernel⟩

end Skippr.L6
