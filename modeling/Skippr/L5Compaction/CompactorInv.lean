import Skippr.L5Compaction.Compactor

/-!
# The compactor's invariant

Every compaction id that still matters has an *owner*: a catalog row, a
manifest of the planner, a running job, an entry of the redo list or the sink
itself. The invariant says that no slice has two owners, that a slice the sink
has applied is done or still named by its row, and that a slice the planner may
pick is fenced by no manifest.
-/
namespace Skippr.L5.Compactor

open Skippr.L2 (SliceBitmap)

variable {s s' : St}

def Done (s : St) (x : Slice) : Prop := doneIn s.segments x = true

def Known (s : St) (x : Slice) : Prop := ∃ n, s.committed x.segment = some n ∧ x.ordinal < n

def HasRow (s : St) (c : CompactionId) : Prop := s.compactions.get c ≠ none

def HasRecord (s : St) (c : CompactionId) : Prop := s.manifests.get c ≠ none

def HasJob (s : St) (c : CompactionId) : Prop := ∃ n j, s.jobs n = some j ∧ j.txn = c

def Owner (s : St) (c : CompactionId) : Prop :=
  HasRow s c ∨ c ∈ s.applied ∨ HasRecord s c ∨ s.redo c = true ∨ HasJob s c

def Settled (s : St) (c : CompactionId) : Prop := c ∈ s.applied ∨ ∀ x ∈ c.refs, Done s x

def Kept (s : St) (c : CompactionId) : Prop := HasRow s c ∨ Settled s c

structure Fresh (s : St) (n : Nat) (c : CompactionId) : Prop where
  row : s.compactions.get c = none
  applied : c ∉ s.applied
  record : s.manifests.get c = none
  redo : s.redo c = false
  job : ∀ n' j', s.jobs n' = some j' → j'.txn = c → n' = n
  index : ∀ x ∈ c.refs, s.index x = none ∨ s.index x = some .reserved

def Pc.wrote : Pc → Bool
  | .written | .acked | .reclaiming _ | .deleted => true
  | _ => false

structure JobInv (s : St) (n : Nat) (j : Job) : Prop where
  sub : j.entries ⊆ j.txn.refs
  entries : ∀ x ∈ j.txn.refs, x ∉ j.entries → Done s x
  kept : j.fresh = false → Kept s j.txn
  fresh : j.fresh = true → Fresh s n j.txn
  wrote : j.pc.wrote = true → j.txn ∈ s.applied
  reclaiming : ∀ left, j.pc = .reclaiming left → ∀ x ∈ j.entries, x.segment ∉ left → Done s x
  deleted : j.pc = .deleted → ∀ x ∈ j.txn.refs, Done s x

structure Owners (s : St) : Prop where
  known : ∀ c, Owner s c → ∀ x ∈ c.refs, Known s x
  unreg : ∀ c, Owner s c → ∀ x ∈ c.refs, x.segment ∉ s.unregistered
  unique : ∀ c c' x, Owner s c → Owner s c' → x ∈ c.refs → x ∈ c'.refs → c = c'

structure Core (s : St) : Prop where
  owners : Owners s
  segKnown : ∀ g b, s.segments g = some b → ∃ n, s.committed g = some n ∧ b.sliceCount = max n 1
  indexKnown : ∀ x, s.index x ≠ none → Known s x
  memKnown : ∀ x, s.inMemoryDone x = true → s.committed x.segment ≠ none
  memDone : ∀ x, s.inMemoryDone x = true → Done s x
  unregIndex : ∀ x, x.segment ∈ s.unregistered → s.index x = none
  appliedKept : ∀ c ∈ s.applied, ∀ x ∈ c.refs, Done s x ∨ HasRow s c
  rowRecorded : s.manifestsLoaded = true → ∀ c state, s.compactions.get c = some state →
    state ≠ .acked → HasRecord s c
  ackedApplied : ∀ c, s.compactions.get c = some .acked → c ∈ s.applied
  unfenced : ∀ x, s.index x = some .available → fenced s.manifests x = false
  recordKept : ∀ c, HasRecord s c → Kept s c
  redoSettled : ∀ c, s.redo c = true → Settled s c

structure Inv (s : St) : Prop where
  core : Core s
  jobs : ∀ n j, s.jobs n = some j → JobInv s n j

/-! ## Done bits -/

variable {x : Slice} {m : Map CompactionId Bool} {c c' : CompactionId} {n n' : Nat} {j : Job}
  {state : TxnState}

theorem Known.lt_sliceCount (h : Core s) (hx : Known s x) {b : SliceBitmap}
    (hb : s.segments x.segment = some b) : x.ordinal < b.sliceCount := by
  obtain ⟨n, hn, hlt⟩ := hx
  obtain ⟨n', hn', hcount⟩ := h.segKnown _ _ hb
  rw [hn] at hn'
  cases hn'
  omega

theorem Known.of_committed (hc : s'.committed = s.committed) (h : Known s x) : Known s' x := by
  unfold Known
  rwa [hc]

/-! ## Fences -/

theorem fenced_iff : fenced m x = true ↔ ∃ c, m.get c ≠ none ∧ x ∈ c.refs := by
  unfold fenced
  rw [List.any_eq_true]
  constructor
  · rintro ⟨c, hc, hx⟩
    exact ⟨c, (Map.mem_keys_iff m c).1 hc, by simpa using hx⟩
  · rintro ⟨c, hc, hx⟩
    exact ⟨c, (Map.mem_keys_iff m c).2 hc, by simpa using hx⟩

theorem fenced_eq_false : fenced m x = false ↔ ∀ c, m.get c ≠ none → x ∉ c.refs := by
  rw [← Bool.not_eq_true, fenced_iff]
  simp only [not_exists, not_and]

theorem fenced_mono {m' : Map CompactionId Bool}
    (hsub : ∀ c, x ∈ c.refs → m'.get c ≠ none → m.get c ≠ none) (h : fenced m x = false) :
    fenced m' x = false := by
  rw [fenced_eq_false] at h ⊢
  exact fun c hc hx => h c (hsub c hx hc) hx

theorem unfenced_of_classify (h : classify m x = .available) : fenced m x = false := by
  unfold classify at h
  split at h
  · cases h
  · rename_i hf
    simpa using hf

/-! ## What a step keeps -/

structure Grows (s s' : St) : Prop where
  committed : ∀ x, Known s x → Known s' x
  done : ∀ x, Known s x → Done s x → Done s' x
  applied : s.applied ⊆ s'.applied

theorem Grows.of_eq (hc : s'.committed = s.committed) (hs : s'.segments = s.segments)
    (ha : s'.applied = s.applied) : Grows s s' where
  committed x h := h.of_committed hc
  done x _ h := by unfold Done; rwa [hs]
  applied := by rw [ha]; exact List.Subset.refl _

theorem Settled.grows (h : Settled s c) (hg : Grows s s') (hk : ∀ x ∈ c.refs, Known s x) :
    Settled s' c :=
  h.imp (fun ha => hg.applied ha) fun hd x hx => hg.done x (hk x hx) (hd x hx)

theorem JobInv.frame (h : JobInv s n j) (hg : Grows s s') (hk : ∀ x ∈ j.txn.refs, Known s x)
    (hkept : j.fresh = false → Kept s j.txn → Kept s' j.txn)
    (hfresh : j.fresh = true → Fresh s n j.txn → Fresh s' n j.txn) : JobInv s' n j where
  sub := h.sub
  entries x hx hne := hg.done x (hk x hx) (h.entries x hx hne)
  kept hf := hkept hf (h.kept hf)
  fresh hf := hfresh hf (h.fresh hf)
  wrote hw := hg.applied (h.wrote hw)
  reclaiming left hl x hx hne := hg.done x (hk x (h.sub hx)) (h.reclaiming left hl x hx hne)
  deleted hd x hx := hg.done x (hk x hx) (h.deleted hd x hx)

theorem Owner.ofJob (h : s.jobs n = some j) : Owner s j.txn :=
  .inr (.inr (.inr (.inr ⟨n, j, h, rfl⟩)))

theorem Core.fresh_disjoint (h : Core s) {j' : Job} (hj : s.jobs n = some j)
    (hj' : s.jobs n' = some j') (hne : n' ≠ n) (hf : Fresh s n' j'.txn) (hx : x ∈ j'.txn.refs) :
    x ∉ j.txn.refs := by
  intro hx'
  have heq := h.owners.unique _ _ x (Owner.ofJob hj) (Owner.ofJob hj') hx' hx
  exact hne (hf.job n j hj heq).symm

theorem Owners.shrink (h : Owners s) (hown : ∀ c, Owner s' c → Owner s c)
    (hc : s'.committed = s.committed) (hu : s'.unregistered ⊆ s.unregistered) : Owners s' where
  known c ho x hx := (h.known c (hown c ho) x hx).of_committed hc
  unreg c ho x hx hmem := h.unreg c (hown c ho) x hx (hu hmem)
  unique c c' x ho ho' := h.unique c c' x (hown c ho) (hown c' ho')

/-! ## Releasing and ending a job -/

theorem hasRecord_release (s : St) (c c' : CompactionId) :
    HasRecord (release s c) c' ↔ HasRecord s c' := by
  unfold HasRecord release
  cases h : s.manifests.get c with
  | none => exact Iff.rfl
  | some b =>
    simp only [Map.get_insert]
    split
    · rename_i heq
      rw [heq, h]
      simp
    · exact Iff.rfl

theorem core_release (h : Core s) (c : CompactionId) : Core (release s c) := { h with
  owners := h.owners.shrink (fun c' hc => by
    unfold Owner at hc ⊢
    rwa [hasRecord_release] at hc) rfl (Finset.Subset.refl _)
  indexKnown x hx := by
    refine h.indexKnown x fun hnone => hx ?_
    simp [release, hnone]
  unregIndex x hx := by simp [release, h.unregIndex x hx]
  rowRecorded hl c' state hrow hne := (hasRecord_release s c c').2 (h.rowRecorded hl c' state hrow hne)
  unfenced x hx := by
    have hold : fenced s.manifests x = false := by
      simp only [release] at hx
      split at hx
      · exact unfenced_of_classify (Option.some.inj hx)
      · exact h.unfenced x hx
    exact fenced_mono (fun c' _ => (hasRecord_release s c c').1) hold
  recordKept c' hc' := h.recordKept c' ((hasRecord_release s c c').1 hc') }

theorem JobInv.release (h : JobInv s n j) (c : CompactionId) (hk : ∀ x ∈ j.txn.refs, Known s x)
    (hdisj : j.fresh = true → ∀ x ∈ j.txn.refs, x ∉ c.refs) : JobInv (release s c) n j := by
  refine h.frame (.of_eq rfl rfl rfl) hk (fun _ hkept => hkept) fun hf hfresh => ?_
  refine { hfresh with record := ?_, index := fun x hx => ?_ }
  · by_contra hr
    exact (hasRecord_release s c j.txn).1 hr hfresh.record
  · simp only [Compactor.release, hdisj hf x hx, false_and, if_false]
    exact hfresh.index x hx

def dropJob (s : St) (n : Nat) : St := { s with jobs := Function.update s.jobs n none }

theorem jobs_dropJob (h : (dropJob s n).jobs n' = some j) : n' ≠ n ∧ s.jobs n' = some j := by
  unfold dropJob at h
  by_cases hn : n' = n
  · subst hn
    simp at h
  · simp only [Function.update_of_ne hn] at h
    exact ⟨hn, h⟩

theorem Owner.of_jobs {jobs : Nat → Option Job} (h : Owner { s with jobs := jobs } c) :
    Owner s c ∨ ∃ m k, jobs m = some k ∧ k.txn = c := by
  rcases h with h | h | h | h | h
  · exact .inl (.inl h)
  · exact .inl (.inr (.inl h))
  · exact .inl (.inr (.inr (.inl h)))
  · exact .inl (.inr (.inr (.inr (.inl h))))
  · exact .inr h

theorem core_dropJob (h : Core s) (n : Nat) : Core (dropJob s n) := by
  refine { h with owners := h.owners.shrink (fun c hc => ?_) rfl (Finset.Subset.refl _) }
  rcases Owner.of_jobs hc with hc | ⟨n', j, hj, rfl⟩
  · exact hc
  · exact Owner.ofJob (jobs_dropJob hj).2

theorem JobInv.dropJob (h : JobInv s n' j) (hk : ∀ x ∈ j.txn.refs, Known s x) :
    JobInv (dropJob s n) n' j := by
  refine h.frame (.of_eq rfl rfl rfl) hk (fun _ hkept => hkept) fun _ hf => ?_
  exact { hf with job := fun m k hm => hf.job m k (jobs_dropJob hm).2 }

theorem Inv.knownOfJob (h : Inv s) (hj : s.jobs n = some j) :
    ∀ x ∈ j.txn.refs, Known s x := h.core.owners.known _ (Owner.ofJob hj)

theorem inv_inFlight (h : Inv s) (f : Finset Slice) : Inv { s with inFlight := f } where
  core := { h.core with owners := h.core.owners.shrink (fun _ hc => hc) rfl (Finset.Subset.refl _) }
  jobs n j hj := (h.jobs n j hj).frame (.of_eq rfl rfl rfl) (h.knownOfJob hj) (fun _ hk => hk)
    fun _ hf => { hf with }

theorem inv_release (h : Inv s) (hj : s.jobs n = some j) :
    Inv (dropJob (release s j.txn) n) where
  core := core_dropJob (core_release h.core j.txn) n
  jobs n' j' hj' := by
    obtain ⟨hne, hj'⟩ := jobs_dropJob hj'
    have hinv := h.jobs n' j' hj'
    refine JobInv.dropJob (hinv.release j.txn (h.knownOfJob hj') fun hf x hx => ?_) (h.knownOfJob hj')
    exact h.core.fresh_disjoint hj hj' hne (hinv.fresh hf) hx

theorem inv_endJob (h : Inv s) (hj : s.jobs n = some j) : Inv (endJob s n j) :=
  inv_release (inv_inFlight h (s.inFlight \ j.entries)) hj

/-! ## Moving a job on -/

theorem job_cases {jobs : Nat → Option Job} {k k' : Job}
    (h : Function.update jobs n (some k) n' = some k') : n' = n ∧ k = k' ∨ n' ≠ n ∧ jobs n' = some k' := by
  by_cases hn : n' = n
  · rw [hn, Function.update_self] at h
    exact .inl ⟨hn, Option.some.inj h⟩
  · rw [Function.update_of_ne hn] at h
    exact .inr ⟨hn, h⟩

theorem owner_addJob {k : Job} (h : Owner { s with jobs := Function.update s.jobs n (some k) } c) :
    c = k.txn ∨ Owner s c := by
  rcases Owner.of_jobs h with h | ⟨m, k', hk, rfl⟩
  · exact .inr h
  · rcases job_cases hk with ⟨-, rfl⟩ | ⟨-, hk⟩
    · exact .inl rfl
    · exact .inr (Owner.ofJob hk)

theorem Fresh.addJob {k : Job} (hf : Fresh s n' c) (hk : k.txn = c → n = n') :
    Fresh { s with jobs := Function.update s.jobs n (some k) } n' c := by
  refine { hf with job := fun m k' hk' hc => ?_ }
  rcases job_cases hk' with ⟨rfl, rfl⟩ | ⟨-, hk'⟩
  · exact hk hc
  · exact hf.job m k' hk' hc

theorem core_setPc (h : Core s) (hj : s.jobs n = some j) (pc : Pc) : Core (setPc s n j pc) := by
  refine { h with owners := h.owners.shrink (fun c hc => ?_) rfl (Finset.Subset.refl _) }
  rcases owner_addJob hc with rfl | hc
  · exact (Owner.ofJob hj : Owner s j.txn)
  · exact hc

/-- Move job `n` to `pc` in a state whose other jobs are already right. -/
theorem inv_setPc (hc : Core s) (hj : s.jobs n = some j) {pc : Pc}
    (hothers : ∀ n' j', n' ≠ n → s.jobs n' = some j' → JobInv s n' j')
    (hself : JobInv s n { j with pc := pc }) : Inv (setPc s n j pc) where
  core := core_setPc hc hj pc
  jobs m k hk := by
    have hlift : ∀ k', JobInv s m k' → (∀ x ∈ k'.txn.refs, Known s x) → JobInv (setPc s n j pc) m k' :=
      fun k' hinv hk' => hinv.frame (.of_eq rfl rfl rfl) hk' (fun _ h => h) fun _ hf =>
        hf.addJob (hf.job n j hj)
    rcases job_cases hk with ⟨rfl, rfl⟩ | ⟨hm, hk⟩
    · exact hlift _ hself (hc.owners.known j.txn (Owner.ofJob hj))
    · exact hlift _ (hothers m k hm hk) (hc.owners.known _ (Owner.ofJob hk))

/-! ## Persisting a row -/

theorem get_persist (s : St) (c c' : CompactionId) (state : TxnState) :
    (persistCompactionRow s c state).compactions.get c' =
      if c' = c then some state else s.compactions.get c' := by
  simp only [persistCompactionRow, upsertManifest, Map.get_insert]

theorem hasRow_persist (s : St) (c : CompactionId) (state : TxnState) (h : c' = c ∨ HasRow s c') :
    HasRow (persistCompactionRow s c state) c' := by
  unfold HasRow
  rw [get_persist]
  split
  · simp
  · rename_i hne
    exact h.resolve_left hne

theorem record_persist (s : St) (c : CompactionId) (state : TxnState) (hne : c' ≠ c) :
    (persistCompactionRow s c state).manifests.get c' = s.manifests.get c' := by
  simp only [persistCompactionRow, upsertManifest]
  split
  · rw [Map.get_erase, if_neg hne]
  · rw [Map.get_insert, if_neg hne]

theorem Kept.persist (h : Kept s c') (state : TxnState) :
    Kept (persistCompactionRow s c state) c' :=
  h.imp (fun hr => hasRow_persist s c state (.inr hr)) id

theorem owner_persist (hown : Owner s c) (h : Owner (persistCompactionRow s c state) c') :
    Owner s c' := by
  by_cases heq : c' = c
  · rw [heq]
    exact hown
  rcases h with h | h | h | h | h
  · unfold HasRow at h
    rw [get_persist, if_neg heq] at h
    exact .inl h
  · exact .inr (.inl h)
  · unfold HasRecord at h
    rw [record_persist s c state heq] at h
    exact .inr (.inr (.inl h))
  · exact .inr (.inr (.inr (.inl h)))
  · exact .inr (.inr (.inr (.inr h)))

theorem core_persist (h : Core s) (hown : Owner s c) (hacked : state = .acked → c ∈ s.applied) :
    Core (persistCompactionRow s c state) := { h with
  owners := h.owners.shrink (fun _ => owner_persist hown) rfl (Finset.Subset.refl _)
  indexKnown x hx := by
    refine h.indexKnown x fun hnone => hx ?_
    simp [persistCompactionRow, upsertManifest, hnone]
  unregIndex x hx := by simp [persistCompactionRow, upsertManifest, h.unregIndex x hx]
  appliedKept c' hc' x hx :=
    (h.appliedKept c' hc' x hx).imp id fun hr => hasRow_persist s c state (.inr hr)
  rowRecorded hl c' state' hrow hne := by
    rw [get_persist] at hrow
    split at hrow
    · rename_i heq
      cases hrow
      rw [heq]
      simp [HasRecord, persistCompactionRow, upsertManifest, hne, Map.get_insert]
    · rename_i heq
      unfold HasRecord
      rw [record_persist s c state heq]
      exact h.rowRecorded hl c' state' hrow hne
  ackedApplied c' hrow := by
    rw [get_persist] at hrow
    split at hrow
    · rename_i heq
      rw [heq]
      exact hacked (Option.some.inj hrow)
    · exact h.ackedApplied c' hrow
  unfenced x hx := by
    by_cases hmem : x ∈ c.refs
    · simp only [persistCompactionRow, upsertManifest, if_pos hmem] at hx
      split at hx
      · cases hx
      · cases hx
      · exact unfenced_of_classify (Option.some.inj hx)
    · simp only [persistCompactionRow, upsertManifest, if_neg hmem] at hx
      refine fenced_mono (fun c' hx' hc' => ?_) (h.unfenced x hx)
      rwa [record_persist s c state fun heq => hmem (heq ▸ hx')] at hc'
  recordKept c' hc' := by
    by_cases heq : c' = c
    · exact .inl (hasRow_persist s c state (.inl heq))
    · unfold HasRecord at hc'
      rw [record_persist s c state heq] at hc'
      exact (h.recordKept c' hc').persist state }

theorem JobInv.persist (h : Inv s) {j' : Job} (hj : s.jobs n = some j) (hj' : s.jobs n' = some j')
    (hne : n' ≠ n) (state : TxnState) : JobInv (persistCompactionRow s j.txn state) n' j' := by
  have hinv := h.jobs n' j' hj'
  refine hinv.frame (.of_eq rfl rfl rfl) (h.knownOfJob hj') (fun _ hk => hk.persist state)
    fun _ hf => ?_
  have htxn : j'.txn ≠ j.txn := fun heq => hne (hf.job n j hj heq.symm).symm
  refine { hf with row := ?_, record := ?_, index := fun x hx => ?_ }
  · rw [get_persist, if_neg htxn]
    exact hf.row
  · rw [record_persist s j.txn state htxn]
    exact hf.record
  · have hdisj := h.core.fresh_disjoint hj hj' hne hf hx
    simp only [persistCompactionRow, upsertManifest, if_neg hdisj]
    exact hf.index x hx

/-! ## Deleting rows and manifests -/

theorem get_eraseRow (s : St) (c c' : CompactionId) :
    Map.get ({ s with compactions := s.compactions.erase c } : St).compactions c' =
      if c' = c then none else s.compactions.get c' := Map.get_erase _ _ _

theorem core_eraseRow (h : Core s) (hdone : ∀ x ∈ c.refs, Done s x) :
    Core { s with compactions := s.compactions.erase c } := by
  have hrow : ∀ c', HasRow { s with compactions := s.compactions.erase c } c' → HasRow s c' := by
    intro c' hc'
    unfold HasRow at hc'
    rw [get_eraseRow] at hc'
    split at hc'
    · exact absurd rfl hc'
    · exact hc'
  have hrow' : ∀ c', c' ≠ c → HasRow s c' → HasRow { s with compactions := s.compactions.erase c } c' := by
    intro c' hne hc'
    unfold HasRow
    rwa [get_eraseRow, if_neg hne]
  refine { h with
    owners := h.owners.shrink (fun c' hc' => hc'.imp (hrow c') id) rfl (Finset.Subset.refl _)
    appliedKept := fun c' hc' x hx => ?_
    rowRecorded := fun hl c' state hget hne => ?_
    ackedApplied := fun c' hget => ?_
    recordKept := fun c' hc' => ?_ }
  · by_cases heq : c' = c
    · exact .inl (hdone x (heq ▸ hx))
    · exact (h.appliedKept c' hc' x hx).imp id (hrow' c' heq)
  · rw [get_eraseRow] at hget
    split at hget
    · cases hget
    · exact h.rowRecorded hl c' state hget hne
  · rw [get_eraseRow] at hget
    split at hget
    · cases hget
    · exact h.ackedApplied c' hget
  · by_cases heq : c' = c
    · exact .inr (.inr fun x hx => hdone x (heq ▸ hx))
    · exact (h.recordKept c' hc').imp (hrow' c' heq) id

theorem JobInv.eraseRow (h : JobInv s n j) (hk : ∀ x ∈ j.txn.refs, Known s x)
    (hdone : ∀ x ∈ c.refs, Done s x) :
    JobInv { s with compactions := s.compactions.erase c } n j := by
  refine h.frame (.of_eq rfl rfl rfl) hk (fun _ hkept => ?_) fun _ hf => { hf with row := ?_ }
  · by_cases heq : j.txn = c
    · exact .inr (.inr fun x hx => hdone x (heq ▸ hx))
    · refine hkept.imp (fun hr => ?_) id
      unfold HasRow
      rwa [get_eraseRow, if_neg heq]
  · rw [get_eraseRow]
    split
    · rfl
    · exact hf.row

theorem hasRecord_removeManifest (h : HasRecord (removeManifest s c) c') : HasRecord s c' := by
  simp only [HasRecord, removeManifest, Map.get_erase] at h
  split at h
  · exact absurd rfl h
  · exact h

theorem core_removeManifest (h : Core s) (hrow : s.compactions.get c = none) :
    Core (removeManifest s c) := by
  refine { h with
    owners := h.owners.shrink (fun c' hc' => ?_) rfl (Finset.Subset.refl _)
    indexKnown := fun x hx => h.indexKnown x fun hnone => hx ?_
    unregIndex := fun x hx => ?_
    rowRecorded := fun hl c' state hget hne => ?_
    unfenced := fun x hx => ?_
    recordKept := fun c' hc' => h.recordKept c' (hasRecord_removeManifest hc') }
  · rcases hc' with hc' | hc' | hc' | hc' | hc'
    · exact .inl hc'
    · exact .inr (.inl hc')
    · exact .inr (.inr (.inl (hasRecord_removeManifest hc')))
    · exact .inr (.inr (.inr (.inl hc')))
    · exact .inr (.inr (.inr (.inr hc')))
  · simp [removeManifest, hnone]
  · simp [removeManifest, h.unregIndex x hx]
  · have hne' : c' ≠ c := by
      rintro rfl
      rw [show (removeManifest s c').compactions.get c' = s.compactions.get c' from rfl, hrow] at hget
      cases hget
    simp only [HasRecord, removeManifest, Map.get_erase, if_neg hne']
    exact h.rowRecorded hl c' state hget hne
  · simp only [removeManifest] at hx
    split at hx
    · exact unfenced_of_classify (Option.some.inj hx)
    · refine fenced_mono (fun c' _ hc' => ?_) (h.unfenced x hx)
      exact hasRecord_removeManifest hc'

theorem JobInv.removeManifest (h : JobInv s n j) (hk : ∀ x ∈ j.txn.refs, Known s x)
    (hdisj : j.fresh = true → ∀ x ∈ j.txn.refs, x ∉ c.refs) : JobInv (removeManifest s c) n j := by
  refine h.frame (.of_eq rfl rfl rfl) hk (fun _ hkept => hkept) fun hfr hf => ?_
  refine { hf with record := ?_, index := fun x hx => ?_ }
  · by_contra hr
    exact hasRecord_removeManifest (c := c) hr hf.record
  · simp only [Compactor.removeManifest, hdisj hfr x hx, false_and, if_false]
    exact hf.index x hx

/-! ## Index removals -/

theorem core_index (h : Core s) {f : Slice → Option SliceState}
    (hf : ∀ x, f x = none ∨ f x = s.index x) : Core { s with index := f } := by
  refine { h with
    owners := h.owners.shrink (fun _ hc => hc) rfl (Finset.Subset.refl _)
    indexKnown := fun x hx => h.indexKnown x ?_
    unregIndex := fun x hx => ?_
    unfenced := fun x hx => h.unfenced x ?_ }
  · rcases hf x with hx' | hx'
    · exact absurd hx' hx
    · rwa [← hx']
  · rcases hf x with hx' | hx'
    · exact hx'
    · exact hx'.trans (h.unregIndex x hx)
  · rcases hf x with hx' | hx'
    · rw [show ({ s with index := f } : St).index x = f x from rfl, hx'] at hx
      cases hx
    · rwa [← hx']

theorem JobInv.index (h : JobInv s n j) (hk : ∀ x ∈ j.txn.refs, Known s x)
    {f : Slice → Option SliceState} (hf : ∀ x, f x = none ∨ f x = s.index x) :
    JobInv { s with index := f } n j := by
  refine h.frame (.of_eq rfl rfl rfl) hk (fun _ hkept => hkept) fun _ hfr => ?_
  refine { hfr with index := fun x hx => ?_ }
  rcases hf x with hx' | hx'
  · exact .inl hx'
  · exact (hfr.index x hx).imp hx'.trans hx'.trans

theorem completeRefs_index (s : St) (refs : Finset Slice) (x : Slice) :
    (completeRefs s refs).index x = none ∨ (completeRefs s refs).index x = s.index x := by
  simp only [completeRefs]
  split
  · exact .inl rfl
  · exact .inr rfl

end Skippr.L5.Compactor
