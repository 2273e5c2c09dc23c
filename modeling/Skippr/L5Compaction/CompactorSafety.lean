import Skippr.L5Compaction.CompactorInv

/-!
# A slice is applied under one compaction id

Provided a plan step picks only slices that are not done and that no Acked row
names (`PlanClean`). The condition is needed: restart installs no Acked row as a
manifest, and the redo leaves the slices it completes in the planner.
-/
namespace Skippr.L5.Compactor

open Skippr.L2 (SliceBitmap)

variable {s s' : St}

/-! ## Completing slices -/

def Completes (old new : Nat → Option SliceBitmap) (refs : Finset Slice) : Prop :=
  ∀ g, (new g = old g ∧ ∀ x ∈ refs, x.segment ≠ g) ∨
    ∃ r, new g = (old g).bind fun b => completeIn b (ordinalsOf refs g) r

variable {refs : Finset Slice} {g n : Nat} {x : Slice} {c : CompactionId} {j : Job}

theorem Completes.sliceCount {old new : Nat → Option SliceBitmap} (h : Completes old new refs)
    {b' : SliceBitmap} (hb : new g = some b') :
    ∃ b, old g = some b ∧ b'.sliceCount = b.sliceCount := by
  rcases h g with ⟨heq, -⟩ | ⟨r, heq⟩
  · exact ⟨b', heq ▸ hb, rfl⟩
  · rw [heq, Option.bind_eq_some_iff] at hb
    obtain ⟨b, hb, hc⟩ := hb
    obtain ⟨-, rfl⟩ := of_guard_not hc
    exact ⟨b, hb, rfl⟩

theorem Completes.done {old new : Nat → Option SliceBitmap} (h : Completes old new refs)
    (hx : doneIn old x = true ∨ (x ∈ refs ∧ ∀ b, old x.segment = some b → x.ordinal < b.sliceCount)) :
    doneIn new x = true := by
  unfold doneIn at hx ⊢
  rcases h x.segment with ⟨heq, hno⟩ | ⟨r, heq⟩
  · rw [heq]
    exact hx.resolve_right fun hr => hno x hr.1 rfl
  · rw [heq]
    cases hb : old x.segment with
    | none => rfl
    | some b =>
      rw [hb] at hx
      simp only [Option.bind_some, completeIn]
      split_ifs
      · rfl
      · refine (b.isDone_orBits _ x.ordinal).2 (hx.imp id fun hr => ?_)
        exact ⟨Finset.mem_image.2 ⟨x, Finset.mem_filter.2 ⟨hr.1, rfl⟩, rfl⟩, hr.2 b rfl⟩

theorem markDone_cases (h : markDone s refs x = true) :
    s.inMemoryDone x = true ∨ ∃ b, s.segments x.segment = some b ∧ x ∈ refs ∧ x.ordinal < b.sliceCount := by
  unfold markDone at h
  rw [Bool.or_eq_true] at h
  refine h.imp id fun h => ?_
  cases hb : s.segments x.segment with
  | none => simp [hb] at h
  | some b =>
    simp only [hb, Bool.and_eq_true, decide_eq_true_eq] at h
    exact ⟨b, rfl, h.1, h.2⟩

section Complete
variable {f : Nat → Option SliceBitmap} {refs : Finset Slice}

theorem inv_complete (h : Inv s) (hf : Completes s.segments f refs) :
    Inv { s with segments := f, inMemoryDone := markDone s refs } := by
  have hg : Grows s { s with segments := f, inMemoryDone := markDone s refs } :=
    ⟨fun _ h => h, fun _ _ h => hf.done (.inl h), List.Subset.refl _⟩
  have hmem : ∀ x, markDone s refs x = true → s.committed x.segment ≠ none ∧ doneIn f x = true := by
    intro x hx
    rcases markDone_cases hx with hx | ⟨b, hb, hmem, hlt⟩
    · exact ⟨h.core.memKnown x hx, hf.done (.inl (h.core.memDone x hx))⟩
    · obtain ⟨n, hn, -⟩ := h.core.segKnown _ _ hb
      refine ⟨by simp [hn], hf.done (.inr ⟨hmem, fun b' hb' => ?_⟩)⟩
      rw [hb] at hb'
      cases hb'
      exact hlt
  refine ⟨{ h.core with
    owners := h.core.owners.shrink (fun _ hc => hc) rfl (Finset.Subset.refl _)
    segKnown := fun g b' hb' => ?_
    memKnown := fun x hx => (hmem x hx).1
    memDone := fun x hx => (hmem x hx).2
    appliedKept := fun c hc x hx => ?_
    recordKept := fun c hc => ?_
    redoSettled := fun c hc => ?_ }, fun n j hj => ?_⟩
  · obtain ⟨b, hb, hcount⟩ := hf.sliceCount hb'
    rw [hcount]
    exact h.core.segKnown g b hb
  · exact (h.core.appliedKept c hc x hx).imp (fun hd => hf.done (.inl hd)) id
  · refine (h.core.recordKept c hc).imp id fun hs => hs.grows hg ?_
    exact h.core.owners.known c (.inr (.inr (.inl hc)))
  · refine (h.core.redoSettled c hc).grows hg ?_
    exact h.core.owners.known c (.inr (.inr (.inr (.inl hc))))
  · refine (h.jobs n j hj).frame hg (h.knownOfJob hj) (fun _ hk => ?_) fun _ hfr => { hfr with }
    exact hk.imp id fun hs => hs.grows hg (h.knownOfJob hj)

end Complete

theorem completes_reclaim (s : St) (g : Nat) (refs : Finset Slice) (r : Bool) :
    Completes s.segments (completeSlicesAndReclaim s g refs r).segments
      (refs.filter fun x => x.segment = g) := by
  intro g'
  by_cases hg : g' = g
  · subst hg
    refine .inr ⟨r, ?_⟩
    simp [completeSlicesAndReclaim, ordinalsOf, Finset.filter_filter]
  · refine .inl ⟨by simp [completeSlicesAndReclaim, Function.update_of_ne hg], fun x hx heq => ?_⟩
    exact hg (heq ▸ (Finset.mem_filter.1 hx).2)

theorem completes_flush (s : St) (batch : List CompactionId) :
    Completes s.segments (flushAckedBatch s batch).segments (allRefs batch) := by
  intro g
  by_cases hg : ∃ x ∈ allRefs batch, x.segment = g
  · refine .inr ⟨true, ?_⟩
    cases hb : s.segments g with
    | none => simp [flushAckedBatch, hb]
    | some b => simp only [flushAckedBatch, hb, if_pos hg, Option.bind_some]
  · refine .inl ⟨?_, fun x hx heq => hg ⟨x, hx, heq⟩⟩
    cases hb : s.segments g with
    | none => simp [flushAckedBatch, hb]
    | some b => simp only [flushAckedBatch, hb, if_neg hg]

theorem mem_allRefs {batch : List CompactionId} (hc : c ∈ batch) (hx : x ∈ c.refs) :
    x ∈ allRefs batch := by
  induction batch with
  | nil => cases hc
  | cons d batch ih =>
    simp only [allRefs, List.foldr_cons, Finset.mem_union]
    rcases List.mem_cons.1 hc with rfl | hc
    · exact .inl hx
    · exact .inr (ih hc)

theorem inv_eraseRow (h : Inv s) (hdone : ∀ x ∈ c.refs, Done s x) :
    Inv { s with compactions := s.compactions.erase c } where
  core := core_eraseRow h.core hdone
  jobs n j hj := (h.jobs n j hj).eraseRow (h.knownOfJob hj) hdone

theorem inv_eraseAll (batch : List CompactionId) :
    ∀ {s : St}, Inv s → (∀ c ∈ batch, ∀ x ∈ c.refs, Done s x) →
      Inv { s with compactions := eraseAll s.compactions batch } := by
  induction batch with
  | nil => intro s h _; exact h
  | cons c batch ih =>
    intro s h hdone
    have h₁ := inv_eraseRow h (hdone c List.mem_cons_self)
    exact ih h₁ (List.forall_mem_cons.1 hdone).2

/-- **Redo.** The batch's slices are done before its rows go. -/
theorem inv_flush (h : Inv s) {batch : List CompactionId} (hb : ∀ c ∈ batch, s.redo c = true) :
    Inv (flushAckedBatch s batch) := by
  have hf := completes_flush s batch
  refine inv_eraseAll batch (inv_complete h hf) fun c hc x hx => hf.done (.inr ⟨mem_allRefs hc hx, ?_⟩)
  have hknown := h.core.owners.known c (.inr (.inr (.inr (.inl (hb c hc))))) x hx
  exact fun b hb' => hknown.lt_sliceCount h.core hb'

/-! ## The sink -/

theorem mem_sinkApply {l : List CompactionId} {c' : CompactionId} :
    c' ∈ sinkApply l c ↔ c' = c ∨ c' ∈ l := by
  unfold sinkApply
  split
  · rename_i hc
    exact ⟨.inr, fun h => h.elim (fun heq => heq ▸ hc) id⟩
  · simp [or_comm]

theorem inv_apply (h : Inv s) (hj : s.jobs n = some j) (hnf : j.fresh = false) :
    Inv { s with applied := sinkApply s.applied j.txn } := by
  have hg : Grows s { s with applied := sinkApply s.applied j.txn } :=
    ⟨fun _ hk => hk, fun _ _ hd => hd, fun c hc => mem_sinkApply.2 (.inr hc)⟩
  have hset : ∀ c, Settled s c → Settled { s with applied := sinkApply s.applied j.txn } c :=
    fun c hs => hs.imp (fun hc => mem_sinkApply.2 (.inr hc)) id
  refine ⟨{ h.core with
    owners := h.core.owners.shrink (fun c hc => ?_) rfl (Finset.Subset.refl _)
    appliedKept := fun c hc x hx => ?_
    ackedApplied := fun c hc => mem_sinkApply.2 (.inr (h.core.ackedApplied c hc))
    recordKept := fun c hc => (h.core.recordKept c hc).imp id (hset c)
    redoSettled := fun c hc => hset c (h.core.redoSettled c hc) }, fun n' j' hj' => ?_⟩
  · rcases hc with hc | hc | hc
    · exact .inl hc
    · rcases mem_sinkApply.1 hc with rfl | hc
      · exact Owner.ofJob hj
      · exact .inr (.inl hc)
    · exact .inr (.inr hc)
  · rcases mem_sinkApply.1 hc with rfl | hc
    · rcases (h.jobs n j hj).kept hnf with hr | ha | hd
      · exact .inr hr
      · exact h.core.appliedKept _ ha x hx
      · exact .inl (hd x hx)
    · exact h.core.appliedKept c hc x hx
  · refine (h.jobs n' j' hj').frame hg (h.knownOfJob hj') (fun _ hk => hk.imp id (hset _))
      fun hfr hf => { hf with applied := fun hmem => ?_ }
    rcases mem_sinkApply.1 hmem with heq | hmem
    · have hn : n = n' := hf.job n j hj heq.symm
      subst hn
      rw [hj] at hj'
      cases hj'
      rw [hnf] at hfr
      cases hfr
    · exact hf.applied hmem

/-! ## Planning -/

/-- The slices are not done and no Acked row names them. -/
def Clean (s : St) (refs : Finset Slice) : Prop :=
  ∀ x ∈ refs, doneIn s.segments x = false ∧
    ∀ c, s.compactions.get c = some .acked → x ∉ c.refs

instance (s : St) (refs : Finset Slice) : Decidable (Clean s refs) :=
  decidable_of_iff (∀ x ∈ refs, doneIn s.segments x = false ∧
      ∀ c ∈ s.compactions.keys, s.compactions.get c = some .acked → x ∉ c.refs)
    (forall₂_congr fun _ _ => and_congr_right fun _ =>
      ⟨fun h c hc => h c ((Map.mem_keys_iff _ c).2 (by simp [hc])) hc, fun h c _ => h c⟩)

/-- Whoever owned an available slice would have fenced it, unless it is done
or its row is Acked. -/
theorem Inv.no_owner (h : Inv s) (hl : s.manifestsLoaded = true) (hclean : Clean s refs)
    (hx : x ∈ refs) (havail : s.index x = some .available) (hc : Owner s c) : x ∉ c.refs := by
  intro hxc
  obtain ⟨hnd, hacked⟩ := hclean x hx
  have hrecord : ¬ HasRecord s c := fun hr =>
    fenced_eq_false.1 (h.core.unfenced x havail) c hr hxc
  have hrow : ¬ HasRow s c := by
    intro hr
    obtain ⟨state, hstate⟩ := Option.ne_none_iff_exists'.1 hr
    by_cases ha : state = .acked
    · exact hacked c (ha ▸ hstate) hxc
    · exact hrecord (h.core.rowRecorded hl c state hstate ha)
  have hdone : ¬ Done s x := by
    unfold Done
    rw [hnd]
    exact Bool.false_ne_true
  have hsettled : ¬ Settled s c := by
    rintro (ha | hd)
    · exact (h.core.appliedKept c ha x hxc).elim hdone hrow
    · exact hdone (hd x hxc)
  rcases hc with hc | hc | hc | hc | ⟨n, j, hj, rfl⟩
  · exact hrow hc
  · exact hsettled (.inl hc)
  · exact hrecord hc
  · exact hsettled (h.core.redoSettled c hc)
  · cases hf : j.fresh with
    | false => exact ((h.jobs n j hj).kept hf).elim hrow hsettled
    | true =>
      rcases ((h.jobs n j hj).fresh hf).index x hxc with hi | hi
      · rw [hi] at havail
        cases havail
      · rw [hi] at havail
        cases havail

theorem fresh_plan {header : Nat} (hnew : ∀ c, Owner s c → c ≠ ⟨header, refs⟩) :
    Fresh (planGroup s n header refs) n ⟨header, refs⟩ := by
  refine ⟨?_, ?_, ?_, ?_, fun m k hk htxn => ?_, fun x hx => .inr ?_⟩
  · by_contra hr
    exact hnew _ (.inl hr) rfl
  · exact fun ha => hnew _ (.inr (.inl ha)) rfl
  · by_contra hr
    exact hnew _ (.inr (.inr (.inl hr))) rfl
  · by_contra hr
    exact hnew _ (.inr (.inr (.inr (.inl (eq_true_of_ne_false hr))))) rfl
  · rcases job_cases hk with ⟨hm, -⟩ | ⟨-, hk⟩
    · exact hm
    · exact absurd htxn (hnew _ (Owner.ofJob hk))
  · exact if_pos hx

theorem inv_plan (h : Inv s) (hl : s.manifestsLoaded = true) {header : Nat} (hne : refs ≠ ∅)
    (havail : ∀ x ∈ refs, s.index x = some .available) (hclean : Clean s refs) :
    Inv (planGroup s n header refs) := by
  have hno : ∀ c, Owner s c → ∀ x ∈ refs, x ∉ c.refs := fun c hc x hx =>
    h.no_owner hl hclean hx (havail x hx) hc
  obtain ⟨x₀, hx₀⟩ := Finset.nonempty_iff_ne_empty.2 hne
  have hnew : ∀ c, Owner s c → c ≠ ⟨header, refs⟩ := by
    rintro c hc rfl
    exact hno _ hc x₀ hx₀ hx₀
  have hknown : ∀ x ∈ refs, Known s x := fun x hx => h.core.indexKnown x (by simp [havail x hx])
  refine ⟨{ h.core with
    owners := ⟨fun c hc x hx => ?_, fun c hc x hx => ?_, fun c c' x hc hc' hx hx' => ?_⟩
    indexKnown := fun x hx => ?_
    unregIndex := fun x hx => ?_
    unfenced := fun x hx => ?_ }, fun m k hk => ?_⟩
  · rcases owner_addJob hc with rfl | hc
    · exact hknown x hx
    · exact h.core.owners.known c hc x hx
  · rcases owner_addJob hc with rfl | hc
    · intro hu
      have := h.core.unregIndex x hu
      rw [havail x hx] at this
      cases this
    · exact h.core.owners.unreg c hc x hx
  · rcases owner_addJob hc with rfl | hc <;> rcases owner_addJob hc' with rfl | hc'
    · rfl
    · exact absurd hx' (hno c' hc' x hx)
    · exact absurd hx (hno c hc x hx')
    · exact h.core.owners.unique c c' x hc hc' hx hx'
  · by_cases hmem : x ∈ refs
    · exact hknown x hmem
    · exact h.core.indexKnown x (by simpa [planGroup, hmem] using hx)
  · by_cases hmem : x ∈ refs
    · have := h.core.unregIndex x hx
      rw [havail x hmem] at this
      cases this
    · simpa [planGroup, hmem] using h.core.unregIndex x hx
  · by_cases hmem : x ∈ refs
    · simp [planGroup, hmem] at hx
    · exact h.core.unfenced x (by simpa [planGroup, hmem] using hx)
  · rcases job_cases hk with ⟨rfl, rfl⟩ | ⟨-, hk⟩
    · exact ⟨Finset.Subset.refl _, fun x hx hnx => absurd hx hnx, nofun, fun _ => fresh_plan hnew, nofun,
        nofun, nofun⟩
    · refine (h.jobs m k hk).frame (.of_eq rfl rfl rfl) (h.knownOfJob hk) (fun _ hk => hk) fun _ hf => ?_
      have htxn := hnew _ (Owner.ofJob hk)
      refine { hf.addJob fun heq => absurd heq.symm htxn with index := fun x hx => ?_ }
      have hmem : x ∉ refs := fun hmem => hno _ (Owner.ofJob hk) x hmem hx
      simpa [planGroup, hmem] using hf.index x hx

/-! ## Resuming a manifest -/

theorem inv_resume (h : Inv s) (hrec : HasRecord s c) : Inv (resumeManifest s n c) := by
  have hown : Owner s c := .inr (.inr (.inl hrec))
  have hrec' : ∀ c', HasRecord (resumeManifest s n c) c' ↔ HasRecord s c' := by
    intro c'
    simp only [HasRecord, resumeManifest, completeRefs, Map.get_insert]
    split
    · rename_i heq
      rw [heq]
      exact ⟨fun _ => hrec, fun _ => by simp⟩
    · exact Iff.rfl
  have hindex := completeRefs_index s (c.refs.filter fun x => sliceIsDone s x = true)
  have hcore := core_index h.core hindex
  refine ⟨{ hcore with
    owners := h.core.owners.shrink (fun c' hc' => ?_) rfl (Finset.Subset.refl _)
    rowRecorded := fun hl c' state hrow hne =>
      (hrec' c').2 (h.core.rowRecorded hl c' state hrow hne)
    unfenced := fun x hx => fenced_mono (fun c' _ => (hrec' c').1) (hcore.unfenced x hx)
    recordKept := fun c' hc' => h.core.recordKept c' ((hrec' c').1 hc') }, fun m k hk => ?_⟩
  · have hc'' : Owner { s with jobs := Function.update s.jobs n (some (⟨c, c.refs.filter fun x =>
        sliceIsDone s x = false, .built false⟩ : Job)) } c' :=
      hc'.imp id (Or.imp id (Or.imp (hrec' c').1 id))
    rcases owner_addJob hc'' with rfl | hc''
    · exact hown
    · exact hc''
  · rcases job_cases hk with ⟨rfl, rfl⟩ | ⟨-, hk⟩
    · refine ⟨Finset.filter_subset _ _, fun x hx hnx => ?_, fun _ => h.core.recordKept c hrec,
        (fun h => by cases h), (fun h => by cases h), (fun _ h => by cases h), fun h => by cases h⟩
      refine (Bool.or_eq_true_iff.1 (?_ : sliceIsDone s x = true)).elim (h.core.memDone x) id
      by_contra hnd
      exact hnx (Finset.mem_filter.2 ⟨hx, Bool.eq_false_iff.2 hnd⟩)
    · have hinv := (h.jobs m k hk).index (h.knownOfJob hk) hindex
      refine hinv.frame (.of_eq rfl rfl rfl) (h.knownOfJob hk) (fun _ hk => hk) fun _ hf => ?_
      have htxn : k.txn ≠ c := fun heq => hrec (heq ▸ hf.record)
      refine { hf.addJob fun heq => absurd heq.symm htxn with record := ?_ }
      by_contra hr
      exact (hrec' _).1 hr hf.record

/-! ## Segments -/

theorem inv_commit (h : Inv s) (hg : s.committed g = none) (slices : Nat) :
    Inv (commitSegment s g slices) := by
  have hne : ∀ x, Known s x → x.segment ≠ g := by
    rintro x ⟨n, hn, -⟩ rfl
    rw [hg] at hn
    cases hn
  have hgrows : Grows s (commitSegment s g slices) := by
    refine ⟨fun x hx => ?_, fun x hx hd => ?_, List.Subset.refl _⟩
    · obtain ⟨n, hn, hlt⟩ := hx
      exact ⟨n, (Function.update_of_ne (hne x ⟨n, hn, hlt⟩) _ _).trans hn, hlt⟩
    · simp only [Done, doneIn, commitSegment, Function.update_of_ne (hne x hx)]
      exact hd
  refine ⟨{ h.core with
    owners := ⟨fun c hc x hx => hgrows.committed x (h.core.owners.known c hc x hx),
      fun c hc x hx => ?_, h.core.owners.unique⟩
    segKnown := fun g' b hb => ?_
    indexKnown := fun x hx => hgrows.committed x (h.core.indexKnown x hx)
    memKnown := fun x hx => ?_
    memDone := fun x hx => ?_
    unregIndex := fun x hx => ?_
    appliedKept := fun c hc x hx => ?_
    recordKept := fun c hc => ?_
    redoSettled := fun c hc => ?_ }, fun n j hj => ?_⟩
  · simp only [commitSegment, Finset.mem_insert, not_or]
    exact ⟨hne x (h.core.owners.known c hc x hx), h.core.owners.unreg c hc x hx⟩
  · by_cases hgg : g' = g
    · subst hgg
      simp only [commitSegment, Function.update_self, Option.some.injEq] at hb ⊢
      exact ⟨slices, rfl, hb ▸ rfl⟩
    · simp only [commitSegment, Function.update_of_ne hgg] at hb ⊢
      exact h.core.segKnown g' b hb
  · by_cases hxg : x.segment = g
    · simp [commitSegment, hxg]
    · simp only [commitSegment, Function.update_of_ne hxg]
      exact h.core.memKnown x hx
  · have hxg : x.segment ≠ g := fun heq => h.core.memKnown x hx (heq ▸ hg)
    simp only [Done, doneIn, commitSegment, Function.update_of_ne hxg]
    exact h.core.memDone x hx
  · rcases Finset.mem_insert.1 hx with hx | hx
    · by_contra hi
      exact hne x (h.core.indexKnown x hi) hx
    · exact h.core.unregIndex x hx
  · refine (h.core.appliedKept c hc x hx).imp (hgrows.done x ?_) id
    exact h.core.owners.known c (.inr (.inl hc)) x hx
  · refine (h.core.recordKept c hc).imp id fun hs => hs.grows hgrows ?_
    exact h.core.owners.known c (.inr (.inr (.inl hc)))
  · refine (h.core.redoSettled c hc).grows hgrows ?_
    exact h.core.owners.known c (.inr (.inr (.inr (.inl hc))))
  · refine (h.jobs n j hj).frame hgrows (h.knownOfJob hj) (fun _ hk => ?_) fun _ hf => { hf with }
    exact hk.imp id fun hs => hs.grows hgrows (h.knownOfJob hj)

theorem inv_register (h : Inv s) (hg : g ∈ s.unregistered) : Inv (registerSegment s g) := by
  have hother : ∀ x, x.segment ≠ g → (registerSegment s g).index x = s.index x := fun x hx => by
    simp only [registerSegment, if_neg hx]
  refine ⟨{ h.core with
    owners := h.core.owners.shrink (fun _ hc => hc) rfl (Finset.erase_subset _ _)
    indexKnown := fun x hx => ?_
    unregIndex := fun x hx => ?_
    unfenced := fun x hx => ?_ }, fun n j hj => ?_⟩
  · by_cases hxg : x.segment = g
    · simp only [registerSegment, if_pos hxg] at hx
      cases hc : s.committed g with
      | none => simp [hc] at hx
      | some n =>
        simp only [hc] at hx
        split at hx
        · rename_i hcond
          exact ⟨n, hxg ▸ hc, hcond.1⟩
        · exact absurd rfl hx
    · rw [hother x hxg] at hx
      exact h.core.indexKnown x hx
  · obtain ⟨hne, hmem⟩ := Finset.mem_erase.1 hx
    rw [hother x hne]
    exact h.core.unregIndex x hmem
  · by_cases hxg : x.segment = g
    · simp only [registerSegment, if_pos hxg] at hx
      split at hx
      · split at hx
        · exact unfenced_of_classify (Option.some.inj hx)
        · cases hx
      · cases hx
    · rw [hother x hxg] at hx
      exact h.core.unfenced x hx
  · refine (h.jobs n j hj).frame (.of_eq rfl rfl rfl) (h.knownOfJob hj) (fun _ hk => hk) fun _ hf => ?_
    refine { hf with index := fun x hx => ?_ }
    rw [hother x fun heq => h.core.owners.unreg _ (Owner.ofJob hj) x hx (heq ▸ hg)]
    exact hf.index x hx

theorem inv_forget (h : Inv s) (g : Nat) : Inv (forgetSegment s g) := by
  have hindex : ∀ x, (forgetSegment s g).index x = none ∨ (forgetSegment s g).index x = s.index x := by
    intro x
    simp only [forgetSegment]
    split
    · exact .inl rfl
    · exact .inr rfl
  have hmem : ∀ x, (forgetSegment s g).inMemoryDone x = true → s.inMemoryDone x = true := by
    intro x hx
    simp only [forgetSegment] at hx
    split at hx
    · cases hx
    · exact hx
  refine ⟨{ core_index h.core hindex with
    owners := h.core.owners.shrink (fun _ hc => hc) rfl (Finset.Subset.refl _)
    memKnown := fun x hx => h.core.memKnown x (hmem x hx)
    memDone := fun x hx => h.core.memDone x (hmem x hx) }, fun n j hj => ?_⟩
  refine ((h.jobs n j hj).index (h.knownOfJob hj) hindex).frame (.of_eq rfl rfl rfl) (h.knownOfJob hj)
    (fun _ hk => hk) fun _ hf => { hf with }

/-! ## Restart and the redo list -/

theorem inv_crash (h : Inv s) : Inv (crash s) := by
  refine ⟨⟨h.core.owners.shrink (fun c hc => ?_) rfl (Finset.empty_subset _), h.core.segKnown, nofun,
    nofun, nofun, fun _ _ => rfl, h.core.appliedKept, nofun, h.core.ackedApplied, nofun, fun c hc => ?_,
    nofun⟩, nofun⟩
  · rcases hc with hc | hc | hc | hc | ⟨n, j, hj, -⟩
    · exact .inl hc
    · exact .inr (.inl hc)
    · exact absurd rfl hc
    · cases hc
    · cases hj
  · exact absurd rfl hc

theorem record_hydrate (s : St) (skipped : Finset Nat) (c : CompactionId) :
    HasRecord (hydrate s skipped) c ↔ ∃ state, s.compactions.get c = some state ∧ state ≠ .acked := by
  unfold HasRecord
  simp only [hydrate, Map.get_filterMap]
  cases hrow : s.compactions.get c with
  | none => simp
  | some state => simp

theorem inv_hydrate (h : Inv s) (hjobs : ∀ n, s.jobs n = none) (hu : s.unregistered = ∅)
    (skipped : Finset Nat) : Inv (hydrate s skipped) := by
  have hrow : ∀ c, HasRecord (hydrate s skipped) c → HasRow s c := by
    intro c hc
    obtain ⟨state, hstate, -⟩ := (record_hydrate s skipped c).1 hc
    simp [HasRow, hstate]
  refine ⟨{ h.core with
    owners := h.core.owners.shrink (fun c hc => ?_) rfl (Finset.Subset.refl _)
    indexKnown := fun x hx => ?_
    unregIndex := fun x hx => absurd (hu ▸ hx : x.segment ∈ (∅ : Finset Nat)) (Finset.notMem_empty _)
    rowRecorded := fun _ c state hget hne => (record_hydrate s skipped c).2 ⟨state, hget, hne⟩
    unfenced := fun x hx => ?_
    recordKept := fun c hc => .inl (hrow c hc) }, fun n j hj => ?_⟩
  · rcases hc with hc | hc | hc | hc
    · exact .inl hc
    · exact .inr (.inl hc)
    · exact .inl (hrow c hc)
    · exact .inr (.inr (.inr hc))
  · simp only [hydrate] at hx
    split at hx
    · rename_i n _ hn _
      split at hx
      · rename_i hcond
        exact ⟨n, hn, hcond.1⟩
      · exact absurd rfl hx
    · exact absurd rfl hx
  · simp only [hydrate] at hx
    split at hx
    · split at hx
      · exact unfenced_of_classify (Option.some.inj hx)
      · cases hx
    · cases hx
  · rw [show (hydrate s skipped).jobs n = s.jobs n from rfl, hjobs n] at hj
    cases hj

theorem redo_applyAcked (h : (applyAckedInMemory s).redo c = true) :
    s.redo c = true ∨ s.compactions.get c = some .acked ∨
      (HasRow s c ∧ ∀ x ∈ c.refs, Done s x) := by
  simp only [applyAckedInMemory, Bool.or_eq_true] at h
  refine h.imp id fun h => ?_
  cases hrow : s.compactions.get c with
  | none => simp [hrow] at h
  | some state =>
    simp only [hrow, Bool.or_eq_true, decide_eq_true_eq] at h
    rcases h with h | h
    · exact .inl (h ▸ rfl)
    · exact .inr ⟨by simp [HasRow, hrow], h⟩

theorem inv_applyAcked (h : Inv s) : Inv (applyAckedInMemory s) := by
  have hmem : ∀ x, (applyAckedInMemory s).inMemoryDone x = true →
      ∃ b, s.segments x.segment = some b ∧ b.isDone x.ordinal = true := by
    intro x hx
    simp only [applyAckedInMemory] at hx
    cases hb : s.segments x.segment with
    | none => simp [hb] at hx
    | some b => exact ⟨b, rfl, by simpa [hb] using hx⟩
  refine ⟨{ h.core with
    owners := h.core.owners.shrink (fun c hc => ?_) rfl (Finset.Subset.refl _)
    memKnown := fun x hx => ?_
    memDone := fun x hx => ?_
    redoSettled := fun c hc => ?_ }, fun n j hj => ?_⟩
  · rcases hc with hc | hc | hc | hc | hc
    · exact .inl hc
    · exact .inr (.inl hc)
    · exact .inr (.inr (.inl hc))
    · rcases redo_applyAcked hc with hc | hc | hc
      · exact .inr (.inr (.inr (.inl hc)))
      · exact .inl (by simp [HasRow, hc])
      · exact .inl hc.1
    · exact .inr (.inr (.inr (.inr hc)))
  · obtain ⟨b, hb, -⟩ := hmem x hx
    obtain ⟨n, hn, -⟩ := h.core.segKnown _ _ hb
    simp [applyAckedInMemory, hn]
  · obtain ⟨b, hb, hd⟩ := hmem x hx
    simp [Done, doneIn, applyAckedInMemory, hb, hd]
  · rcases redo_applyAcked hc with hc | hc | hc
    · exact h.core.redoSettled c hc
    · exact .inl (h.core.ackedApplied c hc)
    · exact .inr hc.2
  · refine (h.jobs n j hj).frame (.of_eq rfl rfl rfl) (h.knownOfJob hj) (fun _ hk => hk) fun _ hf => ?_
    refine { hf with redo := ?_ }
    simp [applyAckedInMemory, hf.redo, hf.row]

/-! ## One action of a job -/

theorem JobInv.moveTo (h : JobInv s n j) {pc : Pc} (hk : Kept s j.txn)
    (hf : ({ j with pc := pc } : Job).fresh = false) (hw : pc.wrote = true → j.txn ∈ s.applied)
    (hr : ∀ left, pc = .reclaiming left → ∀ x ∈ j.entries, x.segment ∉ left → Done s x)
    (hd : pc = .deleted → ∀ x ∈ j.txn.refs, Done s x) : JobInv s n { j with pc := pc } where
  sub := h.sub
  entries := h.entries
  kept _ := hk
  fresh hfr := absurd hfr (by simp [hf])
  wrote := hw
  reclaiming := hr
  deleted := hd

theorem inv_mark (h : Inv s) (hj : s.jobs n = some j) {planned : Bool} (hpc : j.pc = .built planned) :
    Inv (setPc s n j (.marked planned)) := by
  have hinv := h.jobs n j hj
  have hfresh : j.fresh = planned := by simp [Job.fresh, hpc]
  refine inv_setPc h.core hj (fun n' j' _ hj' => h.jobs n' j' hj') ?_
  exact ⟨hinv.sub, hinv.entries, fun hf => hinv.kept (hfresh.trans hf),
    fun hf => hinv.fresh (hfresh.trans hf), nofun, nofun, nofun⟩

theorem inv_persist (h : Inv s) (hj : s.jobs n = some j) {state : TxnState} {pc : Pc}
    (hacked : state = .acked → j.txn ∈ s.applied) (hf : ({ j with pc := pc } : Job).fresh = false)
    (hw : pc.wrote = true → j.txn ∈ s.applied) (hr : ∀ left, pc ≠ .reclaiming left)
    (hd : pc ≠ .deleted) : Inv (setPc (persistCompactionRow s j.txn state) n j pc) := by
  have hinv := h.jobs n j hj
  refine inv_setPc (core_persist h.core (Owner.ofJob hj) hacked) hj
    (fun n' j' hne hj' => JobInv.persist h hj hj' hne state) ?_
  exact ⟨hinv.sub, hinv.entries, fun _ => .inl (hasRow_persist s j.txn state (.inl rfl)),
    fun hfr => absurd hfr (by simp [hf]), hw, fun left hl => absurd hl (hr left),
    fun hdel => absurd hdel hd⟩

theorem inv_write (h : Inv s) (hj : s.jobs n = some j) (hpc : j.pc = .sent) {applies ok : Bool}
    (hok : ok = true → applies = true) :
    Inv (if ok then setPc (if applies then { s with applied := sinkApply s.applied j.txn } else s) n j .written
      else endJob (if applies then { s with applied := sinkApply s.applied j.txn } else s) n j) := by
  have hnf : j.fresh = false := by simp [Job.fresh, hpc]
  have happly : Inv { s with applied := sinkApply s.applied j.txn } := inv_apply h hj hnf
  cases ok with
  | true =>
    rw [hok rfl]
    have hinv := happly.jobs n j hj
    refine inv_setPc happly.core hj (fun n' j' _ hj' => happly.jobs n' j' hj') ?_
    exact hinv.moveTo (hinv.kept hnf) rfl (fun _ => mem_sinkApply.2 (.inl rfl)) nofun nofun
  | false =>
    cases applies with
    | true => exact inv_endJob happly hj
    | false => exact inv_endJob h hj

theorem inv_completeRefs (h : Inv s) (hj : s.jobs n = some j) (hpc : j.pc = .acked) :
    Inv (setPc (completeRefs s j.txn.refs) n j (.reclaiming (j.entries.image Slice.segment))) := by
  have hindex := completeRefs_index s j.txn.refs
  have hothers : ∀ n' j', s.jobs n' = some j' → JobInv (completeRefs s j.txn.refs) n' j' :=
    fun n' j' hj' => (h.jobs n' j' hj').index (h.knownOfJob hj') hindex
  have hinv := hothers n j hj
  refine inv_setPc (core_index h.core hindex) hj (fun n' j' _ hj' => hothers n' j' hj') ?_
  refine hinv.moveTo (hinv.kept (by simp [Job.fresh, hpc])) rfl (fun _ => hinv.wrote (by simp [hpc, Pc.wrote]))
    (fun left hl x hx hnx => ?_) nofun
  cases hl
  exact absurd (Finset.mem_image_of_mem _ hx) hnx

theorem inv_reclaim (h : Inv s) (hj : s.jobs n = some j) {left : Finset Nat}
    (hpc : j.pc = .reclaiming left) (g : Nat) (r : Bool) :
    Inv (setPc (completeSlicesAndReclaim s g j.entries r) n j (.reclaiming (left.erase g))) := by
  have hf := completes_reclaim s g j.entries r
  have ht : Inv (completeSlicesAndReclaim s g j.entries r) := inv_complete h hf
  have hinv := ht.jobs n j hj
  refine inv_setPc ht.core hj (fun n' j' _ hj' => ht.jobs n' j' hj') ?_
  refine hinv.moveTo (hinv.kept (by simp [Job.fresh, hpc])) rfl (fun _ => hinv.wrote (by simp [hpc, Pc.wrote]))
    (fun left' hl x hx hnx => ?_) nofun
  cases hl
  by_cases hxg : x.segment = g
  · refine hf.done (.inr ⟨Finset.mem_filter.2 ⟨hx, hxg⟩, fun b hb => ?_⟩)
    exact (h.knownOfJob hj x (hinv.sub hx)).lt_sliceCount h.core hb
  · exact hinv.reclaiming left hpc x hx fun hmem => hnx (Finset.mem_erase.2 ⟨hxg, hmem⟩)

theorem inv_deleteRow (h : Inv s) (hj : s.jobs n = some j) (hpc : j.pc = .reclaiming ∅) :
    Inv (setPc { s with compactions := s.compactions.erase j.txn } n j .deleted) := by
  have hinv := h.jobs n j hj
  -- every segment of the entries has been completed, and the other refs were done at the start
  have hdone : ∀ x ∈ j.txn.refs, Done s x := by
    intro x hx
    by_cases he : x ∈ j.entries
    · exact hinv.reclaiming ∅ hpc x he (Finset.notMem_empty _)
    · exact hinv.entries x hx he
  have ht := inv_eraseRow h hdone
  refine inv_setPc ht.core hj (fun n' j' _ hj' => ht.jobs n' j' hj') ?_
  exact (ht.jobs n j hj).moveTo (.inr (.inr hdone)) rfl (fun _ => hinv.wrote (by simp [hpc, Pc.wrote]))
    nofun fun _ => hdone

theorem inv_removeRow (h : Inv s) (hj : s.jobs n = some j) (hpc : j.pc = .deleted) :
    Inv (endJob (removeCompactionRow s j.txn) n j) := by
  have ht := inv_eraseRow h ((h.jobs n j hj).deleted hpc)
  have hrow : Map.get ({ s with compactions := s.compactions.erase j.txn } : St).compactions j.txn = none := by
    rw [get_eraseRow, if_pos rfl]
  refine inv_endJob (s := removeCompactionRow s j.txn)
    ⟨core_removeManifest ht.core hrow, fun n' j' hj' => ?_⟩ hj
  refine (ht.jobs n' j' hj').removeManifest (ht.knownOfJob hj') fun hf x hx => ?_
  have hne : n' ≠ n := by
    rintro rfl
    rw [show (removeCompactionRow s j.txn).jobs n' = s.jobs n' from rfl, hj] at hj'
    cases hj'
    simp [Job.fresh, hpc] at hf
  exact h.core.fresh_disjoint hj hj' hne ((h.jobs n' j' hj').fresh hf) hx

theorem inv_jobStep (h : Inv s) (hj : s.jobs n = some j) {a : Act} (hs : jobStep s n j a = some s') :
    Inv s' := by
  cases a with
  | mark =>
    simp only [jobStep] at hs
    split at hs
    · rename_i planned hpc
      split at hs <;> cases hs
      · exact inv_mark (inv_inFlight h (s.inFlight ∪ j.entries)) hj hpc
      · exact inv_release h hj
    · cases hs
  | persistPending =>
    simp only [jobStep] at hs
    split at hs <;> cases hs
    exact inv_persist h hj nofun rfl nofun nofun nofun
  | persistSent =>
    obtain ⟨-, rfl⟩ := of_guard hs
    exact inv_persist h hj nofun rfl nofun nofun nofun
  | write applies ok =>
    obtain ⟨hcond, rfl⟩ := of_guard hs
    exact inv_write h hj hcond.1 hcond.2
  | persistAcked =>
    obtain ⟨hpc, rfl⟩ := of_guard hs
    have hmem : j.txn ∈ s.applied := (h.jobs n j hj).wrote (by simp [hpc, Pc.wrote])
    exact inv_persist h hj (fun _ => hmem) rfl (fun _ => hmem) nofun nofun
  | completeRefs =>
    obtain ⟨hpc, rfl⟩ := of_guard hs
    exact inv_completeRefs h hj hpc
  | reclaim g r =>
    simp only [jobStep] at hs
    split at hs
    · rename_i left hpc
      split at hs <;> cases hs
      exact inv_reclaim h hj hpc g r
    · cases hs
  | deleteRow =>
    obtain ⟨hpc, hs⟩ := Option.ite_none_right_eq_some.1 hs
    split at hs <;> cases hs
    · exact inv_deleteRow h hj hpc
    · exact inv_endJob h hj
  | removeRow =>
    obtain ⟨hpc, rfl⟩ := of_guard hs
    exact inv_removeRow h hj hpc
  | fail =>
    simp only [jobStep] at hs
    split at hs <;> cases hs
    exact inv_endJob h hj

/-! ## Every step, every run -/

/-- Before `wal_startup` has hydrated the planner nothing runs. -/
def Boot (s : St) : Prop :=
  s.manifestsLoaded = false → (∀ n, s.jobs n = none) ∧ s.unregistered = ∅

theorem loaded_jobStep {a : Act} (hs : jobStep s n j a = some s') :
    s'.manifestsLoaded = s.manifestsLoaded := by
  cases a <;> simp only [jobStep] at hs <;> (repeat' split at hs) <;> cases hs <;> rfl

theorem boot_step {l : Lbl} (h : Boot s) (hs : step s l = some s') : Boot s' := by
  cases l with
  | job n a =>
    simp only [step] at hs
    split at hs
    · cases hs
    · rename_i j hj
      intro hl
      have := (h ((loaded_jobStep hs).symm.trans hl)).1 n
      rw [hj] at this
      cases this
  | crash =>
    cases hs
    exact fun _ => ⟨fun _ => rfl, rfl⟩
  | startup skipped =>
    obtain ⟨-, rfl⟩ := of_guard hs
    exact nofun
  | commit g slices =>
    obtain ⟨hcond, rfl⟩ := of_guard hs
    exact fun hl => absurd (hcond.2.symm.trans hl) (by decide)
  | register g =>
    obtain ⟨hg, rfl⟩ := of_guard hs
    intro hl
    obtain ⟨-, hu⟩ := h hl
    rw [hu] at hg
    cases hg
  | resume n c | plan n header refs =>
    obtain ⟨hcond, rfl⟩ := of_guard hs
    exact fun hl => absurd (hcond.1.symm.trans hl) (by decide)
  | listAcked | flushAcked batch | forget g =>
    obtain ⟨-, rfl⟩ := of_guard hs
    exact h

/-- A plan step picks only clean slices; nothing is asked of other steps. -/
def PlanClean (s : St) : Lbl → Prop
  | .plan _ _ refs => Clean s refs
  | _ => True

instance (s : St) (l : Lbl) : Decidable (PlanClean s l) :=
  match l with
  | .plan _ _ refs => inferInstanceAs (Decidable (Clean s refs))
  | .commit .. | .register _ | .crash | .startup _ | .listAcked | .flushAcked _ | .forget _
  | .resume .. | .job .. => inferInstanceAs (Decidable True)

theorem inv_step {l : Lbl} (h : Inv s) (hb : Boot s) (hclean : PlanClean s l)
    (hs : step s l = some s') : Inv s' := by
  cases l with
  | commit g slices =>
    obtain ⟨hcond, rfl⟩ := of_guard hs
    exact inv_commit h hcond.1 slices
  | register g =>
    obtain ⟨hg, rfl⟩ := of_guard hs
    exact inv_register h hg
  | crash =>
    cases hs
    exact inv_crash h
  | startup skipped =>
    obtain ⟨hl, rfl⟩ := of_guard hs
    exact inv_hydrate h (hb hl).1 (hb hl).2 skipped
  | listAcked =>
    obtain ⟨-, rfl⟩ := of_guard hs
    exact inv_applyAcked h
  | flushAcked batch =>
    obtain ⟨hcond, rfl⟩ := of_guard hs
    exact inv_flush h hcond.2
  | forget g =>
    obtain ⟨-, rfl⟩ := of_guard hs
    exact inv_forget h g
  | resume n c =>
    obtain ⟨hcond, rfl⟩ := of_guard hs
    exact inv_resume h (by simp [HasRecord, hcond.2.2.1])
  | plan n header refs =>
    obtain ⟨hcond, rfl⟩ := of_guard hs
    exact inv_plan h hcond.1 hcond.2.2.1 hcond.2.2.2 hclean
  | job n a =>
    simp only [step] at hs
    split at hs
    · cases hs
    · rename_i j hj
      exact inv_jobStep h hj hs

theorem inv_init : Inv init := by
  have hown : ∀ c, ¬ Owner init c := by
    rintro c (hc | hc | hc | hc | ⟨n, j, hj, -⟩)
    · exact hc rfl
    · cases hc
    · exact hc rfl
    · cases hc
    · cases hj
  refine ⟨⟨⟨fun c hc => absurd hc (hown c), fun c hc => absurd hc (hown c),
    fun c _ _ hc => absurd hc (hown c)⟩, nofun, fun x hx => absurd rfl hx, nofun, nofun,
    fun _ _ => rfl, nofun, nofun, nofun, nofun, fun c hc => absurd rfl hc, nofun⟩, nofun⟩

theorem inv_inductive : (lts.restrict PlanClean).Inductive (fun s => Inv s ∧ Boot s) where
  init := by
    rintro s rfl
    exact ⟨inv_init, fun _ => ⟨fun _ => rfl, rfl⟩⟩
  step := by
    rintro s l s' ⟨h, hb⟩ ⟨hclean, hs⟩
    exact ⟨inv_step h hb hclean hs, boot_step hb hs⟩

/-- **At most one compaction id per slice.** In every run whose plan steps pick
only clean slices, with crashes and failures anywhere, the sink never applies
two ids that share a slice. -/
theorem applied_once (s : St) (h : (lts.restrict PlanClean).Reachable s) (c c' : CompactionId)
    (hc : c ∈ s.applied) (hc' : c' ∈ s.applied) (x : Slice) (hx : x ∈ c.refs) (hx' : x ∈ c'.refs) :
    c = c' :=
  (inv_inductive.reachable s h).1.core.owners.unique c c' x (.inr (.inl hc)) (.inr (.inl hc')) hx hx'

/-! ## A slice of two segments -/

def sliceS : Slice := ⟨0, 0⟩
def sliceT : Slice := ⟨1, 0⟩
def groupS : CompactionId := ⟨0, {sliceS}⟩
def groupST : CompactionId := ⟨0, {sliceS, sliceT}⟩

def writeJob (n : Nat) : List Lbl :=
  [.job n .mark, .job n .persistPending, .job n .persistSent, .job n (.write true true)]

def resumedRun : List Lbl :=
  [.startup ∅, .commit 0 2, .register 0, .plan 0 0 {sliceS}, .job 0 .mark, .job 0 .persistPending,
    .job 0 .persistSent, .crash, .startup ∅, .resume 0 groupS] ++ writeJob 0

theorem applied_once_resumed :
    ∃ s, (lts.restrict PlanClean).Reachable s ∧ groupS ∈ s.applied ∧
      ∀ c ∈ s.applied, sliceS ∈ c.refs → groupS = c := by
  obtain ⟨s, hr, hmem⟩ : ∃ s, (lts.restrict PlanClean).Reachable s ∧ groupS ∈ s.applied :=
    exists_restrict_reachable resumedRun rfl (by decide +kernel)
  exact ⟨s, hr, hmem, fun c hc hx => applied_once s hr groupS c hmem hc sliceS (by decide) hx⟩

/-- Segment 0 has two slices of different groups. The first is compacted
alone; the process dies after the Acked row and before the done bit. Restart
puts the slice back into the planner, the redo sets its done bit and deletes
the row but leaves it there, and the next plan groups it with a new segment's
slice under a new id. -/
def ackedCrashRun : List Lbl :=
  [.startup ∅, .commit 0 2, .register 0, .plan 0 0 {sliceS}] ++ writeJob 0 ++
    [.job 0 .persistAcked, .crash, .startup ∅, .listAcked, .flushAcked [groupS], .commit 1 1,
      .register 1, .plan 0 0 {sliceS, sliceT}] ++ writeJob 0

theorem acked_crash_applies_twice :
    ∃ s, lts.Reachable s ∧ groupS ∈ s.applied ∧ groupST ∈ s.applied ∧ groupS ≠ groupST ∧
      sliceS ∈ groupS.refs ∧ sliceS ∈ groupST.refs :=
  exists_reachable ackedCrashRun rfl (by decide +kernel)

/-! ## A slice that is done was applied -/

theorem Completes.of_done {old new : Nat → Option SliceBitmap} (h : Completes old new refs)
    (hlt : ∀ b, old x.segment = some b → x.ordinal < b.sliceCount) (hx : doneIn new x = true) :
    doneIn old x = true ∨ x ∈ refs := by
  unfold doneIn at hx ⊢
  rcases h x.segment with ⟨heq, -⟩ | ⟨r, heq⟩
  · exact .inl (heq ▸ hx)
  · cases hb : old x.segment with
    | none => exact .inl rfl
    | some b =>
      -- a row that went had all its bits set
      have hdone : (b.orBits (ordinalsOf refs x.segment)).isDone x.ordinal = true := by
        rw [heq, hb, Option.bind_some, completeIn] at hx
        split_ifs at hx with hall
        · rw [Bool.and_eq_true] at hall
          exact SliceBitmap.isDone_of_allDone hall.1 (hlt b hb)
        · exact hx
      refine ((b.isDone_orBits _ _).1 hdone).imp id fun hmem => ?_
      obtain ⟨y, hy, hord⟩ := Finset.mem_image.1 hmem.1
      obtain ⟨hy, hseg⟩ := Finset.mem_filter.1 hy
      rwa [show x = y by cases x; cases y; simp_all]

theorem of_mem_allRefs {batch : List CompactionId} (hx : x ∈ allRefs batch) :
    ∃ c ∈ batch, x ∈ c.refs := by
  induction batch with
  | nil => cases hx
  | cons d batch ih =>
    rcases Finset.mem_union.1 hx with hd | hx
    · exact ⟨d, List.mem_cons_self, hd⟩
    · exact (ih hx).imp fun c hc => ⟨List.mem_cons_of_mem _ hc.1, hc.2⟩

def Delivered (s : St) : Prop := ∀ x, Known s x → Done s x → ∃ c ∈ s.applied, x ∈ c.refs

theorem Delivered.complete (hd : Delivered s) (h : Inv s) (hf : Completes s.segments s'.segments refs)
    (hc : s'.committed = s.committed) (ha : s.applied ⊆ s'.applied)
    (hr : ∀ x ∈ refs, Known s x → ∃ c ∈ s.applied, x ∈ c.refs) : Delivered s' := by
  intro x hx hdone
  have hk : Known s x := hx.of_committed hc.symm
  have hc : ∃ c ∈ s.applied, x ∈ c.refs := by
    rcases hf.of_done (fun b hb => hk.lt_sliceCount h.core hb) hdone with hold | hmem
    · exact hd x hk hold
    · exact hr x hmem hk
  exact hc.imp fun c hc => ⟨ha hc.1, hc.2⟩

theorem Delivered.of_eq (hd : Delivered s) (h : Inv s) (hs : s'.segments = s.segments)
    (hc : s'.committed = s.committed) (ha : s.applied ⊆ s'.applied) : Delivered s' :=
  hd.complete h (show Completes _ _ ∅ from fun g => .inl ⟨congrFun hs g, nofun⟩) hc ha nofun

theorem delivered_jobStep (hd : Delivered s) (h : Inv s) (hj : s.jobs n = some j) {a : Act}
    (hs : jobStep s n j a = some s') : Delivered s' := by
  cases a with
  | reclaim g r =>
    simp only [jobStep] at hs
    split at hs
    · rename_i left hpc
      split at hs <;> cases hs
      refine hd.complete h (completes_reclaim s g j.entries r) rfl (List.Subset.refl _) fun x hx _ => ?_
      have hinv := h.jobs n j hj
      exact ⟨j.txn, hinv.wrote (by simp [hpc, Pc.wrote]), hinv.sub (Finset.mem_filter.1 hx).1⟩
    · cases hs
  | write applies ok =>
    obtain ⟨-, rfl⟩ := of_guard hs
    have ha : s.applied ⊆ sinkApply s.applied j.txn := fun c hc => mem_sinkApply.2 (.inr hc)
    cases ok <;> cases applies
    all_goals first | exact hd.of_eq h rfl rfl ha | exact hd.of_eq h rfl rfl (List.Subset.refl _)
  | _ =>
    simp only [jobStep] at hs
    (repeat' split at hs) <;> cases hs <;> exact hd.of_eq h rfl rfl (List.Subset.refl _)

theorem delivered_step {l : Lbl} (hd : Delivered s) (h : Inv s) (hs : step s l = some s') :
    Delivered s' := by
  cases l with
  | commit g slices =>
    obtain ⟨hcond, rfl⟩ := of_guard hs
    intro x ⟨n, hn, hlt⟩ hdone
    by_cases hg : x.segment = g
    · simp [Done, doneIn, commitSegment, hg, SliceBitmap.isDone, SliceBitmap.new] at hdone
    · simp only [Done, doneIn, commitSegment, Function.update_of_ne hg] at hn hdone
      exact hd x ⟨n, hn, hlt⟩ hdone
  | flushAcked batch =>
    obtain ⟨hcond, rfl⟩ := of_guard hs
    refine hd.complete h (completes_flush s batch) rfl (List.Subset.refl _) fun x hx hk => ?_
    obtain ⟨c, hc, hxc⟩ := of_mem_allRefs hx
    rcases h.core.redoSettled c (hcond.2 c hc) with hap | hdone
    · exact ⟨c, hap, hxc⟩
    · exact hd x hk (hdone x hxc)
  | job n a =>
    simp only [step] at hs
    split at hs
    · cases hs
    · rename_i j hj
      exact delivered_jobStep hd h hj hs
  | crash =>
    cases hs
    exact hd.of_eq h rfl rfl (List.Subset.refl _)
  | register | startup | listAcked | forget | resume | plan =>
    obtain ⟨-, rfl⟩ := of_guard hs
    exact hd.of_eq h rfl rfl (List.Subset.refl _)

/-- **Exactly once.** In every run whose plan steps pick only clean slices, a
committed slice whose done bit is set or whose segment row is gone was applied by
the sink, under exactly one id. -/
theorem done_applied_once (s : St) (h : (lts.restrict PlanClean).Reachable s) (x : Slice)
    (hx : Known s x) (hd : Done s x) : ∃! c, c ∈ s.applied ∧ x ∈ c.refs := by
  have hrun : (lts.restrict PlanClean).Inductive fun s => (Inv s ∧ Boot s) ∧ Delivered s := by
    refine ⟨fun s hs => ⟨inv_inductive.init s hs, ?_⟩, fun s l s' hi hs => ?_⟩
    · cases hs
      rintro x ⟨n, hn, -⟩
      cases hn
    · exact ⟨inv_inductive.step s l s' hi.1 hs, delivered_step hi.2 hi.1.1 hs.2⟩
  obtain ⟨⟨hinv, -⟩, hdel⟩ := hrun.reachable s h
  obtain ⟨c, hc, hxc⟩ := hdel x hx hd
  refine ⟨c, ⟨hc, hxc⟩, fun c' hc' => ?_⟩
  exact hinv.core.owners.unique c' c x (.inr (.inl hc'.1)) (.inr (.inl hc)) hc'.2 hxc

theorem done_applied_once_resumed : ∃ s, (lts.restrict PlanClean).Reachable s ∧
    ∃! c, c ∈ s.applied ∧ sliceS ∈ c.refs := by
  obtain ⟨s, hr, hn, hd⟩ : ∃ s, (lts.restrict PlanClean).Reachable s ∧
      s.committed 0 = some 2 ∧ doneIn s.segments sliceS = true :=
    exists_restrict_reachable (resumedRun ++ [.job 0 .persistAcked, .job 0 .completeRefs,
      .job 0 (.reclaim 0 true)]) rfl (by decide +kernel)
  exact ⟨s, hr, done_applied_once s hr sliceS ⟨2, hn, by decide⟩ hd⟩

end Skippr.L5.Compactor
