import Skippr.L8Stream.Measures
import Skippr.L8Stream.Processor

/-!
# The reclaim hold

`MIN_UNCONSUMED_SEQ` keeps the segments a processor has still to read: a segment
whose slices are all compacted is reclaimed once its seq is below the hold. Each
write of the hold takes its value from the progress of one aggregate. With one
aggregate that is what the segments still hold for it; with a second one the hold
passes segments the second has not begun.
-/
namespace Skippr.L8.Stream

/-- The segment has an Arrow row the aggregate has not applied. -/
def Unapplied (log : List Item) (agg : TransformAggregate) (seg : Segment) : Prop :=
  ∃ slice ∈ seg.slices, slice.arrow = true ∧ ∃ row < slice.batch.length,
    ¬ ∃ x ∈ log, x.agg = agg.id ∧ x.seq = seg.seq ∧ x.ordinal = slice.ordinal ∧ x.startRow ≤ row

theorem Unapplied.not_consumed {log : List Item} {agg : TransformAggregate} {seg : Segment}
    (h : Unapplied log agg seg) : ¬ Consumed log agg seg := by
  intro hcons
  obtain ⟨slice, hslice, harrow, row, hrow, hno⟩ := h
  have hne : slice.batch ≠ [] := List.ne_nil_of_length_pos (by omega)
  exact hno ⟨_, hcons slice hslice ⟨harrow, hne⟩, rfl, rfl, rfl, Nat.zero_le _⟩

structure HoldOk (cfg : Cfg) (s : St) : Prop where
  next : s.hold ≤ s.nextSeq
  unapplied : ∀ agg ∈ cfg.aggregates, ∀ seg ∈ s.live, ¬ Consumed s.log agg seg → s.hold ≤ seg.seq

section Hold
variable {cfg : Cfg} {s s' : St}

theorem HoldOk.of_same (h : HoldOk cfg s) (hhold : s'.hold = s.hold) (hnext : s'.nextSeq = s.nextSeq)
    (hlive : ∀ seg ∈ s'.live, seg ∈ s.live) (hlog : ∀ x ∈ s.log, x ∈ s'.log) : HoldOk cfg s' where
  next := by
    rw [hhold, hnext]
    exact h.next
  unapplied agg hagg seg hseg hno := by
    rw [hhold]
    exact h.unapplied agg hagg seg (hlive seg hseg) fun hcons => hno (hcons.mono hlog)

theorem agg_unique (hone : cfg.aggregates.length ≤ 1) {a b : TransformAggregate}
    (ha : a ∈ cfg.aggregates) (hb : b ∈ cfg.aggregates) : a = b := by
  match hl : cfg.aggregates with
  | [] =>
    rw [hl] at ha
    cases ha
  | [c] =>
    rw [hl, List.mem_singleton] at ha hb
    rw [ha, hb]
  | c :: d :: l =>
    rw [hl] at hone
    simp at hone

variable (hone : cfg.aggregates.length ≤ 1)
include hone

theorem holdOk_of_turn (hb : Base cfg s) {t : Turn}
    (hpass : PassOk cfg s.live s.log (t.agg :: t.aggs) (t.seg :: t.segs) t.rows)
    (hknown : Known s t.seg) {hold : Nat} (hle : hold ≤ t.seg.seq ∨ hold ≤ t.seg.seq + 1 ∧
      Consumed s.log t.agg t.seg) {s' : St} (hs : s'.hold = hold) (hnext : s'.nextSeq = s.nextSeq)
    (hlive : s'.live = s.live) (hlog : ∀ x ∈ s.log, x ∈ s'.log) : HoldOk cfg s' := by
  have hseq := (hb.known t.seg hknown).2.1
  constructor
  case next =>
    rw [hs, hnext]
    omega
  case unapplied =>
    intro agg hagg seg hseg hno
    have hno' : ¬ Consumed s.log agg seg := fun hcons => hno (hcons.mono hlog)
    obtain rfl : agg = t.agg := agg_unique hone hagg hpass.agg_mem
    rw [hlive] at hseg
    have hge : ¬ seg.seq < t.seg.seq := fun hlt =>
      hno' (consumed_of_lt hpass (.inl hseg) hlt)
    rw [hs]
    rcases hle with hle | ⟨hle, hcons⟩
    · omega
    · have hne : seg.seq ≠ t.seg.seq := by
        intro heq
        rw [hb.unique seg t.seg (.inl hseg) hknown heq] at hno'
        exact hno' hcons
      omega

theorem hold_start (hb : Base cfg s) (hnone : cfg.aggregates ≠ []) :
    HoldOk cfg { s with
      store := cfg.ensureConfig s.store
      hold := (cfg.minCursor (cfg.ensureConfig s.store)).getD s.hold
      pc := .idle } := by
  obtain ⟨agg, hagg⟩ := List.exists_mem_of_ne_nil _ hnone
  have hlist : cfg.aggregates = [agg] := by
    match hl : cfg.aggregates with
    | [] => exact absurd hl hnone
    | [c] =>
      rw [hl, List.mem_singleton] at hagg
      rw [hagg]
    | c :: d :: l =>
      rw [hl] at hone
      simp at hone
  have hmin : (cfg.minCursor (cfg.ensureConfig s.store)).getD s.hold =
      (kept cfg.toStreamState s.store agg.id).seq := by
    have hload := loadMeta_ensureConfig cfg.toStreamState s.store hagg
    rw [StreamState.minCursor, hlist]
    simp [hload]
  constructor
  case next =>
    have := (hb.cursors agg hagg).2
    dsimp only
    omega
  case unapplied =>
    intro a ha seg hseg hno
    obtain rfl := agg_unique hone ha hagg
    dsimp only
    rw [hmin]
    by_contra hlt
    refine hno fun slice hslice hwork => ?_
    exact (hb.reached a ha seg (.inl hseg) slice hslice hwork).2 (.inl (by omega))

theorem hold_advance (hb : Base cfg s) (h : HoldOk cfg s) (hstep : cfg.advance s = some s') :
    HoldOk cfg s' := by
  unfold Cfg.advance at hstep
  split at hstep
  · cases hstep
    exact { h with }
  · cases hstep
    exact { h with }
  · cases hstep
    simp only [Cfg.beginSegment]
    split
    · exact { h with }
    · split
      · exact { h with }
      · exact { h with }
  · rename_i t w hpc
    have hok := hb.segmentOk hpc
    have hknown := hb.known_segment hpc
    split at hstep
    · -- the end of the segment: everything in it is consumed
      rename_i hslices
      cases hstep
      have hcons : Consumed s.log t.agg t.seg := fun slice hslice hwork =>
        hok.applied slice hslice (hslices ▸ List.not_mem_nil) hwork
      by_cases hproc : w.processed = true
      · by_cases hfin : w.finishedLast = true
        · refine holdOk_of_turn hone hb hok.pass hknown (.inr ⟨?_, hcons⟩) rfl rfl rfl (fun _ hx => hx)
          simp only [Cfg.endSegment, hproc, hfin, if_true]
          exact min_le_left _ _
        · refine holdOk_of_turn hone hb hok.pass hknown (.inl ?_) rfl rfl rfl (fun _ hx => hx)
          simp [Cfg.endSegment, hproc, hfin]
      · exact h.of_same (if_neg hproc) rfl (fun _ hseg => hseg) (fun _ hx => hx)
    · rename_i slice slices hslices
      cases hstep
      unfold Cfg.applySlice
      split
      · exact { h with }
      · rename_i hno
        dsimp only
        split
        · exact { h with }
        · -- a slice was applied: the hold is the seq of the segment
          rename_i next store' hev
          have hslice : slice ∈ t.seg.slices := hok.slices.subset (hslices ▸ List.mem_cons_self)
          have hlt : Cfg.startRow w.current t.seg slice < slice.batch.length := by
            simp only [Cfg.Skips, not_or, not_le] at hno
            exact hno.2.2.2
          obtain ⟨hnext, -, -⟩ := applyEvents_ok cfg.toStreamState t.agg s.store hlt hev
          refine holdOk_of_turn hone hb hok.pass hknown (.inl ?_) rfl rfl rfl
            (fun _ hx => List.mem_append_left _ hx)
          rw [hnext]
  · cases hstep

theorem hold_step {l : Label} (hb : Base cfg s)
    (h : s.pc ≠ .closed → cfg.aggregates ≠ [] → HoldOk cfg s) (hstep : cfg.step s l = some s') :
    s'.pc ≠ .closed → cfg.aggregates ≠ [] → HoldOk cfg s' := by
  intro hopen hnone
  cases l with
  | start =>
    simp only [Cfg.step] at hstep
    split at hstep
    · cases hstep
      exact hold_start hone hb hnone
    · cases hstep
  | poll =>
    simp only [Cfg.step] at hstep
    split at hstep
    · rename_i hpc
      cases hstep
      exact (h (by simp [hpc]) hnone).of_same rfl rfl (fun _ hseg => hseg)
        (fun _ hx => hx)
    · cases hstep
  | next =>
    have hrun : s.pc ≠ .closed := by
      intro hc
      simp [Cfg.step, Cfg.advance, hc] at hstep
    exact hold_advance hone hb (h hrun hnone) hstep
  | fail =>
    obtain ⟨hrun, rfl⟩ := of_guard hstep
    have hne : s.pc ≠ .closed := by
      intro hc
      rw [hc] at hrun
      exact hrun
    exact { h hne hnone with }
  | crash =>
    cases hstep
    exact absurd rfl hopen
  | publish seg =>
    obtain ⟨hnew, rfl⟩ := of_guard hstep
    have hold := h hopen hnone
    have hnext := hold.next
    constructor
    case next =>
      dsimp only
      omega
    case unapplied =>
      intro agg hagg t ht hno
      rcases List.mem_append.1 ht with ht | ht
      · exact hold.unapplied agg hagg t ht hno
      · rw [List.mem_singleton.1 ht]
        dsimp only
        omega
  | complete seq =>
    cases hstep
    exact { h hopen hnone with }
  | reclaim seq =>
    obtain ⟨-, rfl⟩ := of_guard hstep
    exact (h hopen hnone).of_same rfl rfl (fun _ hseg => List.mem_of_mem_filter hseg) (fun _ hx => hx)
  | unlink seq =>
    obtain ⟨-, rfl⟩ := of_guard hstep
    exact { h hopen hnone with }

theorem hold_inductive : cfg.system.Inductive fun s =>
    Base cfg s ∧ (s.pc ≠ .closed → cfg.aggregates ≠ [] → HoldOk cfg s) where
  init _ h := ⟨base_init h, fun hopen => absurd h.pc hopen⟩
  step _ _ _ h hstep := ⟨base_step h.1 hstep, hold_step hone h.1 h.2 hstep⟩

end Hold

/-- **Hold.** With at most one aggregate, the hold of an open processor is at or
before every live segment with an Arrow row still to apply, so no such segment is
reclaimed. -/
theorem hold_le_unapplied (cfg : Cfg) (hone : cfg.aggregates.length ≤ 1) (s : St)
    (hr : cfg.system.Reachable s) (hopen : s.pc ≠ .closed) :
    (∀ agg ∈ cfg.aggregates, ∀ seg ∈ s.live, Unapplied s.log agg seg → s.hold ≤ seg.seq) ∧
    ∀ seq s', cfg.step s (.reclaim seq) = some s' → ∀ seg ∈ s.live, seg ∉ s'.live →
      ∀ agg ∈ cfg.aggregates, ¬ Unapplied s.log agg seg := by
  have hhold : ∀ agg ∈ cfg.aggregates, ∀ seg ∈ s.live, Unapplied s.log agg seg → s.hold ≤ seg.seq := by
    intro agg hagg seg hseg hun
    have h := (hold_inductive hone).reachable s hr
    exact (h.2 hopen (List.ne_nil_of_mem hagg)).unapplied agg hagg seg hseg hun.not_consumed
  refine ⟨hhold, ?_⟩
  intro seq s' hstep seg hseg hgone agg hagg hun
  have hle := hhold agg hagg seg hseg hun
  obtain ⟨hlt, rfl⟩ := of_guard hstep
  have hseq : seg.seq = seq := by
    by_contra hne
    exact hgone (List.mem_filter.2 ⟨hseg, by simpa using hne⟩)
  omega

/-! ## One segment, one and two aggregates -/

def Pc.isClosed : Pc → Bool
  | .closed => true
  | _ => false

theorem ne_closed_of {pc : Pc} (h : pc.isClosed = false) : pc ≠ .closed := by
  intro hc
  rw [hc] at h
  cases h

def segmentName (seq : Nat) : Text := List.replicate seq 's'

theorem segmentName_inj (a b : Nat) (h : segmentName a = segmentName b) : a = b := by
  have := congrArg List.length h
  simpa [segmentName] using this

def otherTotals : TransformAggregate := { invoiceTotals with id := ['u'] }

def oneTotals : Cfg where
  toStreamState := invoiceState
  idOf := segmentName
  idOf_zero := rfl
  idOf_inj := segmentName_inj
  ids_nodup := List.nodup_singleton _

def twoTotals : Cfg where
  toStreamState := { invoiceState with aggregates := [invoiceTotals, otherTotals] }
  idOf := segmentName
  idOf_zero := rfl
  idOf_inj := segmentName_inj
  ids_nodup := by decide

def invoiceSegment (seq : Nat) : Segment where
  seq := seq
  segmentId := segmentName seq
  slices := [⟨0, true, [.ok (invoice .insert 'A' 'x' 10 seq).row],
    some [(invoice .insert 'A' 'x' 10 seq).info]⟩]
  sorted := List.pairwise_singleton _ _

def oneSegment : St where
  live := [invoiceSegment 1]
  done := [1]
  payloads := [1]
  nextSeq := 2
  store := emptyStore
  hold := u64Max
  pc := .closed
  log := []

theorem oneSegment_init (cfg : Cfg) (hid : cfg.idOf 1 = segmentName 1) : cfg.Init oneSegment where
  pc := rfl
  log := rfl
  metas := by
    intro agg _ m hm
    cases hm
  live := by
    intro seg hseg
    rw [List.mem_singleton.1 hseg]
    exact ⟨Nat.one_pos, Nat.one_lt_two, hid.symm⟩
  distinct := List.nodup_singleton _
  next := Nat.two_pos

def publishAfter : List Label :=
  [.start, .poll, .next, .next, .next, .publish (invoiceSegment 2)]

def afterPublish : St := (exec oneTotals.step oneSegment publishAfter).get (by decide +kernel)

theorem hold_le_published : oneTotals.system.Reachable afterPublish ∧ afterPublish.hold = 2 ∧
    (∀ agg ∈ oneTotals.aggregates, ∀ seg ∈ afterPublish.live,
      Unapplied afterPublish.log agg seg → afterPublish.hold ≤ seg.seq) ∧
    ∀ seq s', oneTotals.step afterPublish (.reclaim seq) = some s' → ∀ seg ∈ afterPublish.live,
      seg ∉ s'.live → ∀ agg ∈ oneTotals.aggregates, ¬ Unapplied afterPublish.log agg seg := by
  have hreach : oneTotals.system.Reachable afterPublish :=
    reachable_of_exec (oneSegment_init oneTotals rfl) (Option.some_get _).symm
  have hopen : afterPublish.pc ≠ .closed := ne_closed_of (by decide +kernel)
  exact ⟨hreach, by decide +kernel, hold_le_unapplied oneTotals (by decide) _ hreach hopen⟩

def firstAggregate : List Label := [.start, .poll, .next, .next, .next]

def afterFirst : St := (exec twoTotals.step oneSegment firstAggregate).get (by decide +kernel)

/-- The hold passes the only segment before the second aggregate has read it, and
the segment is reclaimed. -/
theorem second_aggregate_overtaken :
    twoTotals.system.Reachable afterFirst ∧ afterFirst.pc ≠ .closed ∧
    ∃ agg ∈ twoTotals.aggregates, ∃ seg ∈ afterFirst.live, Unapplied afterFirst.log agg seg ∧
      seg.seq < afterFirst.hold ∧
      ∃ s', twoTotals.step afterFirst (.reclaim seg.seq) = some s' ∧ s'.live = [] := by
  have hreach : twoTotals.system.Reachable afterFirst :=
    reachable_of_exec (oneSegment_init twoTotals rfl) (Option.some_get _).symm
  have hun : Unapplied afterFirst.log otherTotals (invoiceSegment 1) :=
    ⟨_, List.mem_cons_self, rfl, 0, by decide, by decide +kernel⟩
  exact ⟨hreach, ne_closed_of (by decide +kernel), otherTotals,
    List.mem_cons_of_mem _ List.mem_cons_self, invoiceSegment 1, List.mem_cons_self, hun,
    by decide +kernel, _, rfl, rfl⟩

end Skippr.L8.Stream
