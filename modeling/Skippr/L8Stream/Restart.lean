import Skippr.Core.Lists
import Skippr.L8Stream.ReclaimHold

/-!
# Crashes and restarts of the stream processor

A batch and the cursor after it are one commit, so a restarted processor goes on
where the stored cursor says. As long as no segment is reclaimed before every
aggregate has applied it, the slices applied over all restarts are those of an
uninterrupted run, in the same order.
-/
namespace Skippr.L8.Stream

/-! ## Replays -/

section Replay
variable (st : StreamState) (agg : TransformAggregate)

def HasEventId (cdc : Option (List WalRowMeta)) (i : Nat) : Prop :=
  ∃ info, (cdc.bind fun rows => rows[i]?) = some info ∧ info.eventId ≠ []

def AllSeen (store : Store) (cdc : Option (List WalRowMeta)) (startRow length : Nat) : Prop :=
  ∀ i, startRow ≤ i → i < length → ∃ info, (cdc.bind fun rows => rows[i]?) = some info ∧
    info.eventId ≠ [] ∧ (Map.get store.dedup (st.dedupKey agg.id info.eventId)).isSome

variable {batch : List (Except StreamError Row)} {startRow : Nat}
  {row : Except StreamError Row × Nat} {store : Store} {cdc : Option (List WalRowMeta)}

theorem mem_rowsFrom (h : row ∈ StreamState.rowsFrom batch startRow) :
    startRow ≤ row.2 ∧ row.2 < batch.length := by
  unfold StreamState.rowsFrom at h
  obtain ⟨i, hi, rfl⟩ := List.mem_iff_getElem.1 h
  rw [List.length_drop, List.length_zipIdx] at hi
  simp
  omega

theorem rowsFrom_mem {i : Nat} (hs : startRow ≤ i) (hi : i < batch.length) :
    ∃ row ∈ StreamState.rowsFrom batch startRow, row.2 = i := by
  refine ⟨(batch[i], i), ?_, rfl⟩
  unfold StreamState.rowsFrom
  rw [List.mem_iff_getElem]
  refine ⟨i - startRow, ?_, ?_⟩
  · rw [List.length_drop, List.length_zipIdx]
    omega
  · simp [Nat.add_sub_cancel' hs]

theorem applyRows_of_seen :
    ∀ (l : List (Except StreamError Row × Nat)) (p : Pending),
    (∀ row ∈ l, ∃ info, (cdc.bind fun rows => rows[row.2]?) = some info ∧ info.eventId ≠ [] ∧
      (Map.get store.dedup (st.dedupKey agg.id info.eventId)).isSome) →
    ∃ n, l.foldlM (st.applyRow agg store cdc) p = .ok { p with rowIndex := n }
  | [], p, _ => ⟨p.rowIndex, rfl⟩
  | row :: l, p, h => by
    obtain ⟨info, hinfo, hne, hseen⟩ := h row List.mem_cons_self
    obtain ⟨n, hn⟩ := applyRows_of_seen l { p with rowIndex := row.2 + 1 }
      (List.forall_mem_cons.1 h).2
    refine ⟨n, ?_⟩
    have hrow : st.applyRow agg store cdc p row = .ok { p with rowIndex := row.2 + 1 } := by
      simp [StreamState.applyRow, hinfo, StreamState.markSeen, hne, hseen]
    rw [List.foldlM_cons, hrow]
    exact hn

theorem applyEvents_of_seen (cursor : WalCursor)
    (h : AllSeen st agg store cdc startRow batch.length) :
    ∃ next store', st.applyEvents agg store cursor batch cdc startRow = .ok (next, store') ∧
      store'.measures = store.measures := by
  by_cases hlen : batch.length ≤ startRow
  · exact ⟨cursor, store, if_pos hlen, rfl⟩
  · obtain ⟨n, hn⟩ := applyRows_of_seen st agg (StreamState.rowsFrom batch startRow)
      ⟨∅, ∅, ∅, [], cursor.rowIndex⟩ (fun row hrow => h row.2 (mem_rowsFrom hrow).1 (mem_rowsFrom hrow).2)
    refine ⟨{ cursor with rowIndex := n },
      st.commitBatch agg store ⟨∅, ∅, ∅, [], n⟩ { cursor with rowIndex := n }, ?_, rfl⟩
    rw [StreamState.applyEvents, if_neg hlen, hn]
    rfl

theorem applyRow_dedup {p p' : Pending} (h : st.applyRow agg store cdc p row = .ok p') :
    (∀ key ∈ p.dedup, key ∈ p'.dedup) ∧
      ∀ info, (cdc.bind fun rows => rows[row.2]?) = some info → info.eventId ≠ [] →
        st.dedupKey agg.id info.eventId ∈ p'.dedup ∨
          (Map.get store.dedup (st.dedupKey agg.id info.eventId)).isSome := by
  have hnew : ∀ {q q' : Pending} {info : Option WalRowMeta} {newRow : Row},
      st.applyNew agg store q info newRow = .ok q' → q'.dedup = q.dedup := by
    intro q q' info newRow hq
    simp only [StreamState.applyNew] at hq
    obtain ⟨r, -, rfl⟩ := map_eq_ok.1 hq
    rfl
  simp only [StreamState.applyRow] at h
  split at h
  · -- skipped: the id is in the store or in the batch
    rename_i hmark
    cases h
    refine ⟨fun key hkey => hkey, fun info hinfo hne => ?_⟩
    rw [hinfo] at hmark
    simp only [StreamState.markSeen, if_neg hne] at hmark
    split at hmark
    · rename_i hin
      exact hin.symm
    · cases hmark
  · rename_i q hmark
    cases hrow : row.1 with
    | error err =>
      rw [hrow] at h
      cases h
    | ok newRow =>
      rw [hrow] at h
      obtain ⟨q', hq', rfl⟩ := map_eq_ok.1 h
      have hded := hnew hq'
      dsimp only
      rw [hded]
      cases hinfo : cdc.bind fun rows => rows[row.2]? with
      | none =>
        rw [hinfo] at hmark
        cases hmark
        exact ⟨fun key hkey => hkey, fun info hno => by cases hno⟩
      | some info =>
        rw [hinfo] at hmark
        by_cases hne : info.eventId = []
        · simp only [StreamState.markSeen, if_pos hne] at hmark
          cases hmark
          refine ⟨fun key hkey => hkey, fun info' hinfo' hne' => ?_⟩
          cases hinfo'
          exact absurd hne hne'
        · simp only [StreamState.markSeen, if_neg hne] at hmark
          obtain ⟨-, rfl⟩ := of_guard_not hmark
          refine ⟨fun key hkey => List.mem_append_left _ hkey, fun info' hinfo' _ => ?_⟩
          cases hinfo'
          exact .inl (List.mem_append_right _ (List.mem_singleton_self _))

theorem applyRows_dedup :
    ∀ (l : List (Except StreamError Row × Nat)) {p p' : Pending},
    l.foldlM (st.applyRow agg store cdc) p = .ok p' →
    (∀ key ∈ p.dedup, key ∈ p'.dedup) ∧
      ∀ row ∈ l, ∀ info, (cdc.bind fun rows => rows[row.2]?) = some info → info.eventId ≠ [] →
        st.dedupKey agg.id info.eventId ∈ p'.dedup ∨
          (Map.get store.dedup (st.dedupKey agg.id info.eventId)).isSome
  | [], p, p', h => by
    cases h
    refine ⟨fun key hkey => hkey, fun row hrow => ?_⟩
    cases hrow
  | row :: l, p, p', h => by
    rw [List.foldlM_cons, bind_eq_ok] at h
    obtain ⟨p₁, hrow, hl⟩ := h
    obtain ⟨hkeep, hin⟩ := applyRow_dedup st agg hrow
    obtain ⟨hkeep', hin'⟩ := applyRows_dedup l hl
    refine ⟨fun key hkey => hkeep' key (hkeep key hkey), fun r hr info hinfo hne => ?_⟩
    rcases List.mem_cons.1 hr with rfl | hr
    · exact (hin info hinfo hne).imp_left (hkeep' _)
    · exact hin' r hr info hinfo hne

theorem applyEvents_dedup {store' : Store} {cursor next : WalCursor}
    (h : st.applyEvents agg store cursor batch cdc startRow = .ok (next, store')) :
    (∀ key, (Map.get store.dedup key).isSome → (Map.get store'.dedup key).isSome) ∧
      ((∀ i, startRow ≤ i → i < batch.length → HasEventId cdc i) →
        AllSeen st agg store' cdc startRow batch.length) := by
  unfold StreamState.applyEvents at h
  split at h
  · rename_i hlen
    obtain ⟨-, rfl⟩ := Prod.mk.inj (Except.ok.inj h)
    exact ⟨fun key hkey => hkey, fun _ i hs hi => by omega⟩
  · obtain ⟨p, hfold, hres⟩ := map_eq_ok.1 h
    obtain ⟨-, rfl⟩ := Prod.mk.inj hres
    refine ⟨fun key hkey => (commitBatch_dedup st agg store p _ key).2 (.inr hkey), ?_⟩
    intro hids i hs hi
    obtain ⟨info, hinfo, hne⟩ := hids i hs hi
    obtain ⟨row, hrow, rfl⟩ := rowsFrom_mem hs hi
    refine ⟨info, hinfo, hne, (commitBatch_dedup st agg store p _ _).2 ?_⟩
    exact (applyRows_dedup st agg _ hfold).2 row hrow info hinfo hne

def Applies (store store' : Store) : Prop :=
  ∃ agg cursor batch cdc startRow next,
    st.applyEvents agg store cursor batch cdc startRow = .ok (next, store')

theorem replay_measure {store₁ store₂ : Store} {cursor next : WalCursor}
    (h : st.applyEvents agg store cursor batch cdc startRow = .ok (next, store₁))
    (hids : ∀ i, startRow ≤ i → i < batch.length → HasEventId cdc i)
    (hlater : Relation.ReflTransGen (Applies st) store₁ store₂) (cursor' : WalCursor)
    {startRow' : Nat} (hstart : startRow ≤ startRow') :
    ∃ next' store', st.applyEvents agg store₂ cursor' batch cdc startRow' = .ok (next', store') ∧
      ∀ id key name, st.measure store' id key name = st.measure store₂ id key name := by
  have hseen : AllSeen st agg store₂ cdc startRow batch.length := by
    induction hlater with
    | refl => exact (applyEvents_dedup st agg h).2 hids
    | tail _ hstep ih =>
      obtain ⟨agg', _, _, _, _, _, hstep⟩ := hstep
      intro i hs hi
      obtain ⟨info, hinfo, hne, hin⟩ := ih i hs hi
      exact ⟨info, hinfo, hne, (applyEvents_dedup st agg' hstep).1 _ hin⟩
  have hfrom : AllSeen st agg store₂ cdc startRow' batch.length :=
    fun i hs hi => hseen i (le_trans hstart hs) hi
  obtain ⟨next', store', hok, hmeasures⟩ := applyEvents_of_seen st agg cursor' hfrom
  refine ⟨next', store', hok, fun id key name => ?_⟩
  rw [StreamState.measure, StreamState.loadMeasures, hmeasures]
  rfl

end Replay

/-! ## The work of a pass -/

structure Task where
  agg : TransformAggregate
  seg : Segment
  slice : Slice

def Task.item (x : Task) : Item := Stream.item x.agg x.seg x.slice

def tasksOf (agg : TransformAggregate) (seg : Segment) (slices : List Slice) : List Task :=
  (slices.filter fun slice => slice.Work).map fun slice => ⟨agg, seg, slice⟩

def workList (aggs : List TransformAggregate) (rows : List Segment) : List Task :=
  aggs.flatMap fun agg => rows.flatMap fun seg => tasksOf agg seg seg.slices

variable {agg : TransformAggregate}

theorem mem_tasksOf {seg : Segment} {slices : List Slice} {x : Task} :
    x ∈ tasksOf agg seg slices ↔
      x.agg = agg ∧ x.seg = seg ∧ x.slice ∈ slices ∧ x.slice.Work := by
  unfold tasksOf
  constructor
  · intro h
    obtain ⟨slice, hslice, rfl⟩ := List.mem_map.1 h
    obtain ⟨hin, hwork⟩ := List.mem_filter.1 hslice
    exact ⟨rfl, rfl, hin, of_decide_eq_true hwork⟩
  · intro h
    obtain ⟨rfl, rfl, hin, hwork⟩ := h
    exact List.mem_map.2 ⟨x.slice, List.mem_filter.2 ⟨hin, decide_eq_true hwork⟩, rfl⟩

theorem mem_workList {aggs : List TransformAggregate} {rows : List Segment} {x : Task} :
    x ∈ workList aggs rows ↔
      x.agg ∈ aggs ∧ x.seg ∈ rows ∧ x.slice ∈ x.seg.slices ∧ x.slice.Work := by
  unfold workList
  constructor
  · intro h
    obtain ⟨agg, hagg, h⟩ := List.mem_flatMap.1 h
    obtain ⟨seg, hseg, h⟩ := List.mem_flatMap.1 h
    obtain ⟨rfl, rfl, hslice⟩ := mem_tasksOf.1 h
    exact ⟨hagg, hseg, hslice⟩
  · intro h
    obtain ⟨hagg, hseg, hslice⟩ := h
    exact List.mem_flatMap.2 ⟨x.agg, hagg, List.mem_flatMap.2
      ⟨x.seg, hseg, mem_tasksOf.2 ⟨rfl, rfl, hslice⟩⟩⟩

theorem workList_split (agg : TransformAggregate) (seg : Segment) (slice : Slice)
    (hwork : slice.Work) (preA postA : List TransformAggregate) (preR postR : List Segment)
    (preS postS : List Slice) (hslices : seg.slices = preS ++ slice :: postS) :
    ∃ after, workList (preA ++ agg :: postA) (preR ++ seg :: postR) =
      (workList preA (preR ++ seg :: postR) ++ (workList [agg] preR ++ tasksOf agg seg preS)) ++
        ⟨agg, seg, slice⟩ :: after := by
  refine ⟨tasksOf agg seg postS ++ (workList [agg] postR ++ workList postA (preR ++ seg :: postR)), ?_⟩
  have hseg : tasksOf agg seg seg.slices =
      tasksOf agg seg preS ++ ⟨agg, seg, slice⟩ :: tasksOf agg seg postS := by
    rw [hslices]
    simp [tasksOf, hwork]
  simp only [workList, List.flatMap_append, List.flatMap_cons, List.flatMap_nil, hseg,
    List.append_assoc, List.append_nil, List.cons_append]

section Distinct
variable {cfg : Cfg} {rows : List Segment}

theorem task_inj (hrows : rows.Pairwise fun a b => a.seq < b.seq) {x y : Task}
    (hx : x ∈ workList cfg.aggregates rows) (hy : y ∈ workList cfg.aggregates rows)
    (h : x.item = y.item) : x = y := by
  obtain ⟨hxa, hxs, hxl, -⟩ := mem_workList.1 hx
  obtain ⟨hya, hys, hyl, -⟩ := mem_workList.1 hy
  obtain ⟨xa, xs, xl⟩ := x
  obtain ⟨ya, ys, yl⟩ := y
  obtain rfl : xa = ya := List.inj_on_of_nodup_map cfg.ids_nodup hxa hya (congrArg Item.agg h)
  have hnodup : (rows.map (·.seq)).Nodup := List.pairwise_map.2 (hrows.imp fun hlt => ne_of_lt hlt)
  obtain rfl : xs = ys := List.inj_on_of_nodup_map hnodup hxs hys (congrArg Item.seq h)
  obtain rfl : xl = yl := xs.slice_inj hxl hyl (congrArg Item.ordinal h)
  rfl

theorem workList_nodup (hrows : rows.Pairwise fun a b => a.seq < b.seq) :
    (workList cfg.aggregates rows).Nodup := by
  have haggs : cfg.aggregates.Nodup := List.Nodup.of_map _ cfg.ids_nodup
  have hrows' : rows.Nodup := hrows.imp fun hlt heq => by
    rw [heq] at hlt
    exact lt_irrefl _ hlt
  refine List.nodup_flatMap.2 ⟨fun agg _ => List.nodup_flatMap.2 ⟨fun seg _ => ?_, ?_⟩, ?_⟩
  · have hslices : seg.slices.Nodup := seg.sorted.imp fun hlt heq => by
      rw [heq] at hlt
      exact lt_irrefl _ hlt
    exact (hslices.filter _).map fun a b hab => congrArg Task.slice hab
  · refine hrows'.imp ?_
    intro a b hne x hxa hxb
    exact hne ((mem_tasksOf.1 hxa).2.1.symm.trans (mem_tasksOf.1 hxb).2.1)
  · refine haggs.imp ?_
    intro a b hne x hxa hxb
    obtain ⟨_, _, hxa⟩ := List.mem_flatMap.1 hxa
    obtain ⟨_, _, hxb⟩ := List.mem_flatMap.1 hxb
    exact hne ((mem_tasksOf.1 hxa).1.symm.trans (mem_tasksOf.1 hxb).1)

end Distinct

/-! ## Restarts -/

def applyTask (cfg : Cfg) (store : Store) (x : Task) : Except StreamError Store :=
  (cfg.applyEvents x.agg store ⟨x.seg.seq, x.seg.segmentId, x.slice.ordinal, 0⟩ x.slice.batch
    x.slice.cdc 0).map Prod.snd

/-- No segment is published, and none is reclaimed that an aggregate has not
applied. -/
def Keeps (cfg : Cfg) (s : St) : Label → Prop
  | .publish _ => False
  | .reclaim seq => ∀ agg ∈ cfg.aggregates, ∀ seg ∈ s.live, seg.seq = seq → ¬ Unapplied s.log agg seg
  | _ => True

theorem consumed_of_applied {log : List Item} {seg : Segment} (hlog : ∀ x ∈ log, x.startRow = 0)
    (h : ¬ Unapplied log agg seg) : Consumed log agg seg := by
  intro slice hslice hwork
  by_contra hno
  refine h ⟨slice, hslice, hwork.1, 0, List.length_pos_iff.2 hwork.2, ?_⟩
  intro hex
  obtain ⟨⟨a, q, o, r⟩, hx, rfl, rfl, rfl, -⟩ := hex
  obtain rfl : r = 0 := hlog _ hx
  exact hno hx

theorem ensureConfig_eq_self (st : StreamState) {store : Store}
    (h : ∀ agg ∈ st.aggregates, ∃ c, st.loadMeta store agg.id = some ⟨c, st.configHash⟩) :
    st.ensureConfig store = store := by
  unfold StreamState.ensureConfig
  revert h
  generalize st.aggregates = aggs
  intro h
  induction aggs with
  | nil => rfl
  | cons a aggs ih =>
    obtain ⟨c, hc⟩ := h a List.mem_cons_self
    have hsame : st.ensureAggregate store a.id = store := by
      rw [StreamState.ensureAggregate, hc]
      exact if_pos rfl
    rw [List.foldl_cons, hsame]
    exact ih (List.forall_mem_cons.1 h).2

/-- What has been applied since `s₀` is an initial part of the work list, and the
store is what that part makes of the store at `s₀`. -/
structure Resumed (cfg : Cfg) (s₀ s : St) : Prop where
  live : ∀ seg ∈ s.live, seg ∈ s₀.live
  rows : ∀ seg ∈ snapshot s.pc, seg ∈ s₀.live
  whole : Cfg.Running s.pc → ∀ seg ∈ s.live, seg ∈ snapshot s.pc
  gone : ∀ seg ∈ s₀.live, seg ∉ s.live → ∀ agg ∈ cfg.aggregates, Consumed s.log agg seg
  log : ∃ done rest, workList cfg.aggregates (bySeq s₀.live) = done ++ rest ∧
    s.log = done.map Task.item ∧
    done.foldlM (applyTask cfg) (cfg.ensureConfig s₀.store) = .ok (cfg.ensureConfig s.store)

section Step
variable {cfg : Cfg} {s₀ s s' : St}

theorem Resumed.of_same (h : Resumed cfg s₀ s) (hlive : s'.live = s.live)
    (hstore : cfg.ensureConfig s'.store = cfg.ensureConfig s.store) (hlog : s'.log = s.log)
    (hrows : ∀ seg ∈ snapshot s'.pc, seg ∈ snapshot s.pc ∨ seg ∈ s.live)
    (hwhole : Cfg.Running s'.pc → ∀ seg ∈ s.live, seg ∈ snapshot s'.pc) : Resumed cfg s₀ s' where
  live := hlive ▸ h.live
  rows seg hseg := (hrows seg hseg).elim (h.rows seg) (h.live seg)
  whole hrun seg hseg := hwhole hrun seg (hlive ▸ hseg)
  gone := by
    rw [hlive, hlog]
    exact h.gone
  log := by
    rw [hlog, hstore]
    exact h.log

section Moves
variable {pc : Pc} {hold : Nat}

theorem Resumed.of_pass (h : Resumed cfg s₀ s) (hrun : Cfg.Running s.pc) (hrows : snapshot pc = snapshot s.pc) :
    Resumed cfg s₀ { s with pc := pc, hold := hold } :=
  h.of_same rfl rfl rfl (fun _ hseg => .inl (hrows ▸ hseg)) fun _ => hrows ▸ h.whole hrun

theorem Resumed.of_rest (h : Resumed cfg s₀ s) (hrest : ¬ Cfg.Running pc) :
    Resumed cfg s₀ { s with pc := pc, hold := hold } := by
  refine h.of_same rfl rfl rfl (fun seg hseg => ?_) fun hrun => absurd hrun hrest
  cases pc with
  | pass aggs segs rows | segment t w => exact absurd trivial hrest
  | _ => cases hseg

end Moves

variable {t : Turn} {w : Local} {slice : Slice}

theorem Resumed.before (h : Resumed cfg s₀ s) (hpc : s.pc = .segment t w)
    (hok : SegmentOk cfg s.live s.log s.store t w) {agg : TransformAggregate} {seg : Segment}
    (hagg : agg ∈ cfg.aggregates) (hseg : seg ∈ s₀.live)
    (hturn : agg ∉ t.agg :: t.aggs ∨ agg = t.agg ∧ seg.seq < t.seg.seq) :
    Consumed s.log agg seg := by
  by_cases hlive : seg ∈ s.live
  · have hrow : seg ∈ t.rows := by
      have := h.whole (by rw [hpc]; trivial) seg hlive
      rw [hpc] at this
      exact this
    rcases hturn with hout | ⟨rfl, hlt⟩
    · exact hok.pass.finished agg hagg hout seg hrow
    · exact consumed_of_lt hok.pass (.inl hlive) hlt
  · exact h.gone seg hseg hlive agg hagg

theorem not_applied_of_not_skips (hb : Base cfg s) (hpc : s.pc = .segment t w)
    (hslice : slice ∈ t.seg.slices) (hno : ¬ Cfg.Skips w.current t.seg slice) :
    item t.agg t.seg slice ∉ s.log := by
  intro hin
  have hok := hb.segmentOk hpc
  have hknown := hb.known_segment hpc
  simp only [Cfg.Skips, not_or, not_not] at hno
  obtain ⟨hord, hwork, happ, -⟩ := hno
  have hreached := (hb.reached t.agg hok.pass.agg_mem t.seg hknown slice hslice hwork).1 hin
  rcases hok.current with ⟨hcur, hseq⟩ | ⟨hlt, -⟩
  · rw [← hcur] at hreached
    have hordinal : slice.ordinal = w.current.sliceOrdinal := by
      rcases hreached with hr | hr
      · omega
      · omega
    have hlen := hb.rows t.agg hok.pass.agg_mem t.seg hknown slice hslice hwork (hcur ▸ hseq.symm)
      (hcur ▸ hordinal)
    have hid : w.current.segmentId = t.seg.segmentId := by
      rw [(hb.known t.seg hknown).2.2, ← hseq, hcur]
      exact (hb.cursors t.agg hok.pass.agg_mem).1
    refine happ ?_
    rw [← hcur] at hlen
    exact decide_eq_true ⟨hid, hordinal.symm, hlen⟩
  · rcases hreached with hr | hr
    · omega
    · omega

theorem Resumed.first_task (h : Resumed cfg s₀ s) (hinit : cfg.Init s₀) (hb : Base cfg s)
    (hpc : s.pc = .segment t w) {slices : List Slice} (hslices : w.slices = slice :: slices)
    (hno : ¬ Cfg.Skips w.current t.seg slice) :
    ∃ done after, workList cfg.aggregates (bySeq s₀.live) = done ++ ⟨t.agg, t.seg, slice⟩ :: after ∧
      s.log = done.map Task.item ∧
      done.foldlM (applyTask cfg) (cfg.ensureConfig s₀.store) = .ok (cfg.ensureConfig s.store) := by
  have hok := hb.segmentOk hpc
  have hslice : slice ∈ t.seg.slices := hok.slices.subset (hslices ▸ List.mem_cons_self)
  have hwork : slice.Work := by
    simp only [Cfg.Skips, not_or, not_not] at hno
    exact hno.2.1
  have hseg₀ : t.seg ∈ s₀.live := by
    refine h.rows t.seg ?_
    rw [hpc]
    exact hok.pass.segsIn.subset List.mem_cons_self
  have hsorted := bySeq_sorted hinit.distinct
  obtain ⟨done, rest, hsplit, hlog, hfold⟩ := h.log
  -- the list around the task
  obtain ⟨preA, hpreA⟩ := hok.pass.aggsIn
  obtain ⟨preR, postR, hR⟩ := List.append_of_mem (mem_bySeq.2 hseg₀)
  obtain ⟨preS, hpreS⟩ := hok.slices
  rw [hslices] at hpreS
  obtain ⟨after, hcut⟩ := workList_split t.agg t.seg slice hwork preA t.aggs preR postR preS slices
    hpreS.symm
  rw [hpreA, ← hR] at hcut
  have hnodup : (workList cfg.aggregates (bySeq s₀.live)).Nodup := workList_nodup hsorted
  have hmem : ∀ x ∈ workList cfg.aggregates (bySeq s₀.live), x.item ∈ s.log → x ∈ done := by
    intro x hx hin
    rw [hlog] at hin
    obtain ⟨y, hy, heq⟩ := List.mem_map.1 hin
    have hyw : y ∈ workList cfg.aggregates (bySeq s₀.live) := hsplit ▸ List.mem_append_left _ hy
    rw [← task_inj hsorted hyw hx heq]
    exact hy
  have hnew : (⟨t.agg, t.seg, slice⟩ : Task) ∉ done := by
    intro hin
    refine not_applied_of_not_skips hb hpc hslice hno ?_
    rw [hlog]
    exact List.mem_map_of_mem hin
  have hbefore : ∀ x ∈ workList preA (bySeq s₀.live) ++
      (workList [t.agg] preR ++ tasksOf t.agg t.seg preS), x ∈ done := by
    intro x hx
    have hxw : x ∈ workList cfg.aggregates (bySeq s₀.live) := by
      rw [hcut]
      exact List.mem_append_left _ hx
    obtain ⟨hagg, hseg, hin, hw⟩ := mem_workList.1 hxw
    refine hmem x hxw ?_
    rcases List.mem_append.1 hx with hx | hx
    · -- an earlier aggregate
      have haggs : (preA ++ t.agg :: t.aggs).Nodup := hpreA ▸ List.Nodup.of_map _ cfg.ids_nodup
      have hout : x.agg ∉ t.agg :: t.aggs := fun hmem' =>
        List.disjoint_of_nodup_append haggs (mem_workList.1 hx).1 hmem'
      exact h.before hpc hok hagg (mem_bySeq.1 hseg) (.inl hout) x.slice hin hw
    · rcases List.mem_append.1 hx with hx | hx
      · -- an earlier segment
        obtain ⟨haggx, hsegx, -, -⟩ := mem_workList.1 hx
        have hlt : x.seg.seq < t.seg.seq := by
          rw [hR] at hsorted
          exact (List.pairwise_append.1 hsorted).2.2 x.seg hsegx t.seg List.mem_cons_self
        exact h.before hpc hok hagg (mem_bySeq.1 hseg) (.inr ⟨List.mem_singleton.1 haggx, hlt⟩)
          x.slice hin hw
      · -- an earlier slice
        obtain ⟨haggx, hsegx, hslicex, -⟩ := mem_tasksOf.1 hx
        have hlt : x.slice.ordinal < slice.ordinal := by
          have hpair := t.seg.sorted
          rw [← hpreS] at hpair
          exact (List.pairwise_append.1 hpair).2.2 x.slice hslicex slice List.mem_cons_self
        rw [Task.item, haggx, hsegx]
        exact hok.earlier hslices (hsegx ▸ hin) hw hlt
  obtain ⟨-, rfl⟩ := split_eq_of_mem (hsplit ▸ hnodup) (hsplit.symm.trans hcut) hbefore hnew
  exact ⟨done, after, hsplit, hlog, hfold⟩

theorem Resumed.apply (h : Resumed cfg s₀ s) (hinit : cfg.Init s₀) (hb : Base cfg s)
    (hpc : s.pc = .segment t w) {slices : List Slice} (hslices : w.slices = slice :: slices)
    (hno : ¬ Cfg.Skips w.current t.seg slice) {next : WalCursor} {store' : Store}
    (hev : cfg.applyEvents t.agg s.store
      { w.current with seq := t.seg.seq, segmentId := t.seg.segmentId, sliceOrdinal := slice.ordinal }
      slice.batch slice.cdc (Cfg.startRow w.current t.seg slice) = .ok (next, store')) {hold : Nat}
    {finished : Bool} :
    Resumed cfg s₀ { s with
      store := store'
      hold := hold
      log := s.log ++ [⟨t.agg.id, t.seg.seq, slice.ordinal, Cfg.startRow w.current t.seg slice⟩]
      pc := .segment t ⟨slices, next, true, finished⟩ } := by
  have hb' := base_apply hb hpc hslices hno hev hold finished
  have hopen : s.pc ≠ .closed := by simp [hpc]
  have hself : cfg.ensureConfig s.store = s.store :=
    ensureConfig_eq_self _ fun agg hagg => ⟨_, hb.opened hopen agg hagg⟩
  have hself' : cfg.ensureConfig store' = store' :=
    ensureConfig_eq_self _ fun agg hagg => ⟨_, hb'.opened (fun hc => by cases hc) agg hagg⟩
  have hslice : slice ∈ t.seg.slices := by
    have hok := hb.segmentOk hpc
    exact hok.slices.subset (hslices ▸ List.mem_cons_self)
  have hstart := startRow_eq_zero hb hpc hslice hno
  obtain ⟨done, after, hsplit, hlog, hfold⟩ := h.first_task hinit hb hpc hslices hno
  have htask : applyTask cfg s.store ⟨t.agg, t.seg, slice⟩ = .ok store' := by
    have hlt : 0 < slice.batch.length := by
      simp only [Cfg.Skips, not_or, not_not] at hno
      exact List.length_pos_iff.2 hno.2.1.2
    have hcursor := applyEvents_of_rowIndex cfg.toStreamState t.agg s.store
      ⟨t.seg.seq, t.seg.segmentId, slice.ordinal, 0⟩ w.current.rowIndex slice.batch slice.cdc hlt
    rw [hstart] at hev
    rw [applyTask, ← hcursor, hev]
    rfl
  constructor
  case live => exact h.live
  case rows =>
    have := h.rows
    rw [hpc] at this
    exact this
  case whole =>
    have := h.whole (by rw [hpc]; trivial)
    rw [hpc] at this
    exact fun _ => this
  case gone =>
    intro seg hseg hout agg hagg
    exact (h.gone seg hseg hout agg hagg).mono fun x hx => List.mem_append_left _ hx
  case log =>
    refine ⟨done ++ [⟨t.agg, t.seg, slice⟩], after, by rw [hsplit, List.append_assoc]; rfl, ?_, ?_⟩
    · dsimp only
      rw [List.map_append, ← hlog, hstart]
      rfl
    · rw [List.foldlM_append, hfold]
      dsimp only
      rw [hself, hself']
      show List.foldlM (applyTask cfg) s.store [_] = _
      rw [List.foldlM_cons, htask]
      rfl

theorem Resumed.advance (h : Resumed cfg s₀ s) (hinit : cfg.Init s₀) (hb : Base cfg s)
    (hstep : cfg.advance s = some s') : Resumed cfg s₀ s' := by
  unfold Cfg.advance at hstep
  split at hstep
  · cases hstep
    exact h.of_rest id
  · rename_i agg aggs rows hpc
    cases hstep
    have hrun : Cfg.Running s.pc := by rw [hpc]; trivial
    exact h.of_pass hrun (by rw [hpc]; rfl)
  · rename_i agg aggs seg segs rows hpc
    cases hstep
    have hrun : Cfg.Running s.pc := by rw [hpc]; trivial
    simp only [Cfg.beginSegment]
    split
    · exact h.of_pass hrun (by rw [hpc]; rfl)
    · split
      · exact h.of_pass hrun (by rw [hpc]; rfl)
      · exact h.of_rest id
  · rename_i t w hpc
    have hrun : Cfg.Running s.pc := by rw [hpc]; trivial
    split at hstep
    · cases hstep
      exact h.of_pass hrun (by rw [hpc]; rfl)
    · rename_i slice slices hslices
      cases hstep
      unfold Cfg.applySlice
      split
      · exact h.of_pass hrun (by rw [hpc]; rfl)
      · rename_i hno
        dsimp only
        split
        · exact h.of_rest id
        · rename_i next store' hev
          exact h.apply hinit hb hpc hslices hno hev
  · cases hstep

theorem Resumed.step {l : Label} (h : Resumed cfg s₀ s) (hinit : cfg.Init s₀) (hb : Base cfg s)
    (hkeeps : Keeps cfg s l) (hstep : cfg.step s l = some s') : Resumed cfg s₀ s' := by
  have hb' := base_step hb hstep
  cases l with
  | start =>
    simp only [Cfg.step] at hstep
    split at hstep
    · cases hstep
      refine h.of_same rfl ?_ rfl (fun seg hseg => by cases hseg) (fun hrun => by cases hrun)
      exact ensureConfig_eq_self _ fun agg hagg => ⟨_, hb'.opened (fun hc => by cases hc) agg hagg⟩
    · cases hstep
  | poll =>
    simp only [Cfg.step] at hstep
    split at hstep
    · cases hstep
      exact h.of_same rfl rfl rfl (fun seg hseg => .inr (mem_bySeq.1 hseg))
        (fun _ seg hseg => mem_bySeq.2 hseg)
    · cases hstep
  | next => exact h.advance hinit hb hstep
  | fail =>
    obtain ⟨-, rfl⟩ := of_guard hstep
    exact h.of_rest id
  | crash =>
    cases hstep
    exact h.of_rest id
  | publish seg => exact absurd hkeeps id
  | complete seq =>
    cases hstep
    exact h.of_same rfl rfl rfl (fun seg hseg => .inl hseg) h.whole
  | reclaim seq =>
    obtain ⟨-, rfl⟩ := of_guard hstep
    refine ⟨fun seg hseg => h.live seg (List.mem_of_mem_filter hseg), h.rows,
      fun hrun seg hseg => h.whole hrun seg (List.mem_of_mem_filter hseg), ?_, h.log⟩
    intro seg hseg hout agg hagg
    by_cases hlive : seg ∈ s.live
    · have hseq : seg.seq = seq := by
        by_contra hne
        exact hout (List.mem_filter.2 ⟨hlive, by simpa using hne⟩)
      exact consumed_of_applied (fun x hx => (hb.logged x hx).1) (hkeeps agg hagg seg hlive hseq)
    · exact h.gone seg hseg hlive agg hagg
  | unlink seq =>
    obtain ⟨-, rfl⟩ := of_guard hstep
    exact h.of_same rfl rfl rfl (fun seg hseg => .inl hseg) h.whole

theorem resumed_init (hinit : cfg.Init s₀) : Resumed cfg s₀ s₀ where
  live _ hseg := hseg
  rows seg hseg := by
    rw [hinit.pc] at hseg
    cases hseg
  whole hrun := by
    rw [hinit.pc] at hrun
    cases hrun
  gone seg hseg hout := absurd hseg hout
  log := ⟨[], _, rfl, hinit.log, rfl⟩

/-- Every aggregate has applied every Arrow row of the segments of the start. -/
def AllApplied (cfg : Cfg) (s₀ s : St) : Prop :=
  ∀ agg ∈ cfg.aggregates, ∀ seg ∈ s₀.live, ¬ Unapplied s.log agg seg

theorem store_of_allApplied {ls : List Label} (hinit : cfg.Init s₀)
    (hr : (cfg.system.restrict (Keeps cfg)).Run s₀ ls s) (hopen : s.pc ≠ .closed)
    (hall : AllApplied cfg s₀ s) :
    (workList cfg.aggregates (bySeq s₀.live)).foldlM (applyTask cfg) (cfg.ensureConfig s₀.store) =
      .ok s.store := by
  obtain ⟨hb, h⟩ := hr.keeps (P := fun s => Base cfg s ∧ Resumed cfg s₀ s)
    (fun _ _ _ h hstep => ⟨base_step h.1 hstep.2, h.2.step hinit h.1 hstep.1 hstep.2⟩)
    ⟨base_init hinit, resumed_init hinit⟩
  obtain ⟨done, rest, hsplit, hlog, hfold⟩ := h.log
  have hsorted := bySeq_sorted hinit.distinct
  have hnil : rest = [] := by
    rw [List.eq_nil_iff_forall_not_mem]
    intro x hx
    have hxw : x ∈ workList cfg.aggregates (bySeq s₀.live) := hsplit ▸ List.mem_append_right _ hx
    obtain ⟨hagg, hseg, hslice, hwork⟩ := mem_workList.1 hxw
    have hin : x.item ∈ s.log := consumed_of_applied (fun y hy => (hb.logged y hy).1)
      (hall x.agg hagg x.seg (mem_bySeq.1 hseg)) x.slice hslice hwork
    rw [hlog] at hin
    obtain ⟨y, hy, heq⟩ := List.mem_map.1 hin
    have hyw : y ∈ workList cfg.aggregates (bySeq s₀.live) := hsplit ▸ List.mem_append_left _ hy
    have hyx : y = x := task_inj hsorted hyw hxw heq
    have hnodup : (workList cfg.aggregates (bySeq s₀.live)).Nodup := workList_nodup hsorted
    rw [hsplit] at hnodup
    exact List.disjoint_of_nodup_append hnodup hy (hyx ▸ hx)
  have hself : cfg.ensureConfig s.store = s.store :=
    ensureConfig_eq_self _ fun agg hagg => ⟨_, hb.opened hopen agg hagg⟩
  rw [hsplit, hnil, List.append_nil, hfold, hself]

end Step

/-- **Restarts.** Take two runs over the same live segments, the second without a
crash, that reclaim no segment before every aggregate has applied it. Once both
have applied everything, they have stored the same measures, rows, entities,
event ids and cursors. And a batch replayed later, after any others, changes no
measure when its rows carry event ids. -/
theorem restart_same_store (cfg : Cfg) :
    (∀ s₀ s₁ s₂ ls₁ ls₂, cfg.Init s₀ → (cfg.system.restrict (Keeps cfg)).Run s₀ ls₁ s₁ →
      (cfg.system.restrict (Keeps cfg)).Run s₀ ls₂ s₂ → (∀ l ∈ ls₂, l ≠ .crash) →
      s₁.pc ≠ .closed → s₂.pc ≠ .closed → AllApplied cfg s₀ s₁ → AllApplied cfg s₀ s₂ →
      s₁.store = s₂.store) ∧
    ∀ agg store store₁ store₂ cursor next batch cdc startRow,
      cfg.applyEvents agg store cursor batch cdc startRow = .ok (next, store₁) →
      (∀ i, startRow ≤ i → i < batch.length → HasEventId cdc i) →
      Relation.ReflTransGen (Applies cfg.toStreamState) store₁ store₂ →
      ∀ cursor' startRow', startRow ≤ startRow' → ∃ next' store',
        cfg.applyEvents agg store₂ cursor' batch cdc startRow' = .ok (next', store') ∧
        ∀ id key name, cfg.measure store' id key name = cfg.measure store₂ id key name := by
  constructor
  · intro s₀ s₁ s₂ ls₁ ls₂ hinit hr₁ hr₂ _ hopen₁ hopen₂ hall₁ hall₂
    have h₁ := store_of_allApplied hinit hr₁ hopen₁ hall₁
    have h₂ := store_of_allApplied hinit hr₂ hopen₂ hall₂
    exact Except.ok.inj (h₁.symm.trans h₂)
  · intro agg store store₁ store₂ cursor next batch cdc startRow h hids hlater cursor' startRow' hstart
    exact replay_measure cfg.toStreamState agg h hids hlater cursor' hstart

/-! ## A crash between two aggregates -/

def bothAggregates : List Label :=
  [.start, .poll, .next, .next, .next, .next, .next, .next, .next]

def crashedAfterFirst : List Label :=
  [.start, .poll, .next, .next, .crash, .start, .poll, .next, .next, .next, .next, .next, .next, .next]

def afterBoth : St := (exec twoTotals.step oneSegment bothAggregates).get (by decide +kernel)

def afterCrash : St := (exec twoTotals.step oneSegment crashedAfterFirst).get (by decide +kernel)

theorem allApplied_of_items {s : St} (h : ∀ agg ∈ twoTotals.aggregates, ⟨agg.id, 1, 0, 0⟩ ∈ s.log) :
    AllApplied twoTotals oneSegment s := by
  intro agg hagg seg hseg hun
  rw [List.mem_singleton.1 hseg] at hun
  obtain ⟨slice, hslice, -, row, -, hno⟩ := hun
  obtain rfl := List.mem_singleton.1 hslice
  exact hno ⟨_, h agg hagg, rfl, rfl, rfl, Nat.zero_le _⟩

theorem restart_same_invoices : afterCrash.store = afterBoth.store ∧
    twoTotals.measure afterCrash.store ['u'] ['A'] ['s'] = 10 := by
  have hkeeps : ∀ ls : List Label, (∀ l ∈ ls, l = .start ∨ l = .poll ∨ l = .next ∨ l = .crash) →
      ∀ l ∈ ls, ∀ s, Keeps twoTotals s l := by
    intro ls hls l hl s
    rcases hls l hl with rfl | rfl | rfl | rfl <;> trivial
  have hcrash : (twoTotals.system.restrict (Keeps twoTotals)).Run oneSegment crashedAfterFirst
      afterCrash :=
    (run_of_exec (Option.some_get _).symm).restrict (hkeeps _ (by simp [crashedAfterFirst]))
  have hboth : (twoTotals.system.restrict (Keeps twoTotals)).Run oneSegment bothAggregates afterBoth :=
    (run_of_exec (Option.some_get _).symm).restrict (hkeeps _ (by simp [bothAggregates]))
  refine ⟨?_, by decide +kernel⟩
  exact (restart_same_store twoTotals).1 oneSegment afterCrash afterBoth crashedAfterFirst bothAggregates
    (oneSegment_init twoTotals rfl) hcrash hboth (by simp [bothAggregates])
    (ne_closed_of (by decide +kernel)) (ne_closed_of (by decide +kernel))
    (allApplied_of_items (by decide +kernel)) (allApplied_of_items (by decide +kernel))

/-- The first aggregate consumes the segment, which is then reclaimed; the second
finds no payload. -/
def reclaimedAfterFirst : List Label :=
  [.start, .poll, .next, .next, .next, .reclaim 1, .unlink 1, .next, .next]

def afterReclaim : St := (exec twoTotals.step oneSegment reclaimedAfterFirst).get (by decide +kernel)

/-- Without a crash the second aggregate never sees the invoice; with a crash
before the reclaim it does. -/
theorem reclaimed_before_second : twoTotals.Init oneSegment ∧
    twoTotals.system.Run oneSegment crashedAfterFirst afterCrash ∧ afterCrash.pc ≠ .closed ∧
    AllApplied twoTotals oneSegment afterCrash ∧
    twoTotals.system.Run oneSegment reclaimedAfterFirst afterReclaim ∧
    (∀ l ∈ reclaimedAfterFirst, l ≠ .crash) ∧ afterReclaim.pc ≠ .closed ∧ afterReclaim.live = [] ∧
    twoTotals.measure afterCrash.store ['u'] ['A'] ['s'] = 10 ∧
    twoTotals.measure afterReclaim.store ['u'] ['A'] ['s'] = 0 :=
  ⟨oneSegment_init twoTotals rfl, run_of_exec (Option.some_get _).symm,
    ne_closed_of (by decide +kernel), allApplied_of_items (by decide +kernel),
    run_of_exec (Option.some_get _).symm, by simp [reclaimedAfterFirst],
    ne_closed_of (by decide +kernel), rfl, by decide +kernel, by decide +kernel⟩

/-! ## Every slice once -/

section Once
variable {cfg : Cfg} {s s' : St}

theorem nodup_advance (h : Base cfg s) (hlog : s.log.Nodup) (hstep : cfg.advance s = some s') :
    s'.log.Nodup := by
  unfold Cfg.advance at hstep
  split at hstep
  · cases hstep
    exact hlog
  · cases hstep
    exact hlog
  · cases hstep
    unfold Cfg.beginSegment
    dsimp only
    split_ifs <;> exact hlog
  · rename_i t w hpc
    split at hstep <;> cases hstep
    · exact hlog
    · rename_i slice slices hslices
      have hslice := (h.segmentOk hpc).slices.subset (hslices ▸ List.mem_cons_self)
      unfold Cfg.applySlice
      split
      · exact hlog
      · rename_i hno
        rw [startRow_eq_zero h hpc hslice hno]
        dsimp only
        split
        · exact hlog
        · exact List.concat_eq_append ▸ hlog.concat (not_applied_of_not_skips h hpc hslice hno)
  · cases hstep

theorem nodup_step {l : Label} (h : Base cfg s) (hlog : s.log.Nodup) (hstep : cfg.step s l = some s') :
    s'.log.Nodup := by
  cases l with
  | next => exact nodup_advance h hlog hstep
  | _ =>
    simp only [Cfg.step] at hstep
    (repeat' split at hstep) <;> cases hstep
    all_goals exact hlog

end Once

/-- **Every slice once.** In every run, with errors, crashes and restarts anywhere,
no slice is applied twice for an aggregate or from a row in its middle, and of the
live segments those slices are applied that stand at or before the stored cursor. -/
theorem slice_applied_once (cfg : Cfg) (s : St) (h : cfg.system.Reachable s) :
    s.log.Nodup ∧ (∀ x ∈ s.log, x.startRow = 0) ∧
      ∀ agg ∈ cfg.aggregates, ∀ seg ∈ s.live, ∀ slice ∈ seg.slices, slice.Work →
        (item agg seg slice ∈ s.log ↔ Reached (kept cfg.toStreamState s.store agg.id) seg slice) := by
  have hrun : cfg.system.Inductive fun s => Base cfg s ∧ s.log.Nodup :=
    ⟨fun _ hi => ⟨base_init hi, hi.log ▸ List.nodup_nil⟩,
      fun _ _ _ hb hs => ⟨base_step hb.1 hs, nodup_step hb.1 hb.2 hs⟩⟩
  obtain ⟨hb, hlog⟩ := hrun.reachable s h
  exact ⟨hlog, fun x hx => (hb.logged x hx).1, fun agg hagg seg hseg => hb.reached agg hagg seg (.inl hseg)⟩

theorem slice_applied_once_crash : afterCrash.log.Nodup ∧ afterCrash.log.length = 2 :=
  ⟨(slice_applied_once twoTotals afterCrash
    (reachable_of_exec (oneSegment_init twoTotals rfl) (Option.some_get _).symm)).1, by decide +kernel⟩

end Skippr.L8.Stream
