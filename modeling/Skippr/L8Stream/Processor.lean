import Skippr.Core.LTS
import Skippr.L8Stream.StreamState

/-!
# The stream processor as a state machine (src/processor/mod.rs)

`process_available` takes the live segments in the order of their seqs and runs
every aggregate over them, one aggregate after the other. `process_segment`
applies the Arrow slices of a segment from the aggregate's stored cursor on, then
writes the reclaim hold, one number for all aggregates, and reclaims the segments
below it whose slices are all compacted.

A step is one turn of these loops. Segments are published, compacted and
reclaimed between the steps, and the process may crash between any two of them;
what survives is the catalog, the payloads and the store.
-/
namespace Skippr.L8.Stream

/-! ## Segments and positions -/

/-- An entry of a segment's index, with what its bytes decode to: the rows of its
record batches and its part metadata. -/
structure Slice where
  ordinal : Nat
  /-- `entry.codec == PART_CODEC_ARROW` -/
  arrow : Bool
  batch : List (Except StreamError Row)
  cdc : Option (List WalRowMeta)

def Slice.Work (slice : Slice) : Prop := slice.arrow = true ∧ slice.batch ≠ []

instance (slice : Slice) : Decidable slice.Work :=
  inferInstanceAs (Decidable (_ ∧ _))

structure Segment where
  seq : Nat
  segmentId : Text
  slices : List Slice
  sorted : slices.Pairwise fun a b => a.ordinal < b.ordinal

/-- A slice applied for an aggregate, from a row on. -/
structure Item where
  agg : Text
  seq : Nat
  ordinal : Nat
  startRow : Nat
deriving DecidableEq, Repr

def item (agg : TransformAggregate) (seg : Segment) (slice : Slice) : Item :=
  ⟨agg.id, seg.seq, slice.ordinal, 0⟩

/-- The configuration: ids of aggregates are distinct, and segment ids are not
reused (`idOf` names the segment of a seq; the default cursor is at none). -/
structure Cfg extends StreamState where
  idOf : Nat → Text
  idOf_zero : idOf 0 = []
  idOf_inj : ∀ a b, idOf a = idOf b → a = b
  ids_nodup : (aggregates.map (·.id)).Nodup

/-! ## The machine -/

/-- The two loops of `process_available`, inside the inner one. -/
structure Turn where
  agg : TransformAggregate
  aggs : List TransformAggregate
  seg : Segment
  segs : List Segment
  rows : List Segment

structure Local where
  slices : List Slice
  current : WalCursor
  processed : Bool
  finishedLast : Bool

inductive Pc
  /-- the state is not open: before the start, or after a crash -/
  | closed
  /-- `run_processor_loop` returned an error -/
  | stopped
  | idle
  | pass (aggs : List TransformAggregate) (segs rows : List Segment)
  | segment (t : Turn) (w : Local)

structure St where
  live : List Segment
  /-- the seqs of the segments all of whose slices are done -/
  done : List Nat
  /-- the seqs of the segments whose payload is there -/
  payloads : List Nat
  nextSeq : Nat
  store : Store
  /-- `MIN_UNCONSUMED_SEQ` -/
  hold : Nat
  pc : Pc
  log : List Item

def u64Max : Nat := 2 ^ 64 - 1

inductive Label
  | start
  | poll
  | next
  | fail
  | crash
  | publish (seg : Segment)
  | complete (seq : Nat)
  | reclaim (seq : Nat)
  | unlink (seq : Nat)

def bySeq (live : List Segment) : List Segment := live.insertionSort fun a b => a.seq ≤ b.seq

namespace Cfg
variable (cfg : Cfg) (s : St)

def cursor (store : Store) (id : Text) : WalCursor :=
  ((cfg.loadMeta store id).map (·.cursor)).getD .zero

/-- mirrors processor/mod.rs:855-873 -/
def startCursor (cursor : WalCursor) (seg : Segment) : WalCursor :=
  if cursor.segmentId = seg.segmentId then cursor
  else if cursor.seq < seg.seq then ⟨seg.seq, seg.segmentId, 0, 0⟩
  else cursor

/-- mirrors processor/mod.rs:773-782 -/
def alreadyAppliedSlice (cursor : WalCursor) (segmentId : Text) (ordinal batchRows : Nat) : Bool :=
  cursor.segmentId = segmentId ∧ cursor.sliceOrdinal = ordinal ∧ batchRows ≤ cursor.rowIndex

/-- mirrors processor/mod.rs:903-909 -/
def startRow (current : WalCursor) (seg : Segment) (slice : Slice) : Nat :=
  if current.segmentId = seg.segmentId ∧ current.sliceOrdinal = slice.ordinal then current.rowIndex
  else 0

/-- The slice is passed over. mirrors processor/mod.rs:875-880, 889-891, 910-919 -/
def Skips (current : WalCursor) (seg : Segment) (slice : Slice) : Prop :=
  slice.ordinal < current.sliceOrdinal ∨ ¬ slice.Work ∨
    alreadyAppliedSlice current seg.segmentId slice.ordinal slice.batch.length = true ∨
    slice.batch.length ≤ startRow current seg slice

instance (current : WalCursor) (seg : Segment) (slice : Slice) : Decidable (Skips current seg slice) :=
  inferInstanceAs (Decidable (_ ∨ _))

/-- The start of `process_segment`, up to the read of the payload.
mirrors processor/mod.rs:840-873 -/
def beginSegment (t : Turn) : St :=
  let cursor := cfg.cursor s.store t.agg.id
  if t.seg.seq < cursor.seq then { s with pc := .pass (t.agg :: t.aggs) t.segs t.rows }
  else if t.seg.seq ∈ s.payloads then
    { s with pc := .segment t ⟨t.seg.slices, startCursor cursor t.seg, false, false⟩ }
  else { s with pc := .stopped }

/-- One turn of the loop of `process_segment`. mirrors processor/mod.rs:874-933 -/
def applySlice (t : Turn) (w : Local) (slice : Slice) (slices : List Slice) : St :=
  if Skips w.current t.seg slice then { s with pc := .segment t { w with slices := slices } }
  else
    let start := startRow w.current t.seg slice
    match cfg.applyEvents t.agg s.store
        { w.current with seq := t.seg.seq, segmentId := t.seg.segmentId, sliceOrdinal := slice.ordinal }
        slice.batch slice.cdc start with
    | .error _ => { s with pc := .stopped }
    | .ok (current, store) =>
      { s with
        store := store
        hold := current.seq
        log := s.log ++ [⟨t.agg.id, t.seg.seq, slice.ordinal, start⟩]
        pc := .segment t ⟨slices, current, true,
          t.seg.slices.getLast?.map (·.ordinal) = some slice.ordinal ∧
            slice.batch.length ≤ current.rowIndex⟩ }

/-- The end of `process_segment`. mirrors processor/mod.rs:934-945 -/
def endSegment (t : Turn) (w : Local) : St :=
  { s with
    hold := if w.processed then if w.finishedLast then min (t.seg.seq + 1) u64Max else t.seg.seq
      else s.hold
    pc := .pass (t.agg :: t.aggs) t.segs t.rows }

def advance : Option St :=
  match s.pc with
  | .pass [] _ _ => some { s with pc := .idle }
  | .pass (_ :: aggs) [] rows => some { s with pc := .pass aggs rows rows }
  | .pass (agg :: aggs) (seg :: segs) rows => some (cfg.beginSegment s ⟨agg, aggs, seg, segs, rows⟩)
  | .segment t w =>
    match w.slices with
    | [] => some (endSegment s t w)
    | slice :: slices => some (cfg.applySlice s t w slice slices)
  | _ => none

def Running : Pc → Prop
  | .pass _ _ _ | .segment _ _ => True
  | _ => False

instance : ∀ pc, Decidable (Running pc)
  | .closed => .isFalse id
  | .stopped => .isFalse id
  | .idle => .isFalse id
  | .pass _ _ _ => .isTrue trivial
  | .segment _ _ => .isTrue trivial

def step (l : Label) : Option St :=
  match l with
  | .start =>
    -- `StreamState::open`
    match s.pc with
    | .closed =>
      let store := cfg.ensureConfig s.store
      some { s with store := store, hold := (cfg.minCursor store).getD s.hold, pc := .idle }
    | _ => none
  | .poll =>
    match s.pc with
    | .idle => some { s with pc := .pass cfg.aggregates (bySeq s.live) (bySeq s.live) }
    | _ => none
  | .next => cfg.advance s
  | .fail => if Running s.pc then some { s with pc := .stopped } else none
  | .crash => some { s with hold := u64Max, pc := .closed }
  | .publish seg =>
    if s.nextSeq ≤ seg.seq ∧ seg.segmentId = cfg.idOf seg.seq then
      some { s with
        live := s.live ++ [seg]
        payloads := seg.seq :: s.payloads
        nextSeq := seg.seq + 1 }
    else none
  | .complete seq => some { s with done := seq :: s.done }
  | .reclaim seq =>
    -- the deletion of the row by `complete_slices_and_reclaim`
    if seq ∈ s.done ∧ seq < s.hold then
      some { s with live := s.live.filter fun seg => seg.seq ≠ seq }
    else none
  | .unlink seq =>
    -- `after_reclaim`
    if ∀ seg ∈ s.live, seg.seq ≠ seq then some { s with payloads := s.payloads.filter (· ≠ seq) }
    else none

structure Init (s : St) : Prop where
  pc : s.pc = .closed
  log : s.log = []
  metas : ∀ agg ∈ cfg.aggregates, ∀ m, cfg.loadMeta s.store agg.id = some m →
    m.configHash ≠ cfg.configHash
  live : ∀ seg ∈ s.live, 0 < seg.seq ∧ seg.seq < s.nextSeq ∧ seg.segmentId = cfg.idOf seg.seq
  distinct : (s.live.map (·.seq)).Nodup
  next : 0 < s.nextSeq

def system : LTS St Label := LTS.ofFn cfg.Init cfg.step

end Cfg

/-! ## The start of a processor -/

section Start
variable (st : StreamState)

/-- The cursor a start continues from: none of another configuration. -/
def kept (store : Store) (id : Text) : WalCursor :=
  match st.loadMeta store id with
  | some m => if m.configHash = st.configHash then m.cursor else .zero
  | none => .zero

theorem loadMeta_writeMeta (store : Store) (id id' : Text) (m : ProcessorMeta) :
    st.loadMeta (st.writeMeta store id m) id' = if id' = id then some m else st.loadMeta store id' := by
  unfold StreamState.loadMeta StreamState.writeMeta
  rw [Map.get_insert]
  simp only [metaKey_inj]

theorem loadMeta_ensureAggregate (store : Store) (id id' : Text) :
    st.loadMeta (st.ensureAggregate store id) id' =
      if id' = id then some ⟨kept st store id, st.configHash⟩ else st.loadMeta store id' := by
  cases hm : st.loadMeta store id with
  | none =>
    simp only [StreamState.ensureAggregate, kept, hm, loadMeta_writeMeta]
  | some m =>
    by_cases hhash : m.configHash = st.configHash
    · simp only [StreamState.ensureAggregate, kept, hm, if_pos hhash]
      split
      · rename_i hid
        rw [hid, hm, ← hhash]
      · rfl
    · simp only [StreamState.ensureAggregate, kept, hm, if_neg hhash, StreamState.rebuild,
        loadMeta_writeMeta]
      rfl

theorem kept_ensureAggregate (store : Store) (id id' : Text) :
    kept st (st.ensureAggregate store id) id' = kept st store id' := by
  rw [kept, loadMeta_ensureAggregate]
  split
  · rename_i m hm
    split at hm
    · rename_i hid
      cases hm
      rw [if_pos rfl, hid]
    · rw [kept, hm]
  · rename_i hm
    split at hm
    · cases hm
    · rw [kept, hm]

theorem loadMeta_ensureConfig (store : Store) {agg : TransformAggregate} (hagg : agg ∈ st.aggregates) :
    st.loadMeta (st.ensureConfig store) agg.id = some ⟨kept st store agg.id, st.configHash⟩ := by
  unfold StreamState.ensureConfig
  -- over the aggregates so far: those passed are as stated, and `kept` has not changed
  have hloop : ∀ (aggs : List TransformAggregate) (store' : Store),
      (∀ id, kept st store' id = kept st store id) →
      (agg ∈ aggs ∨ st.loadMeta store' agg.id = some ⟨kept st store agg.id, st.configHash⟩) →
      st.loadMeta (aggs.foldl (fun store agg => st.ensureAggregate store agg.id) store') agg.id =
        some ⟨kept st store agg.id, st.configHash⟩ := by
    intro aggs
    induction aggs with
    | nil =>
      intro store' _ h
      rcases h with h | h
      · cases h
      · exact h
    | cons a aggs ih =>
      intro store' hkept h
      refine ih _ (fun id => (kept_ensureAggregate st store' a.id id).trans (hkept id)) ?_
      rw [loadMeta_ensureAggregate, hkept]
      by_cases hid : agg.id = a.id
      · rw [if_pos hid, hid]
        exact .inr rfl
      · rw [if_neg hid]
        refine h.imp_left fun hmem => ?_
        rcases List.mem_cons.1 hmem with rfl | hmem
        · exact absurd rfl hid
        · exact hmem
  exact hloop _ store (fun _ => rfl) (.inl hagg)

end Start

/-! ## The invariant of every run -/

/-- All the rows of the segment are applied for the aggregate. -/
def Consumed (log : List Item) (agg : TransformAggregate) (seg : Segment) : Prop :=
  ∀ slice ∈ seg.slices, slice.Work → item agg seg slice ∈ log

theorem Consumed.mono {log log' : List Item} (hsub : ∀ x ∈ log, x ∈ log') {agg : TransformAggregate}
    {seg : Segment} (h : Consumed log agg seg) : Consumed log' agg seg :=
  fun slice hslice hwork => hsub _ (h slice hslice hwork)

def Reached (c : WalCursor) (seg : Segment) (slice : Slice) : Prop :=
  seg.seq < c.seq ∨ seg.seq = c.seq ∧ slice.ordinal ≤ c.sliceOrdinal

def snapshot : Pc → List Segment
  | .pass _ _ rows => rows
  | .segment t _ => t.rows
  | _ => []

def Known (s : St) (seg : Segment) : Prop := seg ∈ s.live ∨ seg ∈ snapshot s.pc

/-- The loops of `process_available`, before a turn: `segs` are left for the
first of `aggs`, all of `rows` for the others. -/
structure PassOk (cfg : Cfg) (live : List Segment) (log : List Item) (aggs : List TransformAggregate)
    (segs rows : List Segment) : Prop where
  sorted : rows.Pairwise fun a b => a.seq < b.seq
  segsIn : segs <:+ rows
  aggsIn : aggs <:+ cfg.aggregates
  newer : ∀ seg ∈ live, seg ∉ rows → ∀ r ∈ rows, r.seq < seg.seq
  finished : ∀ agg ∈ cfg.aggregates, agg ∉ aggs → ∀ seg ∈ rows, Consumed log agg seg
  passed : ∀ agg, aggs.head? = some agg → ∀ seg ∈ rows, seg ∉ segs → Consumed log agg seg

structure SegmentOk (cfg : Cfg) (live : List Segment) (log : List Item) (store : Store) (t : Turn)
    (w : Local) : Prop where
  pass : PassOk cfg live log (t.agg :: t.aggs) (t.seg :: t.segs) t.rows
  slices : w.slices <:+ t.seg.slices
  applied : ∀ slice ∈ t.seg.slices, slice ∉ w.slices → slice.Work → item t.agg t.seg slice ∈ log
  /-- the stored cursor, or the start of the segment when that is before it -/
  current : w.current = kept cfg.toStreamState store t.agg.id ∧ w.current.seq = t.seg.seq ∨
    (kept cfg.toStreamState store t.agg.id).seq < t.seg.seq ∧
      w.current = ⟨t.seg.seq, t.seg.segmentId, 0, 0⟩

def PcOk (cfg : Cfg) (live : List Segment) (log : List Item) (store : Store) : Pc → Prop
  | .pass aggs segs rows => PassOk cfg live log aggs segs rows
  | .segment t w => SegmentOk cfg live log store t w
  | _ => True

structure Base (cfg : Cfg) (s : St) : Prop where
  known : ∀ seg, Known s seg → 0 < seg.seq ∧ seg.seq < s.nextSeq ∧ seg.segmentId = cfg.idOf seg.seq
  unique : ∀ a b, Known s a → Known s b → a.seq = b.seq → a = b
  distinct : (s.live.map (·.seq)).Nodup
  next : 0 < s.nextSeq
  opened : s.pc ≠ .closed → ∀ agg ∈ cfg.aggregates,
    cfg.loadMeta s.store agg.id = some ⟨kept cfg.toStreamState s.store agg.id, cfg.configHash⟩
  cursors : ∀ agg ∈ cfg.aggregates,
    (kept cfg.toStreamState s.store agg.id).segmentId =
        cfg.idOf (kept cfg.toStreamState s.store agg.id).seq ∧
      (kept cfg.toStreamState s.store agg.id).seq < s.nextSeq
  /-- a cursor in a slice is after its last row -/
  rows : ∀ agg ∈ cfg.aggregates, ∀ seg, Known s seg → ∀ slice ∈ seg.slices, slice.Work →
    seg.seq = (kept cfg.toStreamState s.store agg.id).seq →
    slice.ordinal = (kept cfg.toStreamState s.store agg.id).sliceOrdinal →
    slice.batch.length ≤ (kept cfg.toStreamState s.store agg.id).rowIndex
  /-- what is applied is what stands at or before the cursor -/
  reached : ∀ agg ∈ cfg.aggregates, ∀ seg, Known s seg → ∀ slice ∈ seg.slices, slice.Work →
    (item agg seg slice ∈ s.log ↔ Reached (kept cfg.toStreamState s.store agg.id) seg slice)
  logged : ∀ x ∈ s.log, x.startRow = 0 ∧ x.seq < s.nextSeq
  pc : PcOk cfg s.live s.log s.store s.pc

/-! ## Steps that apply nothing -/

section Steps
variable {cfg : Cfg} {s s' : St}

theorem Base.of_kept (h : Base cfg s) (hkept : ∀ agg ∈ cfg.aggregates,
      kept cfg.toStreamState s'.store agg.id = kept cfg.toStreamState s.store agg.id)
    (hlog : s'.log = s.log) (hnext : s'.nextSeq = s.nextSeq) (hlive : s'.live.Sublist s.live)
    (hknown : ∀ seg, Known s' seg → Known s seg)
    (hopened : s'.pc ≠ .closed → ∀ agg ∈ cfg.aggregates, cfg.loadMeta s'.store agg.id =
      some ⟨kept cfg.toStreamState s.store agg.id, cfg.configHash⟩)
    (hpc : PcOk cfg s'.live s'.log s'.store s'.pc) : Base cfg s' where
  known seg hseg := hnext ▸ h.known seg (hknown seg hseg)
  unique a b ha hb := h.unique a b (hknown a ha) (hknown b hb)
  distinct := h.distinct.sublist (hlive.map _)
  next := hnext ▸ h.next
  opened hne agg hagg := by
    rw [hkept agg hagg]
    exact hopened hne agg hagg
  cursors agg hagg := by
    rw [hkept agg hagg, hnext]
    exact h.cursors agg hagg
  rows agg hagg seg hseg := by
    rw [hkept agg hagg]
    exact h.rows agg hagg seg (hknown seg hseg)
  reached agg hagg seg hseg := by
    rw [hkept agg hagg, hlog]
    exact h.reached agg hagg seg (hknown seg hseg)
  logged := by
    rw [hlog, hnext]
    exact h.logged
  pc := hpc

theorem Base.of_known (h : Base cfg s) (hstore : s'.store = s.store) (hlog : s'.log = s.log)
    (hnext : s'.nextSeq = s.nextSeq) (hlive : s'.live.Sublist s.live)
    (hknown : ∀ seg, Known s' seg → Known s seg) (hopen : s'.pc ≠ .closed → s.pc ≠ .closed)
    (hpc : PcOk cfg s'.live s'.log s'.store s'.pc) : Base cfg s' :=
  h.of_kept (fun _ _ => by rw [hstore]) hlog hnext hlive hknown
    (fun hne => hstore ▸ h.opened (hopen hne)) hpc

theorem Base.of_rest (h : Base cfg s) {pc : Pc} {hold : Nat} (hrows : snapshot pc = [])
    (hopen : pc ≠ .closed → s.pc ≠ .closed) (hpc : PcOk cfg s.live s.log s.store pc) :
    Base cfg { s with pc := pc, hold := hold } := by
  refine h.of_known rfl rfl rfl (List.Sublist.refl _) (fun seg hseg => .inl ?_) hopen hpc
  simpa [Known, hrows] using hseg

variable {live segs rows : List Segment} {log : List Item} {aggs : List TransformAggregate}
  {seg : Segment} {agg : TransformAggregate} {t : Turn} {w : Local} {slice : Slice}

theorem PassOk.of_live {live' : List Segment} (h : PassOk cfg live log aggs segs rows)
    (hnewer : ∀ seg ∈ live', seg ∉ rows → ∀ r ∈ rows, r.seq < seg.seq) :
    PassOk cfg live' log aggs segs rows :=
  { h with newer := hnewer }

theorem PcOk.of_live {live' : List Segment} {store : Store} {pc : Pc}
    (h : PcOk cfg live log store pc)
    (hnewer : ∀ seg ∈ live', seg ∈ live ∨ ∀ r ∈ snapshot pc, r.seq < seg.seq) :
    PcOk cfg live' log store pc := by
  have hpass : ∀ {aggs segs}, PassOk cfg live log aggs segs (snapshot pc) →
      PassOk cfg live' log aggs segs (snapshot pc) := by
    intro aggs segs hp
    refine hp.of_live fun seg hseg hrows => ?_
    rcases hnewer seg hseg with hold | hnew
    · exact hp.newer seg hold hrows
    · exact hnew
  cases pc with
  | pass aggs segs rows => exact hpass h
  | segment t w => exact { h with pass := hpass h.pass }
  | closed | stopped | idle => trivial

theorem bySeq_sorted (h : (live.map (·.seq)).Nodup) :
    (bySeq live).Pairwise fun a b => a.seq < b.seq := by
  have hle : (bySeq live).Pairwise fun a b => a.seq ≤ b.seq := by
    have : Std.Total fun a b : Segment => a.seq ≤ b.seq := ⟨fun a b => le_total a.seq b.seq⟩
    have : IsTrans Segment fun a b => a.seq ≤ b.seq := ⟨fun _ _ _ => le_trans⟩
    exact List.pairwise_insertionSort _ _
  have hne : (bySeq live).Pairwise fun a b => a.seq ≠ b.seq :=
    List.Pairwise.perm (List.pairwise_map.1 h) (List.perm_insertionSort _ _).symm Ne.symm
  exact (hle.and hne).imp fun h => lt_of_le_of_ne h.1 h.2

theorem mem_bySeq : seg ∈ bySeq live ↔ seg ∈ live :=
  List.mem_insertionSort _

theorem base_poll (h : Base cfg s) (hpc : s.pc = .idle) :
    Base cfg { s with pc := .pass cfg.aggregates (bySeq s.live) (bySeq s.live) } := by
  refine h.of_known rfl rfl rfl (List.Sublist.refl _) ?_ (fun _ hc => by rw [hpc] at hc; cases hc) ?_
  · intro seg hseg
    rcases hseg with hseg | hseg
    · exact .inl hseg
    · exact .inl (mem_bySeq.1 hseg)
  · show PassOk _ _ _ _ _ _
    exact {
      sorted := bySeq_sorted h.distinct
      segsIn := List.suffix_refl _
      aggsIn := List.suffix_refl _
      newer := fun seg hseg hrows => absurd (mem_bySeq.2 hseg) hrows
      finished := fun agg hagg hno => absurd hagg hno
      passed := fun agg _ seg hseg hno => absurd hseg hno }

theorem Base.of_pass (h : Base cfg s) (pc : Pc) (hrows : snapshot pc = snapshot s.pc)
    (hopen : s.pc ≠ .closed) (hpc : PcOk cfg s.live s.log s.store pc) (hold : Nat) :
    Base cfg { s with pc := pc, hold := hold } := by
  refine h.of_known rfl rfl rfl (List.Sublist.refl _) ?_ (fun _ => hopen) hpc
  intro seg hseg
  unfold Known at hseg ⊢
  rw [← hrows]
  exact hseg

theorem pass_nextAggregate (h : PassOk cfg live log (agg :: aggs) [] rows) :
    PassOk cfg live log aggs rows rows where
  sorted := h.sorted
  segsIn := List.suffix_refl _
  aggsIn := (List.suffix_cons agg aggs).trans h.aggsIn
  newer := h.newer
  finished a ha hno seg hseg := by
    by_cases heq : a = agg
    · subst heq
      exact h.passed a rfl seg hseg List.not_mem_nil
    · exact h.finished a ha (List.not_mem_cons_of_ne_of_not_mem heq hno) seg hseg
  passed a _ seg hseg hno := absurd hseg hno

theorem pass_nextSegment (h : PassOk cfg live log (agg :: aggs) (seg :: segs) rows)
    (hseg : Consumed log agg seg) :
    PassOk cfg live log (agg :: aggs) segs rows := { h with
  segsIn := (List.suffix_cons seg segs).trans h.segsIn
  passed a ha t ht hno := by
    obtain rfl : agg = a := Option.some.inj ha
    by_cases heq : t = seg
    · subst heq
      exact hseg
    · exact h.passed agg rfl t ht (List.not_mem_cons_of_ne_of_not_mem heq hno) }

theorem PassOk.agg_mem (h : PassOk cfg live log (agg :: aggs) segs rows) : agg ∈ cfg.aggregates :=
  h.aggsIn.subset List.mem_cons_self

theorem base_beginSegment (h : Base cfg s)
    (hpc : s.pc = .pass (t.agg :: t.aggs) (t.seg :: t.segs) t.rows) :
    Base cfg (cfg.beginSegment s t) := by
  have hok : PassOk cfg s.live s.log (t.agg :: t.aggs) (t.seg :: t.segs) t.rows := by
    have := h.pc
    rw [hpc] at this
    exact this
  have hopen : s.pc ≠ .closed := by simp [hpc]
  have hknown : Known s t.seg := by
    unfold Known
    rw [hpc]
    exact .inr (hok.segsIn.subset List.mem_cons_self)
  have hcursor : cfg.cursor s.store t.agg.id = kept cfg.toStreamState s.store t.agg.id := by
    rw [Cfg.cursor, h.opened hopen _ hok.agg_mem]
    rfl
  simp only [Cfg.beginSegment, hcursor]
  split
  · rename_i hlt
    refine h.of_pass (.pass (t.agg :: t.aggs) t.segs t.rows) (by rw [hpc]; rfl) hopen
      (pass_nextSegment hok ?_) s.hold
    intro slice hslice hwork
    exact (h.reached t.agg hok.agg_mem t.seg hknown slice hslice hwork).2 (.inl hlt)
  · rename_i hle
    split
    · refine h.of_pass (.segment t ⟨t.seg.slices, _, false, false⟩) (by rw [hpc]; rfl) hopen
        ⟨hok, List.suffix_refl _, ?_, ?_⟩ s.hold
      · intro slice hslice hno
        exact absurd hslice hno
      · -- the ids are equal exactly when the seqs are
        have hcid := (h.cursors t.agg hok.agg_mem).1
        have hsid := (h.known t.seg hknown).2.2
        by_cases hid : (kept cfg.toStreamState s.store t.agg.id).segmentId = t.seg.segmentId
        · refine .inl ⟨by rw [Cfg.startCursor, if_pos hid], ?_⟩
          rw [Cfg.startCursor, if_pos hid]
          exact cfg.idOf_inj _ _ (hcid.symm.trans (hid.trans hsid))
        · have hne : (kept cfg.toStreamState s.store t.agg.id).seq ≠ t.seg.seq := by
            intro heq
            exact hid (hcid.trans (heq ▸ hsid.symm))
          have hlt : (kept cfg.toStreamState s.store t.agg.id).seq < t.seg.seq := by omega
          exact .inr ⟨hlt, by rw [Cfg.startCursor, if_neg hid, if_pos hlt]⟩
    · exact h.of_rest rfl (fun _ => hopen) trivial

/-! ## The slices of a segment -/

theorem Base.segmentOk (h : Base cfg s) (hpc : s.pc = .segment t w) :
    SegmentOk cfg s.live s.log s.store t w := by
  have hok := h.pc
  rw [hpc] at hok
  exact hok

theorem known_of_turn (hpc : s.pc = .segment t w) (hseg : seg ∈ s.live ∨ seg ∈ t.rows) : Known s seg := by
  unfold Known
  rw [hpc]
  exact hseg

theorem Base.known_segment (h : Base cfg s) (hpc : s.pc = .segment t w) : Known s t.seg :=
  known_of_turn hpc (.inr ((h.segmentOk hpc).pass.segsIn.subset List.mem_cons_self))

theorem applied_of_skips (h : Base cfg s) (hpc : s.pc = .segment t w)
    (hslice : slice ∈ t.seg.slices) (hwork : slice.Work) (hskip : Cfg.Skips w.current t.seg slice) :
    item t.agg t.seg slice ∈ s.log := by
  have hok := h.segmentOk hpc
  have hknown := h.known_segment hpc
  have hpos : 0 < slice.batch.length := List.length_pos_iff.2 hwork.2
  rw [h.reached t.agg hok.pass.agg_mem t.seg hknown slice hslice hwork]
  rcases hok.current with ⟨hcur, hseq⟩ | ⟨-, hcur⟩
  · rw [← hcur]
    refine .inr ⟨hseq.symm, ?_⟩
    rcases hskip with hlt | hno | happ | hrow
    · omega
    · exact absurd hwork hno
    · simp only [Cfg.alreadyAppliedSlice, decide_eq_true_eq] at happ
      omega
    · unfold Cfg.startRow at hrow
      split at hrow
      · omega
      · omega
  · rw [hcur] at hskip
    rcases hskip with hlt | hno | happ | hrow
    · exact absurd hlt (Nat.not_lt_zero _)
    · exact absurd hwork hno
    · simp only [Cfg.alreadyAppliedSlice, decide_eq_true_eq] at happ
      omega
    · simp only [Cfg.startRow] at hrow
      split at hrow
      · omega
      · omega

theorem startRow_eq_zero (h : Base cfg s) (hpc : s.pc = .segment t w)
    (hslice : slice ∈ t.seg.slices) (hno : ¬ Cfg.Skips w.current t.seg slice) :
    Cfg.startRow w.current t.seg slice = 0 := by
  have hok := h.segmentOk hpc
  have hknown := h.known_segment hpc
  simp only [Cfg.Skips, not_or, not_not] at hno
  obtain ⟨-, hwork, -, hrow⟩ := hno
  unfold Cfg.startRow at hrow ⊢
  split
  · rename_i hsame
    rw [if_pos hsame] at hrow
    rcases hok.current with ⟨hcur, hseq⟩ | ⟨-, hcur⟩
    · have hlen := h.rows t.agg hok.pass.agg_mem t.seg hknown slice hslice hwork
        (hcur ▸ hseq.symm) (hcur ▸ hsame.2.symm)
      rw [← hcur] at hlen
      exact absurd hlen hrow
    · rw [hcur]
  · rfl

theorem PassOk.of_log {log' : List Item} (h : PassOk cfg live log aggs segs rows)
    (hsub : ∀ x ∈ log, x ∈ log') : PassOk cfg live log' aggs segs rows :=
  { h with
    finished := fun agg hagg hno seg hseg => (h.finished agg hagg hno seg hseg).mono hsub
    passed := fun agg hagg seg hseg hno => (h.passed agg hagg seg hseg hno).mono hsub }

theorem consumed_of_lt (h : PassOk cfg live log (agg :: aggs) (seg :: segs) rows) {seg' : Segment}
    (hknown : seg' ∈ live ∨ seg' ∈ rows) (hlt : seg'.seq < seg.seq) : Consumed log agg seg' := by
  have hseg : seg ∈ rows := h.segsIn.subset List.mem_cons_self
  by_cases hrows : seg' ∈ rows
  · refine h.passed agg rfl seg' hrows ?_
    intro hmem
    rcases List.mem_cons.1 hmem with rfl | hmem
    · exact lt_irrefl _ hlt
    · have hsorted := (h.sorted.sublist h.segsIn.sublist)
      have := List.rel_of_pairwise_cons hsorted hmem
      omega
  · have := h.newer seg' (hknown.resolve_right hrows) hrows seg hseg
    omega

theorem Segment.slice_inj (seg : Segment) {a b : Slice} (ha : a ∈ seg.slices) (hb : b ∈ seg.slices)
    (h : a.ordinal = b.ordinal) : a = b := by
  have hnodup : (seg.slices.map (·.ordinal)).Nodup :=
    List.pairwise_map.2 (seg.sorted.imp fun hlt => ne_of_lt hlt)
  exact List.inj_on_of_nodup_map hnodup ha hb h

theorem kept_applyEvents {store store' : Store} {cursor next : WalCursor}
    {batch : List (Except StreamError Row)} {cdc : Option (List WalRowMeta)} {startRow : Nat}
    (hlt : startRow < batch.length)
    (h : cfg.applyEvents agg store cursor batch cdc startRow = .ok (next, store')) (id : Text) :
    kept cfg.toStreamState store' id = if id = agg.id then next else kept cfg.toStreamState store id := by
  obtain ⟨-, hmeta, hother⟩ := applyEvents_ok cfg.toStreamState agg store hlt h
  split
  · rename_i hid
    rw [hid, kept, hmeta]
    exact if_pos rfl
  · rename_i hid
    rw [kept, hother id hid]
    rfl

section Turn
variable {slices : List Slice} (hslices : w.slices = slice :: slices)
include hslices

theorem SegmentOk.rest {store : Store} (hok : SegmentOk cfg live log store t w) {log' : List Item}
    (hsub : ∀ x ∈ log, x ∈ log') (happlied : slice.Work → item t.agg t.seg slice ∈ log') :
    slices <:+ t.seg.slices ∧ ∀ slice' ∈ t.seg.slices, slice' ∉ slices → slice'.Work →
      item t.agg t.seg slice' ∈ log' := by
  refine ⟨?_, fun slice' hslice' hout hwork => ?_⟩
  · refine (List.suffix_cons slice slices).trans ?_
    rw [← hslices]
    exact hok.slices
  · by_cases heq : slice' = slice
    · subst heq
      exact happlied hwork
    · refine hsub _ (hok.applied slice' hslice' ?_ hwork)
      rw [hslices]
      exact List.not_mem_cons_of_ne_of_not_mem heq hout

theorem SegmentOk.earlier {store : Store} (hok : SegmentOk cfg live log store t w) {slice' : Slice}
    (hslice' : slice' ∈ t.seg.slices) (hwork : slice'.Work) (hlt : slice'.ordinal < slice.ordinal) :
    item t.agg t.seg slice' ∈ log := by
  refine hok.applied slice' hslice' ?_ hwork
  rw [hslices]
  intro hmem
  rcases List.mem_cons.1 hmem with rfl | hmem
  · exact lt_irrefl _ hlt
  · have hsorted := t.seg.sorted.sublist hok.slices.sublist
    rw [hslices] at hsorted
    have := List.rel_of_pairwise_cons hsorted hmem
    omega

theorem applied_iff_reached (h : Base cfg s) (hpc : s.pc = .segment t w)
    (hord : w.current.sliceOrdinal ≤ slice.ordinal) (hseg : seg ∈ s.live ∨ seg ∈ t.rows) {slice' : Slice}
    (hslice' : slice' ∈ seg.slices) (hwork : slice'.Work) :
    item t.agg seg slice' ∈ s.log ∨ item t.agg seg slice' = item t.agg t.seg slice ↔
      seg.seq < t.seg.seq ∨ seg.seq = t.seg.seq ∧ slice'.ordinal ≤ slice.ordinal := by
  have hok := h.segmentOk hpc
  have hknown := known_of_turn hpc hseg
  have hslice : slice ∈ t.seg.slices := hok.slices.subset (hslices ▸ List.mem_cons_self)
  constructor
  · intro hin
    rcases hin with hin | hin
    · -- the stored cursor is not past the slice
      have hreached := (h.reached t.agg hok.pass.agg_mem seg hknown slice' hslice' hwork).1 hin
      unfold Reached at hreached
      rcases hok.current with ⟨hcur, hseq⟩ | ⟨hseq, -⟩
      · rw [← hcur] at hreached
        omega
      · omega
    · have hseq : seg.seq = t.seg.seq := congrArg Item.seq hin
      have hordinal : slice'.ordinal = slice.ordinal := congrArg Item.ordinal hin
      omega
  · intro hr
    rcases hr with hr | ⟨hseq, hordinal⟩
    · exact .inl (consumed_of_lt hok.pass hseg hr slice' hslice' hwork)
    · obtain rfl := h.unique seg t.seg hknown (h.known_segment hpc) hseq
      rcases Nat.lt_or_eq_of_le hordinal with hlt | heq
      · exact .inl (hok.earlier hslices hslice' hwork hlt)
      · exact .inr (by rw [t.seg.slice_inj hslice' hslice heq])

end Turn

theorem base_apply (h : Base cfg s) (hpc : s.pc = .segment t w) {slices : List Slice}
    (hslices : w.slices = slice :: slices) (hno : ¬ Cfg.Skips w.current t.seg slice)
    {next : WalCursor} {store' : Store} (hev : cfg.applyEvents t.agg s.store
      { w.current with seq := t.seg.seq, segmentId := t.seg.segmentId, sliceOrdinal := slice.ordinal }
      slice.batch slice.cdc (Cfg.startRow w.current t.seg slice) = .ok (next, store')) (hold : Nat)
    (finished : Bool) :
    Base cfg { s with
      store := store'
      hold := hold
      log := s.log ++ [⟨t.agg.id, t.seg.seq, slice.ordinal, Cfg.startRow w.current t.seg slice⟩]
      pc := .segment t ⟨slices, next, true, finished⟩ } := by
  have hok := h.segmentOk hpc
  have hagg := hok.pass.agg_mem
  have hslice : slice ∈ t.seg.slices := hok.slices.subset (hslices ▸ List.mem_cons_self)
  have hstart := startRow_eq_zero h hpc hslice hno
  have hknown := h.known_segment hpc
  have hsame : ∀ seg, seg ∈ s.live ∨ seg ∈ t.rows → Known s seg := fun _ => known_of_turn hpc
  simp only [Cfg.Skips, not_or, not_not] at hno
  obtain ⟨hord, hwork, -, -⟩ := hno
  have hlt : Cfg.startRow w.current t.seg slice < slice.batch.length := by
    rw [hstart]
    exact List.length_pos_iff.2 hwork.2
  obtain ⟨hnext, hmeta, hother⟩ := applyEvents_ok cfg.toStreamState t.agg s.store hlt hev
  have hkept := kept_applyEvents hlt hev
  have hitem : item t.agg t.seg slice =
      ⟨t.agg.id, t.seg.seq, slice.ordinal, Cfg.startRow w.current t.seg slice⟩ := by
    rw [hstart]
    rfl
  constructor
  case known => exact fun seg hseg => h.known seg (hsame seg hseg)
  case unique =>
    exact fun a b ha hb => h.unique a b (hsame a ha) (hsame b hb)
  case distinct => exact h.distinct
  case next => exact h.next
  case opened =>
    intro _ agg hmem
    show cfg.loadMeta store' agg.id = _
    by_cases hid : agg.id = t.agg.id
    · rw [hkept, if_pos hid, hid]
      exact hmeta
    · rw [hkept, if_neg hid, hother agg.id hid]
      exact h.opened (by simp [hpc]) agg hmem
  case cursors =>
    intro agg hmem
    show (kept cfg.toStreamState store' agg.id).segmentId = _ ∧ _
    rw [hkept]
    split
    · rw [hnext]
      exact ⟨(h.known t.seg hknown).2.2, (h.known t.seg hknown).2.1⟩
    · exact h.cursors agg hmem
  case rows =>
    intro agg hmem seg hseg slice' hslice' hwork'
    show seg.seq = (kept cfg.toStreamState store' agg.id).seq → _ → _ ≤ (kept _ store' agg.id).rowIndex
    rw [hkept]
    split
    · rw [hnext]
      intro hseq hordinal
      obtain rfl := h.unique seg t.seg (hsame seg hseg) hknown hseq
      rw [t.seg.slice_inj hslice' hslice hordinal]
    · exact h.rows agg hmem seg (hsame seg hseg) slice' hslice' hwork'
  case reached =>
    intro agg hmem seg hseg slice' hslice' hwork'
    show item agg seg slice' ∈ s.log ++ [_] ↔ Reached (kept cfg.toStreamState store' agg.id) seg slice'
    rw [hkept, List.mem_append, List.mem_singleton, ← hitem]
    by_cases hid : agg.id = t.agg.id
    · obtain rfl := List.inj_on_of_nodup_map cfg.ids_nodup hmem hagg hid
      rw [if_pos rfl, hnext]
      exact applied_iff_reached hslices h hpc (Nat.le_of_not_lt hord) hseg hslice' hwork'
    · rw [if_neg hid, ← h.reached agg hmem seg (hsame seg hseg) slice' hslice' hwork']
      refine or_iff_left ?_
      intro heq
      exact hid (congrArg Item.agg heq)
  case logged =>
    exact List.forall_mem_append.2
      ⟨h.logged, List.forall_mem_singleton.2 ⟨hstart, (h.known t.seg hknown).2.1⟩⟩
  case pc =>
    have hgrows : ∀ x ∈ s.log, x ∈ s.log ++ [item t.agg t.seg slice] := fun x hx =>
      List.mem_append_left _ hx
    obtain ⟨hsuffix, happlied⟩ := hok.rest hslices hgrows fun _ =>
      List.mem_append_right _ (List.mem_singleton_self _)
    rw [hitem] at hgrows happlied
    refine ⟨hok.pass.of_log hgrows, hsuffix, happlied, .inl ⟨?_, ?_⟩⟩
    · rw [hkept, if_pos rfl]
    · rw [hnext]

theorem base_applySlice (h : Base cfg s) (hpc : s.pc = .segment t w) {slices : List Slice}
    (hslices : w.slices = slice :: slices) : Base cfg (cfg.applySlice s t w slice slices) := by
  have hok := h.segmentOk hpc
  have hopen : s.pc ≠ .closed := by simp [hpc]
  unfold Cfg.applySlice
  split
  · rename_i hskip
    obtain ⟨hsuffix, happlied⟩ := hok.rest hslices (fun x hx => hx) fun hwork =>
      applied_of_skips h hpc (hok.slices.subset (hslices ▸ List.mem_cons_self)) hwork hskip
    exact h.of_pass (.segment t { w with slices := slices }) (by rw [hpc]; rfl) hopen
      ⟨hok.pass, hsuffix, happlied, hok.current⟩ s.hold
  · rename_i hno
    dsimp only
    split
    · exact h.of_rest rfl (fun _ => hopen) trivial
    · rename_i next store' hev
      exact base_apply h hpc hslices hno hev _ _

theorem base_endSegment (h : Base cfg s) (hpc : s.pc = .segment t w) (hslices : w.slices = []) :
    Base cfg (Cfg.endSegment s t w) := by
  have hok := h.segmentOk hpc
  refine h.of_pass (.pass (t.agg :: t.aggs) t.segs t.rows) (by rw [hpc]; rfl)
    (by simp [hpc]) (pass_nextSegment hok.pass ?_) _
  intro slice hslice hwork
  exact hok.applied slice hslice (hslices ▸ List.not_mem_nil) hwork

theorem base_advance (h : Base cfg s) (hstep : cfg.advance s = some s') : Base cfg s' := by
  unfold Cfg.advance at hstep
  split at hstep
  · rename_i segs rows hpc
    cases hstep
    exact h.of_rest rfl (fun _ => by simp [hpc]) trivial
  · rename_i agg aggs rows hpc
    cases hstep
    have hok := h.pc
    rw [hpc] at hok
    exact h.of_pass (.pass aggs rows rows) (by rw [hpc]; rfl)
      (by simp [hpc]) (pass_nextAggregate hok) s.hold
  · rename_i agg aggs seg segs rows hpc
    cases hstep
    exact base_beginSegment h hpc
  · rename_i t w hpc
    split at hstep
    · rename_i hslices
      cases hstep
      exact base_endSegment h hpc hslices
    · rename_i slice slices hslices
      cases hstep
      exact base_applySlice h hpc hslices
  · cases hstep

theorem base_start (h : Base cfg s) (hold : Nat) :
    Base cfg { s with store := cfg.ensureConfig s.store, hold := hold, pc := .idle } := by
  have hload : ∀ agg ∈ cfg.aggregates, cfg.loadMeta (cfg.ensureConfig s.store) agg.id =
      some ⟨kept cfg.toStreamState s.store agg.id, cfg.configHash⟩ := by
    intro agg hagg
    exact loadMeta_ensureConfig cfg.toStreamState s.store hagg
  refine h.of_kept (fun agg hagg => ?_) rfl rfl (List.Sublist.refl _) (fun seg hseg => ?_)
    (fun _ => hload) trivial
  · rw [kept, hload agg hagg]
    exact if_pos rfl
  · exact .inl (hseg.resolve_right List.not_mem_nil)

theorem base_publish (h : Base cfg s) (hnext : s.nextSeq ≤ seg.seq)
    (hid : seg.segmentId = cfg.idOf seg.seq) :
    Base cfg { s with
      live := s.live ++ [seg], payloads := seg.seq :: s.payloads, nextSeq := seg.seq + 1 } := by
  have hpos := h.next
  have hknown : ∀ t, t ∈ s.live ++ [seg] ∨ t ∈ snapshot s.pc → Known s t ∨ t = seg := by
    intro t ht
    rcases ht with ht | ht
    · rcases List.mem_append.1 ht with ht | ht
      · exact .inl (.inl ht)
      · exact .inr (List.mem_singleton.1 ht)
    · exact .inl (.inr ht)
  constructor
  case known =>
    intro t ht
    show 0 < t.seq ∧ t.seq < seg.seq + 1 ∧ _
    rcases hknown t ht with ht | rfl
    · have := h.known t ht
      exact ⟨this.1, by omega, this.2.2⟩
    · exact ⟨by omega, by omega, hid⟩
  case unique =>
    intro a b ha hb hseq
    rcases hknown a ha with ha' | ha'
    · rcases hknown b hb with hb' | hb'
      · exact h.unique a b ha' hb' hseq
      · have := (h.known a ha').2.1
        rw [hb'] at hseq
        omega
    · rcases hknown b hb with hb' | hb'
      · have := (h.known b hb').2.1
        rw [ha'] at hseq
        omega
      · rw [ha', hb']
  case distinct =>
    show ((s.live ++ [seg]).map (·.seq)).Nodup
    rw [List.map_append, List.map_singleton]
    refine List.nodup_append'.2 ⟨h.distinct, List.nodup_singleton _, ?_⟩
    intro n hn hseg
    obtain ⟨t, ht, rfl⟩ := List.mem_map.1 hn
    have heq : t.seq = seg.seq := List.mem_singleton.1 hseg
    have := (h.known t (.inl ht)).2.1
    omega
  case next => exact Nat.succ_pos _
  case opened => exact h.opened
  case cursors =>
    intro agg hagg
    have := h.cursors agg hagg
    dsimp only
    exact ⟨this.1, by omega⟩
  case rows =>
    intro agg hagg t ht slice hslice hwork
    rcases hknown t ht with ht | rfl
    · exact h.rows agg hagg t ht slice hslice hwork
    · intro hseq
      have := (h.cursors agg hagg).2
      dsimp only at hseq
      omega
  case reached =>
    intro agg hagg t ht slice hslice hwork
    rcases hknown t ht with ht | rfl
    · exact h.reached agg hagg t ht slice hslice hwork
    · -- a new segment is after every cursor, and no item names it
      have hcursor := (h.cursors agg hagg).2
      constructor
      · intro hin
        have : t.seq < s.nextSeq := (h.logged _ hin).2
        omega
      · intro hr
        dsimp only [Reached] at hr
        omega
  case logged =>
    intro x hx
    have := h.logged x hx
    dsimp only
    exact ⟨this.1, by omega⟩
  case pc =>
    refine PcOk.of_live h.pc ?_
    intro t ht
    rcases List.mem_append.1 ht with ht | ht
    · exact .inl ht
    · right
      intro r hr
      have := (h.known r (.inr hr)).2.1
      rw [List.mem_singleton.1 ht]
      omega

theorem base_step {l : Label} (h : Base cfg s) (hstep : cfg.step s l = some s') : Base cfg s' := by
  cases l with
  | start =>
    simp only [Cfg.step] at hstep
    split at hstep
    · cases hstep
      exact base_start h _
    · cases hstep
  | poll =>
    simp only [Cfg.step] at hstep
    split at hstep
    · rename_i hpc
      cases hstep
      exact base_poll h hpc
    · cases hstep
  | next => exact base_advance h hstep
  | fail =>
    obtain ⟨hrun, rfl⟩ := of_guard hstep
    refine h.of_rest rfl ?_ trivial
    intro _ hc
    rw [hc] at hrun
    exact hrun
  | crash =>
    cases hstep
    exact h.of_rest rfl (fun hc => absurd rfl hc) trivial
  | publish seg =>
    obtain ⟨hnew, rfl⟩ := of_guard hstep
    exact base_publish h hnew.1 hnew.2
  | complete seq =>
    cases hstep
    exact h.of_known rfl rfl rfl (List.Sublist.refl _) (fun _ hseg => hseg) id h.pc
  | reclaim seq =>
    obtain ⟨-, rfl⟩ := of_guard hstep
    refine h.of_known rfl rfl rfl List.filter_sublist ?_ id (PcOk.of_live h.pc ?_)
    · intro seg hseg
      exact hseg.imp_left List.mem_of_mem_filter
    · exact fun seg hseg => .inl (List.mem_of_mem_filter hseg)
  | unlink seq =>
    obtain ⟨-, rfl⟩ := of_guard hstep
    exact h.of_known rfl rfl rfl (List.Sublist.refl _) (fun _ hseg => hseg) id h.pc

theorem base_init (h : cfg.Init s) : Base cfg s := by
  have hkept : ∀ agg ∈ cfg.aggregates, kept cfg.toStreamState s.store agg.id = .zero := by
    intro agg hagg
    rw [kept]
    split
    · rename_i m hm
      exact if_neg (h.metas agg hagg m hm)
    · rfl
  have hknown : ∀ seg, Known s seg → seg ∈ s.live := by
    intro seg hseg
    unfold Known at hseg
    rw [h.pc] at hseg
    exact hseg.resolve_right List.not_mem_nil
  constructor
  case known => exact fun seg hseg => h.live seg (hknown seg hseg)
  case unique =>
    exact fun a b ha hb => List.inj_on_of_nodup_map h.distinct (hknown a ha) (hknown b hb)
  case distinct => exact h.distinct
  case next => exact h.next
  case opened => exact fun hne => absurd h.pc hne
  case cursors =>
    intro agg hagg
    rw [hkept agg hagg]
    exact ⟨cfg.idOf_zero.symm, h.next⟩
  case rows =>
    intro agg hagg seg hseg slice _ _ hseq
    rw [hkept agg hagg] at hseq
    exact absurd hseq (Nat.pos_iff_ne_zero.1 (h.live seg (hknown seg hseg)).1)
  case reached =>
    intro agg hagg seg hseg slice _ _
    rw [hkept agg hagg, h.log]
    have hpos := (h.live seg (hknown seg hseg)).1
    constructor
    · intro hin
      cases hin
    · intro hr
      have hzero : WalCursor.zero.seq = 0 := rfl
      unfold Reached at hr
      omega
  case logged =>
    rw [h.log]
    intro x hx
    cases hx
  case pc =>
    rw [h.pc]
    trivial

end Steps

end Skippr.L8.Stream
