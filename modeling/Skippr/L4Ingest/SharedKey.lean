import Skippr.L3Wal.WalHandle
import Skippr.L4Ingest.Delivery

/-!
# Batches that share an offset key

A source object larger than its chunk size is submitted as several batches under
one offset key, none with a position (plugins/data_source/file/src/file.rs). Each
goes through `process_batch` in a call of its own. A commit unit is persisted at
any later moment, and that publishes the key as closed, as does a deadletter
hint; a closed key makes `should_ingest_at_offset` skip every record.

The process may crash, with the units that were not persisted lost, and the list
may be submitted again from the start. No transform ops are configured.
-/
namespace Skippr.L4.SharedKey

open Skippr.L1 Skippr.L2 Skippr.L3 Skippr.L4.Ingest

/-! ## The system -/

structure Job where
  key : OffsetKey
  payloads : List Decoded
  flatten : Bool
  /-- The JSON records of an Arrow payload, for a flattening pipeline. -/
  toJson : Nat → Except String (List Json)

/-- Not CDC, and without a position. mirrors file.rs:132-142 -/
def Job.batch (job : Job) (data : Decoded) : IngestBatch := ⟨job.key, data, none, none⟩

def recordsOf (flatten : Bool) (json : Except String (List Json)) : Decoded → List Rec
  | .lines lines => (flattenItems 0 lines).map fun item => ⟨0, item.line⟩
  | .rows records => (flattenItems 0 (records.map .ok)).map fun item => ⟨0, item.line⟩
  | .arrow batches =>
    if flatten then
      match json with
      | .error _ => []
      | .ok records => (flattenItems 0 (records.map .ok)).map fun item => ⟨0, item.line⟩
    else arrowRows 0 0 batches.sum
  | .error _ _ => []

def Job.records (job : Job) (n : Nat) : List Rec :=
  match job.payloads[n]? with
  | some data => recordsOf job.flatten (job.toJson n) data
  | none => []

structure Queued where
  round : Nat
  batch : Nat
  unit : List BufferBatch

structure St where
  store : OffsetStore
  seq : Nat
  /-- Which submission of the list, and its next batch. -/
  round : Nat
  next : Nat
  failed : Bool
  queued : List Queued
  segments : List (Nat × List BufferBatch)

inductive Lbl
  | call (env : Env)
  /-- The live segment, with the first units of the queue, is persisted. -/
  | persist (units : Nat)
  /-- Its persist fails, and the requests of its units. -/
  | fail (units : Nat)
  | crash
  | resubmit

/-- Publish offsets under one commit; all are closed.
mirrors src/buffer/wal_handle.rs:947-981, 1612-1638 -/
def publish (store : OffsetStore) (seq : Nat) (offsets : List (OffsetKey × UInt64)) :
    Except PublishError OffsetStore :=
  let committed := Handle.committedOffsetsFrom
    (offsets.map fun o => ((o.1.ns, o.1.part), o.2.toNat)) store
  Handle.publishAll .fresh store ((Handle.entries committed []).map (seq, ·))

/-- Each hint is a commit of its own. -/
def publishEach (store : OffsetStore) (seq : Nat) :
    List (OffsetKey × UInt64) → Except PublishError OffsetStore
  | [] => .ok store
  | hint :: hints =>
    match publish store (seq + 1) [hint] with
    | .error e => .error e
    | .ok store => publishEach store (seq + 1) hints

/-- The offsets of a segment. mirrors src/buffer/ingest_buffer.rs:936-941 -/
def segmentOffsets (units : List Queued) : Offsets :=
  (units.flatMap fun q => q.unit.flatMap (·.offsets.toList)).foldl
    (fun offsets o => mergeOffset offsets o.1 o.2) ∅

def callEnv (job : Job) (s : St) (env : Env) : Env :=
  { env with
    store := s.store
    flatten := job.flatten
    toJson := fun _ => job.toJson s.next
    opsKeep := fun _ => true }

def callStep (job : Job) (s : St) (env : Env) (data : Decoded) : Option St :=
  let o := processBatch (callEnv job s env) [job.batch data]
  match publishEach s.store s.seq o.hints with
  | .error _ => none
  | .ok store => some { s with
      store := store
      seq := s.seq + o.hints.length
      next := if o.failed then s.next else s.next + 1
      failed := o.failed
      queued := s.queued ++ o.unit.toList.map fun unit => ⟨s.round, s.next, unit⟩ }

def step (job : Job) (s : St) : Lbl → Option St
  | .call env =>
    if s.failed then none
    else match job.payloads[s.next]? with
      | none => none
      | some data => callStep job s env data
  | .persist n =>
    match publish s.store (s.seq + 1) (segmentOffsets (s.queued.take n)).toList with
    | .error _ => none
    | .ok store => some { s with
        store := store
        seq := s.seq + 1
        queued := s.queued.drop n
        segments := s.segments ++ (s.queued.take n).map fun q => (q.batch, q.unit) }
  | .fail n => some { s with
      queued := s.queued.drop n
      failed := s.failed || (s.queued.take n).any (·.round = s.round) }
  | .crash => some { s with queued := [], round := s.round + 1, next := 0, failed := false }
  | .resubmit => some { s with round := s.round + 1, next := 0, failed := false }

def start (store : OffsetStore) : St := ⟨store, 0, 0, 0, false, [], []⟩

def lts (job : Job) : LTS St Lbl := LTS.ofFn (fun s => ∃ store, s = start store) (step job)

/-! ## Durable records -/

/-- The unit has a row or a deadletter record of the record. -/
def inUnit (unit : List BufferBatch) (r : Rec) : Bool :=
  (unit.flatMap (·.payload.flatten)).contains r || (unit.flatMap (·.deadletters)).any (·.isOf r)

/-- A row or a deadletter record of a committed segment. A record discarded for
want of a deadletter sink is not durable. -/
def durable (s : St) (n : Nat) (r : Rec) : Bool := s.segments.any fun x => x.1 = n && inUnit x.2 r

def pending (s : St) (n : Nat) (r : Rec) : Bool :=
  s.queued.any fun q => q.round = s.round && q.batch = n && inUnit q.unit r

/-- The list was submitted, and no request failed or is open. -/
def submitted (job : Job) (s : St) : Bool :=
  s.next = job.payloads.length && !s.failed && s.queued.all (·.round ≠ s.round)

/-- The records of a list that was submitted are durable. -/
def Safe (job : Job) (s : St) : Prop :=
  submitted job s = true →
    ∀ n < job.payloads.length, ∀ r ∈ job.records n, durable s n r = true

instance (job : Job) (s : St) : Decidable (Safe job s) := inferInstanceAs (Decidable (_ → _))

/-! ## A call on an open key -/

def KeyOpen (job : Job) (s : St) : Prop :=
  ∀ value, snapshotValue s.store job.key = .ok (some value) → value.closed = 0

/-- What the call takes in reaches the unit, unless the request fails: nothing is
discarded. It takes in every batch of an Arrow payload. -/
structure Lossless (env : Env) (b : IngestBatch) : Prop where
  arrives : ∀ steps, callSteps env 0 [b] = some steps → ¬FailsLate env steps →
    ∀ s ∈ steps, Arrives env steps (dest env steps s)
  coerced : ∀ batches, b.data = .arrow batches → env.flatten = false →
    ∀ j < batches.length, ∃ key, env.coerce 0 j = .ok key

variable {b : IngestBatch} {env : Env} {r : Rec} {o : Outcome} {s s' : St} {job : Job}

theorem itemSteps_recs_eq {snapshot : Option OffsetValue}
    (h : ∀ pos, shouldIngestAtOffset snapshot b.isCdc b.trackPosition pos = true) (i : Nat)
    (items : List Item) :
    (items.filterMap (itemStep i b snapshot)).flatMap Step.recs =
      items.map fun item => ⟨i, item.line⟩ := by
  induction items with
  | nil => rfl
  | cons item items ih =>
    have hsome : ∃ s, itemStep i b snapshot item = some s := by
      cases item with
      | row line value =>
        simp only [itemStep, h, if_true]
        split
        · exact ⟨_, rfl⟩
        · exact ⟨_, rfl⟩
      | notObject line | parseError line error => exact ⟨_, rfl⟩
    obtain ⟨s, hs⟩ := hsome
    rw [List.filterMap_cons_some hs, List.flatMap_cons, itemStep_recs hs, ih]
    rfl

theorem arrowSteps_recs_eq {i : Nat} (b : IngestBatch) (pos : UInt64) {j : Nat} (n : Nat)
    {counts : List Nat} (h : ∀ m < counts.length, ∃ key, env.coerce i (j + m) = .ok key) :
    (arrowSteps env i b pos j n counts).flatMap Step.recs = arrowRows i n counts.sum := by
  induction counts generalizing j n with
  | nil => rfl
  | cons count rest ih =>
    obtain ⟨key, hkey⟩ := h 0 (by simp)
    have hrest : ∀ m < rest.length, ∃ key, env.coerce i (j + 1 + m) = .ok key := by
      intro m hm
      have := h (m + 1) (by simpa using hm)
      rwa [Nat.add_comm m 1, ← Nat.add_assoc] at this
    rw [arrowSteps, List.sum_cons, arrowRows_add]
    simp only [Nat.add_zero] at hkey
    rw [hkey]
    simp only [List.flatMap_cons, Step.recs, ih (n + count) hrest]

theorem records_in_steps {steps : List Step} {snapshot : Option OffsetValue}
    (hsnap : snapshotValue env.store b.offsetKey = .ok snapshot)
    (h : ∀ pos, shouldIngestAtOffset snapshot b.isCdc b.trackPosition pos = true)
    (hcoerced : ∀ batches, b.data = .arrow batches → env.flatten = false →
      ∀ j < batches.length, ∃ key, env.coerce 0 j = .ok key)
    (hsteps : batchSteps env 0 b = some steps)
    (hr : r ∈ recordsOf env.flatten (env.toJson 0) b.data) : r ∈ steps.flatMap Step.recs := by
  have hitems : ∀ values, r ∈ (flattenItems 0 values).map (fun item => ⟨0, item.line⟩) →
      r ∈ (itemSteps 0 b snapshot values).flatMap Step.recs := by
    intro values hr
    rwa [itemSteps, itemSteps_recs_eq h]
  simp only [batchSteps, hsnap] at hsteps
  cases hdata : b.data with
  | lines lines =>
    simp only [hdata] at hsteps hr
    cases hsteps
    exact hitems _ hr
  | rows records =>
    simp only [hdata] at hsteps hr
    obtain ⟨-, rfl⟩ := of_guard_not hsteps
    exact hitems _ hr
  | error err lineCount =>
    rw [hdata] at hr
    cases hr
  | arrow batches =>
    simp only [hdata, recordsOf] at hsteps hr
    split at hsteps
    · cases hsteps
    cases hflat : env.flatten with
    | true =>
      simp only [hflat, if_true] at hsteps hr
      cases hjson : env.toJson 0 with
      | error e =>
        rw [hjson] at hr
        cases hr
      | ok records =>
        simp only [hjson] at hsteps hr
        cases hsteps
        exact hitems _ hr
    | false =>
      simp only [hflat, Bool.false_eq_true, if_false, h, if_true] at hsteps hr
      cases hsteps
      rwa [arrowSteps_recs_eq b _ 0 (by simpa using hcoerced batches hdata hflat)]

theorem held_of_places (h : o.places r = 1) :
    ∃ unit, o.unit = some unit ∧ inUnit unit r = true := by
  have hin : inUnit (o.unit.getD []) r = true := by
    by_contra hout
    rw [Bool.not_eq_true] at hout
    simp only [inUnit, Bool.or_eq_false_iff, List.contains_eq_mem, decide_eq_false_iff_not,
      List.any_eq_false] at hout
    unfold Outcome.places Outcome.rows Outcome.deadletters at h
    rw [List.count_eq_zero.mpr hout.1, List.countP_eq_zero.mpr hout.2] at h
    cases h
  cases hunit : o.unit with
  | none =>
    rw [hunit] at hin
    cases hin
  | some unit => exact ⟨unit, rfl, by rwa [hunit] at hin⟩

theorem held_of_call (hkeep : ∀ r, env.opsKeep r = true)
    (h : ∀ snapshot, snapshotValue env.store b.offsetKey = .ok snapshot →
      ∀ pos, shouldIngestAtOffset snapshot b.isCdc b.trackPosition pos = true)
    (hlossless : Lossless env b) (hok : (processBatch env [b]).failed = false)
    (hr : r ∈ recordsOf env.flatten (env.toJson 0) b.data) :
    ∃ unit, (processBatch env [b]).unit = some unit ∧ inUnit unit r = true := by
  have hno : ¬Stops env [b] := by
    intro hstops
    rw [processBatch_of_stops hstops] at hok
    cases hok
  obtain ⟨own, hown⟩ : ∃ own, batchSteps env 0 b = some own := by
    cases hb : batchSteps env 0 b with
    | none => exact absurd (.inr (.inl (by simp [callSteps, hb]))) hno
    | some own => exact ⟨own, rfl⟩
  have hsteps : callSteps env 0 [b] = some own := by simp [callSteps, hown]
  obtain ⟨snapshot, hsnap⟩ : ∃ snapshot, snapshotValue env.store b.offsetKey = .ok snapshot := by
    cases hs : snapshotValue env.store b.offsetKey with
    | error e => simp [batchSteps, hs] at hown
    | ok snapshot => exact ⟨snapshot, rfl⟩
  have hlate : ¬FailsLate env own := by
    rw [← failed_iff hno hsteps, hok]
    exact Bool.false_ne_true
  have hmem := records_in_steps hsnap (h snapshot hsnap) hlossless.coerced hown hr
  obtain ⟨s, hs, hrs⟩ := List.mem_flatMap.mp hmem
  have hsettled : (processBatch env [b]).Settled r b.offsetKey :=
    (settled_of_steps hno hsteps (hkeep r) b.offsetKey).mpr
      ⟨fun hf => absurd hf hlate, fun _ => ⟨s, hs, hrs, hlossless.arrives own hsteps hlate s hs⟩⟩
  rcases hsettled with hone | ⟨hfailed, -⟩
  swap
  · rw [hok] at hfailed
    cases hfailed
  exact held_of_places hone

/-! ## Runs -/

/-- A call runs on an open key and loses nothing, or has nothing left to do. -/
def CleanCall (job : Job) (s : St) : Lbl → Prop
  | .call env =>
    (∀ r ∈ job.records s.next, durable s s.next r = true) ∨
      KeyOpen job s ∧ ∀ data, job.payloads[s.next]? = some data →
        Lossless (callEnv job s env) (job.batch data)
  | _ => True

def Inv (job : Job) (s : St) : Prop :=
  s.failed = false → ∀ n < s.next, ∀ r ∈ job.records n, durable s n r = true ∨ pending s n r = true

theorem durable_mono {n : Nat} (hseg : ∀ x ∈ s.segments, x ∈ s'.segments)
    (h : durable s n r = true) : durable s' n r = true := by
  simp only [durable, List.any_eq_true] at h ⊢
  obtain ⟨x, hx, h⟩ := h
  exact ⟨x, hseg x hx, h⟩

theorem admits_of_open (h : KeyOpen job s) (env : Env) (data : Decoded) :
    ∀ snapshot, snapshotValue (callEnv job s env).store (job.batch data).offsetKey = .ok snapshot →
      ∀ pos, shouldIngestAtOffset snapshot (job.batch data).isCdc (job.batch data).trackPosition pos =
        true := by
  intro snapshot hsnap pos
  cases snapshot with
  | none => rfl
  | some value =>
    have hclosed := h value hsnap
    simp [shouldIngestAtOffset, Job.batch, IngestBatch.isCdc, IngestBatch.trackPosition, hclosed]

structure Called (job : Job) (s : St) (o : Outcome) (s' : St) : Prop where
  round : s'.round = s.round
  next : s'.next = if o.failed then s.next else s.next + 1
  failed : s'.failed = o.failed
  queued : s'.queued = s.queued ++ o.unit.toList.map fun unit => ⟨s.round, s.next, unit⟩
  segments : s'.segments = s.segments

theorem called_of_step {data : Decoded} (h : callStep job s env data = some s') :
    Called job s (processBatch (callEnv job s env) [job.batch data]) s' := by
  simp only [callStep] at h
  split at h
  · cases h
  · cases h
    exact ⟨rfl, rfl, rfl, rfl, rfl⟩

theorem Called.keeps (h : Called job s o s') {n : Nat}
    (hr : durable s n r = true ∨ pending s n r = true) :
    durable s' n r = true ∨ pending s' n r = true := by
  rcases hr with hd | hp
  · exact .inl (durable_mono (fun x hx => h.segments ▸ hx) hd)
  · refine .inr ?_
    simp only [pending, h.queued, h.round, List.any_append, Bool.or_eq_true] at hp ⊢
    exact .inl hp

theorem Called.held (h : Called job s o s')
    (hr : ∃ unit, o.unit = some unit ∧ inUnit unit r = true) : pending s' s.next r = true := by
  obtain ⟨unit, hunit, hin⟩ := hr
  simp [pending, h.queued, h.round, hunit, hin]

theorem inv_call {data : Decoded} (h : Inv job s) (hfailed : s.failed = false)
    (hdata : job.payloads[s.next]? = some data) (hok : CleanCall job s (.call env))
    (hstep : callStep job s env data = some s') : Inv job s' := by
  have hcalled := called_of_step hstep
  intro hcompletes n hn r hr
  rw [hcalled.failed] at hcompletes
  rw [hcalled.next, hcompletes] at hn
  rcases Nat.lt_succ_iff_lt_or_eq.mp hn with hlt | rfl
  · exact hcalled.keeps (h hfailed n hlt r hr)
  · rcases hok with hdone | ⟨hopen, hlossless⟩
    · exact hcalled.keeps (.inl (hdone r hr))
    · have hrec : r ∈ recordsOf job.flatten (job.toJson s.next) data := by
        simpa [Job.records, hdata] using hr
      exact .inr (hcalled.held (held_of_call (fun _ => rfl) (admits_of_open hopen env data)
        (hlossless data hdata) hcompletes hrec))

theorem inv_persist (h : Inv job s) (n seq : Nat) (store : OffsetStore) :
    Inv job { s with
      store := store
      seq := seq
      queued := s.queued.drop n
      segments := s.segments ++ (s.queued.take n).map fun q => (q.batch, q.unit) } := by
  intro hfailed m hm r hr
  rcases h hfailed m hm r hr with hd | hp
  · exact .inl (durable_mono (fun x hx => List.mem_append_left _ hx) hd)
  · simp only [pending, List.any_eq_true] at hp
    obtain ⟨q, hq, hin⟩ := hp
    rw [← List.take_append_drop n s.queued, List.mem_append] at hq
    rcases hq with hq | hq
    · refine .inl ?_
      simp only [durable, List.any_append, List.any_map, Bool.or_eq_true, List.any_eq_true]
      refine .inr ⟨q, hq, ?_⟩
      simp only [Bool.and_eq_true, decide_eq_true_eq, Function.comp_apply] at hin ⊢
      exact ⟨hin.1.2, hin.2⟩
    · refine .inr ?_
      simp only [pending, List.any_eq_true]
      exact ⟨q, hq, hin⟩

theorem inv_fail (h : Inv job s) (n : Nat) :
    Inv job { s with
      queued := s.queued.drop n
      failed := s.failed || (s.queued.take n).any (·.round = s.round) } := by
  intro hfailed m hm r hr
  obtain ⟨hfailed, hother⟩ := Bool.or_eq_false_iff.mp hfailed
  rcases h hfailed m hm r hr with hd | hp
  · exact .inl hd
  · refine .inr ?_
    simp only [pending, List.any_eq_true] at hp ⊢
    obtain ⟨q, hq, hin⟩ := hp
    rw [← List.take_append_drop n s.queued, List.mem_append] at hq
    rcases hq with hq | hq
    · have := List.any_eq_false.mp hother q hq
      simp only [Bool.and_eq_true] at hin
      exact absurd hin.1.1 this
    · exact ⟨q, hq, hin⟩

theorem inv_step {l : Lbl} (h : Inv job s) (hok : CleanCall job s l)
    (hstep : step job s l = some s') : Inv job s' := by
  cases l with
  | call env =>
    obtain ⟨hfailed, hstep⟩ := Option.ite_none_left_eq_some.1 hstep
    split at hstep
    · cases hstep
    rename_i data hdata
    exact inv_call h (by simpa using hfailed) hdata hok hstep
  | persist n =>
    simp only [step] at hstep
    split at hstep
    · cases hstep
    · cases hstep
      exact inv_persist h n _ _
  | fail n =>
    cases hstep
    exact inv_fail h n
  | crash | resubmit =>
    cases hstep
    exact fun _ n hn => absurd hn (Nat.not_lt_zero n)

theorem inv_inductive (job : Job) : ((lts job).restrict (CleanCall job)).Inductive (Inv job) where
  init := by
    rintro s ⟨store, rfl⟩
    exact fun _ n hn => absurd hn (Nat.not_lt_zero n)
  step := by
    intro s l s' h hs
    exact inv_step h hs.1 hs.2

def chunk (n : Int) : Decoded := .lines [.ok (.obj [(['a'], .num n)])]

def twoChunks : Job := ⟨⟨['d'], ['f']⟩, [chunk 1, chunk 2], false, fun _ => .ok []⟩

theorem lossless_chunk (n : Int) :
    Lossless (callEnv twoChunks (start ∅) .sample) (twoChunks.batch (chunk n)) where
  arrives := by
    intro steps hsteps _ s hs
    obtain rfl : [Step.row ⟨0, 1⟩ (.obj [(['a'], .num n)]) (twoChunks.batch (chunk n)) 1] = steps :=
      Option.some.inj hsteps
    obtain rfl := List.mem_singleton.mp hs
    exact ⟨.inr rfl, fun h => nomatch h.2⟩
  coerced := fun _ hdata => nomatch hdata

def badThenGood : Job :=
  ⟨⟨['d'], ['f']⟩, [.lines [.error "expected value"], chunk 2], false, fun _ => .ok []⟩

end Skippr.L4.SharedKey
