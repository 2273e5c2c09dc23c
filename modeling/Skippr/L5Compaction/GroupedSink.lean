import Skippr.Core.LTS

/-!
# The grouped sink request: a reader shared by two attempts

`send_grouped_sink_request` prepares a sink session, streams the chunks of a
`GroupedBatchReader` over it and waits for the sink's answer. An attempt that
fails before its first chunk went out is tried once more, on a new session but
with the same reader (src/runtime_plugins/host.rs). `next_chunk` collects
batches in a local list, reads one batch ahead, and drops what it holds when
the stream fails or the request times out (src/plugins/traits.rs).

The plugin's answers, lost connections, timeouts and encoding failures are in
the labels. `next_chunk` is stepped one stream item at a time, so that a timeout
can fall between any two.
-/
namespace Skippr.L5.GroupedSink

structure Batch where
  rows : List Nat
  bytes : Nat
deriving DecidableEq, Repr

structure Config where
  maxRows : Nat
  maxBytes : Nat
deriving DecidableEq, Repr

/-- The reader over a batch stream: the batches still to come, whether the
stream ends with an error, and the batch read ahead.
mirrors traits.rs:446-480 -/
structure Reader where
  remaining : List Batch
  fails : Bool
  pending : Option Batch
  finished : Bool
  rowsEmitted : Nat
deriving DecidableEq, Repr

def Reader.new (stream : List Batch) (fails : Bool) : Reader := ⟨stream, fails, none, false, 0⟩

def Reader.rest (r : Reader) : List Batch := r.pending.toList ++ r.remaining

inductive Item
  | batch (b : Batch)
  | err
  | eof
deriving DecidableEq, Repr

/-- `stream.next()`. After the error the stream has ended. -/
def Reader.next (r : Reader) : Item × Reader :=
  match r.remaining with
  | b :: rest => (.batch b, { r with remaining := rest })
  | [] => if r.fails then (.err, { r with fails := false }) else (.eof, r)

def Reader.pull (r : Reader) : Item × Reader :=
  match r.pending with
  | some b => (.batch b, { r with pending := none })
  | none => r.next

def rowCount (batches : List Batch) : Nat := (batches.map fun b => b.rows.length).sum

def byteCount (batches : List Batch) : Nat := (batches.map (·.bytes)).sum

structure Chunk where
  chunkIndex : Nat
  rowOffset : Nat
  batches : List Batch
deriving DecidableEq, Repr

inductive Frame
  | ready
  | alreadyApplied (valid : Bool)
  | rejected
  | schemaRefresh (sameNamespace : Bool)
  | sinkAck (valid : Bool)
  | sinkError
  | other
deriving DecidableEq, Repr

/-- What the request returned: an outcome taken from a SinkAck, `AlreadyApplied`
from a prepare, or an error. -/
inductive Result | acked | alreadyApplied | error
deriving DecidableEq, Repr

/-- Where an attempt stands. `reading` and `lookahead` are the two places of
`next_chunk` that wait for the stream, with the batches collected so far;
`chunk` holds the chunk it returned; `emptyChunk` is the one sent for a reader
without batches. -/
inductive Pc
  | prepare
  | reading (batches : List Batch)
  | lookahead (batches : List Batch)
  | chunk (rowOffset : Nat) (batches : List Batch)
  | emptyChunk
  | finish
  | waiting
  | returned (result : Result)
deriving DecidableEq, Repr

/-- The batches `next_chunk` or its caller holds outside the reader. -/
def Pc.held : Pc → List Batch
  | .reading batches => batches
  | .lookahead batches => batches
  | .chunk _ batches => batches
  | _ => []

structure St where
  config : Config
  reader : Reader
  pc : Pc
  retried : Bool
  schemaRefreshes : Nat
  payloadStarted : Bool
  /-- Chunks sent on the current session. -/
  sent : List Chunk
deriving DecidableEq, Repr

def init (config : Config) (stream : List Batch) (fails : Bool) : St :=
  ⟨config, Reader.new stream fails, .prepare, false, 0, false, []⟩

def St.ret (s : St) (result : Result) : St := { s with pc := .returned result }

def St.again (s : St) : St := { s with pc := .prepare, payloadStarted := false, sent := [] }

/-- An attempt failed: try once more unless the payload has started.
mirrors host.rs:3413-3447 -/
def attemptFailed (s : St) : St :=
  if !s.payloadStarted && !s.retried then { s.again with retried := true } else s.ret .error

/-- `next_chunk` returns: the reader counts the chunk's rows as emitted.
mirrors traits.rs:609-621 -/
def returnChunk (s : St) (batches : List Batch) : St :=
  { s with
    pc := .chunk s.reader.rowsEmitted batches
    reader := { s.reader with rowsEmitted := s.reader.rowsEmitted + rowCount batches } }

/-- `next_chunk` has collected `batches`: look one batch ahead if the reader has
neither ended nor a batch in hand.
mirrors traits.rs:590-607 -/
def collected (s : St) (batches : List Batch) : St :=
  if !s.reader.finished && s.reader.pending.isNone then { s with pc := .lookahead batches }
  else returnChunk s batches

def nextChunk (s : St) : St :=
  if s.reader.finished then
    { s with pc := if s.sent = [] then .emptyChunk else .finish }
  else { s with pc := .reading [] }

/-- One turn of the loop of `next_chunk`.
mirrors traits.rs:549-588 -/
def readStep (s : St) (batches : List Batch) : St :=
  match s.reader.pull with
  | (.err, reader) => attemptFailed { s with reader := reader }
  | (.eof, reader) =>
    let s := { s with reader := { reader with finished := true } }
    if batches = [] then nextChunk s else collected s batches
  | (.batch b, reader) =>
    if batches ≠ [] ∧ (s.config.maxRows < rowCount batches + b.rows.length ∨
        s.config.maxBytes < byteCount batches + b.bytes) then
      collected { s with reader := { reader with pending := some b } } batches
    else
      let s := { s with reader := reader }
      let batches := batches ++ [b]
      if s.config.maxRows ≤ rowCount batches ∨ s.config.maxBytes ≤ byteCount batches then
        collected s batches
      else { s with pc := .reading batches }

/-- mirrors traits.rs:590-607 -/
def lookaheadStep (s : St) (batches : List Batch) : St :=
  match s.reader.next with
  | (.err, reader) => attemptFailed { s with reader := reader }
  | (.eof, reader) => returnChunk { s with reader := { reader with finished := true } } batches
  | (.batch b, reader) => returnChunk { s with reader := { reader with pending := some b } } batches

/-- The chunk is encoded, within its bound and sent.
mirrors host.rs:3359-3377 -/
def sendChunk (s : St) (rowOffset : Nat) (batches : List Batch) : St :=
  nextChunk { s with
    payloadStarted := true
    sent := s.sent ++ [⟨s.sent.length, rowOffset, batches⟩] }

/-- The answer to PrepareSink or FinishSink.
mirrors host.rs:3448-3521 -/
def answer (s : St) : Frame → St
  | .ready => if s.pc = .prepare then nextChunk s else attemptFailed s
  | .alreadyApplied valid => s.ret (if valid then .alreadyApplied else .error)
  | .rejected => s.ret .error
  | .schemaRefresh sameNamespace =>
    if s.payloadStarted then attemptFailed s
    else if 3 ≤ s.schemaRefreshes then s.ret .error
    else if !sameNamespace then s.ret .error
    else { s.again with schemaRefreshes := s.schemaRefreshes + 1 }
  | .sinkAck valid => s.ret (if valid then .acked else .error)
  | .sinkError => s.ret .error
  | .other => attemptFailed s

/-- `poll` is one stream item, `send` the next send on the data channel.
`badChunk` is an encoding or bound failure; `lost` a lost connection or a
timeout at the current await; `abort` an error outside the session that ends
the request (no worker, schema install, catalog intents). -/
inductive Lbl
  | answer (frame : Frame)
  | poll
  | send
  | badChunk
  | lost
  | abort
deriving DecidableEq, Repr

def step (s : St) : Lbl → Option St
  | .answer frame =>
    match s.pc with
    | .prepare | .waiting => some (answer s frame)
    | _ => none
  | .poll =>
    match s.pc with
    | .reading batches => some (readStep s batches)
    | .lookahead batches => some (lookaheadStep s batches)
    | _ => none
  | .send =>
    match s.pc with
    | .chunk rowOffset batches => some (sendChunk s rowOffset batches)
    | .emptyChunk => some { s with
        payloadStarted := true
        sent := [⟨0, 0, []⟩]
        pc := .finish }
    | .finish => some { s with pc := .waiting }
    | _ => none
  | .badChunk =>
    match s.pc with
    | .chunk _ _ | .emptyChunk => some (attemptFailed s)
    | _ => none
  | .lost =>
    match s.pc with
    | .returned _ => none
    -- By the time a chunk is being sent the payload has started.
    | .chunk _ _ | .emptyChunk => some (attemptFailed { s with payloadStarted := true })
    | _ => some (attemptFailed s)
  | .abort =>
    match s.pc with
    | .returned _ => none
    | _ => some (s.ret .error)

def lts (config : Config) (stream : List Batch) (fails : Bool) : LTS St Lbl :=
  LTS.ofFn (· = init config stream fails) step

def St.sentBatches (s : St) : List Batch := s.sent.flatMap (·.batches)

/-! ## No batch is lost -/

def Place (stream : List Batch) (s : St) : Prop :=
  match s.pc with
  | .prepare => s.sent = [] ∧ s.reader.rest = stream
  | .reading batches => s.sentBatches ++ batches ++ s.reader.rest = stream
  | .lookahead batches =>
    s.reader.pending = none ∧ s.sentBatches ++ batches ++ s.reader.rest = stream
  | .chunk _ batches => s.sentBatches ++ batches ++ s.reader.rest = stream
  | .emptyChunk => s.sent = [] ∧ stream = [] ∧ s.reader.rest = []
  | .finish => s.sentBatches = stream
  | .waiting => s.sentBatches = stream
  | .returned .acked => s.sentBatches = stream
  | .returned _ => True

structure Inv (stream : List Batch) (s : St) : Prop where
  ended : s.reader.finished = true → s.reader.rest = []
  started : s.payloadStarted = false → s.sent = []
  closing : s.pc = .finish ∨ s.pc = .waiting → s.payloadStarted = true
  place : Place stream s

variable {r r' : Reader}

theorem Reader.next_batch {b : Batch} (h : r.next = (.batch b, r')) :
    r.remaining = b :: r'.remaining ∧ r'.pending = r.pending ∧ r'.finished = r.finished := by
  unfold Reader.next at h
  split at h
  · rename_i b' rest hr
    cases h
    exact ⟨hr, rfl, rfl⟩
  · split at h <;> cases h

theorem Reader.next_end {item : Item} (h : r.next = (item, r')) (hitem : ∀ b, item ≠ .batch b) :
    r.remaining = [] ∧ r'.remaining = [] ∧ r'.pending = r.pending ∧ r'.finished = r.finished := by
  unfold Reader.next at h
  split at h
  · cases h
    exact absurd rfl (hitem _)
  · rename_i hr
    split at h
    · cases h
      exact ⟨hr, hr, rfl, rfl⟩
    · cases h
      exact ⟨hr, hr, rfl, rfl⟩

theorem Reader.pull_batch {b : Batch} (h : r.pull = (.batch b, r')) :
    r.rest = b :: r'.rest ∧ r'.pending = none ∧ r'.finished = r.finished := by
  unfold Reader.pull at h
  unfold Reader.rest
  split at h
  · rename_i b' hp
    cases h
    rw [hp]
    exact ⟨rfl, rfl, rfl⟩
  · rename_i hp
    obtain ⟨hr, hp', hf⟩ := Reader.next_batch h
    rw [hp', hp, hr]
    exact ⟨rfl, rfl, hf⟩

theorem Reader.pull_end {item : Item} (h : r.pull = (item, r')) (hitem : ∀ b, item ≠ .batch b) :
    r.rest = [] ∧ r'.rest = [] ∧ r'.finished = r.finished := by
  unfold Reader.pull at h
  unfold Reader.rest
  split at h
  · cases h
    exact absurd rfl (hitem _)
  · rename_i hp
    obtain ⟨hr, hr', hp', hf⟩ := Reader.next_end h hitem
    rw [hp', hp, hr, hr']
    exact ⟨rfl, rfl, hf⟩

section Steps
variable {stream : List Batch}

variable {s : St} {batches : List Batch}

theorem inv_nextChunk (hended : s.reader.finished = true → s.reader.rest = [])
    (hstarted : s.payloadStarted = false → s.sent = [])
    (hwhole : s.sentBatches ++ s.reader.rest = stream) : Inv stream (nextChunk s) := by
  unfold nextChunk
  split
  · rename_i hfin
    rw [hended hfin, List.append_nil] at hwhole
    by_cases hsent : s.sent = []
    · rw [if_pos hsent]
      refine ⟨hended, hstarted, by simp, hsent, ?_, hended hfin⟩
      rw [← hwhole, St.sentBatches, hsent]
      rfl
    · rw [if_neg hsent]
      refine ⟨hended, hstarted, fun _ => ?_, hwhole⟩
      by_contra hps
      exact hsent (hstarted (by simpa using hps))
  · refine ⟨hended, hstarted, by simp, ?_⟩
    show s.sentBatches ++ [] ++ s.reader.rest = stream
    rw [List.append_nil]
    exact hwhole

theorem inv_collected (hended : s.reader.finished = true → s.reader.rest = [])
    (hstarted : s.payloadStarted = false → s.sent = [])
    (hwhole : s.sentBatches ++ batches ++ s.reader.rest = stream) :
    Inv stream (collected s batches) := by
  unfold collected
  split
  · rename_i hlook
    simp only [Bool.and_eq_true, Option.isNone_iff_eq_none] at hlook
    exact ⟨hended, hstarted, by simp, hlook.2, hwhole⟩
  · exact ⟨hended, hstarted, by simp [returnChunk], hwhole⟩

theorem inv_attemptFailed (hended : s.reader.finished = true → s.reader.rest = [])
    (hstarted : s.payloadStarted = false → s.sent = [])
    (hrest : s.payloadStarted = false → s.retried = false → s.reader.rest = stream) :
    Inv stream (attemptFailed s) := by
  unfold attemptFailed
  split
  · rename_i hretry
    simp only [Bool.and_eq_true, Bool.not_eq_true'] at hretry
    exact ⟨hended, fun _ => rfl, by simp [St.again], rfl, hrest hretry.1 hretry.2⟩
  · exact ⟨hended, hstarted, by simp [St.ret], trivial⟩

/-- Nothing read from the stream would be lost if the attempt failed here. -/
def LosesNothing (s : St) : Prop :=
  s.payloadStarted = true ∨ s.retried = true ∨ s.pc.held = []

instance (s : St) : Decidable (LosesNothing s) := inferInstanceAs (Decidable (_ ∨ _ ∨ _))

/-- An attempt that may be retried does not fail while it holds batches, and the
plugin does not answer a prepare with a SinkAck. -/
def KeepsBatches (s : St) : Lbl → Prop
  | .answer (.sinkAck _) => s.pc ≠ .prepare
  | .poll =>
    match s.pc with
    | .reading _ => s.reader.pull.1 = .err → LosesNothing s
    | .lookahead _ => s.reader.next.1 = .err → LosesNothing s
    | _ => True
  | .badChunk => LosesNothing s
  | .lost =>
    match s.pc with
    | .chunk _ _ => True
    | _ => LosesNothing s
  | _ => True

instance (s : St) (l : Lbl) : Decidable (KeepsBatches s l) := by
  unfold KeepsBatches
  split
  · infer_instance
  · split <;> infer_instance
  · infer_instance
  · split <;> infer_instance
  · infer_instance

theorem inv_readStep (h : Inv stream s) (hpc : s.pc = .reading batches)
    (hok : s.reader.pull.1 = .err → LosesNothing s) : Inv stream (readStep s batches) := by
  have hwhole := h.place
  simp only [Place, hpc] at hwhole
  unfold readStep
  split
  · -- The stream failed: what is held is dropped.
    rename_i reader hpull
    obtain ⟨hrest, hrest', hfin⟩ := Reader.pull_end hpull nofun
    refine inv_attemptFailed (fun _ => hrest') h.started ?_
    intro hps hret
    have hheld : batches = [] := by
      rcases hok (by rw [hpull]) with hl | hl | hl
      · rw [hps] at hl; cases hl
      · rw [hret] at hl; cases hl
      · rw [hpc] at hl; exact hl
    rw [hheld, St.sentBatches, h.started hps, hrest] at hwhole
    rw [hrest', ← hwhole]
    rfl
  · rename_i reader hpull
    obtain ⟨hrest, hrest', hfin⟩ := Reader.pull_end hpull nofun
    rw [hrest, List.append_nil] at hwhole
    dsimp only
    split
    · rename_i hnil
      rw [hnil, List.append_nil] at hwhole
      refine inv_nextChunk (fun _ => hrest') h.started ?_
      show s.sentBatches ++ reader.rest = stream
      rw [hrest', List.append_nil]
      exact hwhole
    · refine inv_collected (fun _ => hrest') h.started ?_
      show s.sentBatches ++ batches ++ reader.rest = stream
      rw [hrest', List.append_nil]
      exact hwhole
  · rename_i b reader hpull
    obtain ⟨hrest, hpend, hfin⟩ := Reader.pull_batch hpull
    -- A reader that had ended would have had no batch.
    have hnot : reader.finished = true → False := by
      intro hf
      have := h.ended (hfin ▸ hf)
      rw [hrest] at this
      cases this
    rw [hrest] at hwhole
    split
    · refine inv_collected (fun hf => (hnot hf).elim) h.started ?_
      show s.sentBatches ++ batches ++ (b :: reader.remaining) = stream
      rw [← hwhole, Reader.rest, hpend]
      rfl
    · have hwhole' : s.sentBatches ++ (batches ++ [b]) ++ reader.rest = stream := by
        rw [← hwhole]
        simp only [List.append_assoc, List.singleton_append]
      dsimp only
      split
      · exact inv_collected (fun hf => (hnot hf).elim) h.started hwhole'
      · exact ⟨fun hf => (hnot hf).elim, h.started, by simp, hwhole'⟩

theorem inv_lookaheadStep (h : Inv stream s) (hpc : s.pc = .lookahead batches)
    (hok : s.reader.next.1 = .err → LosesNothing s) : Inv stream (lookaheadStep s batches) := by
  have hplace := h.place
  simp only [Place, hpc] at hplace
  obtain ⟨hpend, hwhole⟩ := hplace
  unfold lookaheadStep
  split
  · rename_i reader hnext
    obtain ⟨hr, hr', hp', hfin⟩ := Reader.next_end hnext nofun
    have hrest' : reader.rest = [] := by rw [Reader.rest, hp', hpend, hr']; rfl
    refine inv_attemptFailed (fun _ => hrest') h.started ?_
    intro hps hret
    have hheld : batches = [] := by
      rcases hok (by rw [hnext]) with hl | hl | hl
      · rw [hps] at hl; cases hl
      · rw [hret] at hl; cases hl
      · rw [hpc] at hl; exact hl
    rw [hheld, St.sentBatches, h.started hps, Reader.rest, hpend, hr] at hwhole
    rw [hrest', ← hwhole]
    rfl
  · rename_i reader hnext
    obtain ⟨hr, hr', hp', hfin⟩ := Reader.next_end hnext nofun
    have hrest' : reader.rest = [] := by rw [Reader.rest, hp', hpend, hr']; rfl
    refine ⟨fun _ => hrest', h.started, by simp [returnChunk], ?_⟩
    show s.sentBatches ++ batches ++ reader.rest = stream
    rw [← hwhole, hrest', Reader.rest, hpend, hr]
    rfl
  · rename_i b reader hnext
    obtain ⟨hr, hp', hfin⟩ := Reader.next_batch hnext
    have hrest : s.reader.rest = b :: reader.remaining := by rw [Reader.rest, hpend, hr]; rfl
    refine ⟨?_, h.started, by simp [returnChunk], ?_⟩
    · intro hf
      have := h.ended (hfin ▸ hf)
      rw [hrest] at this
      cases this
    · show s.sentBatches ++ batches ++ (b :: reader.remaining) = stream
      rw [← hwhole, hrest]

theorem inv_sendChunk {rowOffset : Nat} (h : Inv stream s) (hpc : s.pc = .chunk rowOffset batches) :
    Inv stream (sendChunk s rowOffset batches) := by
  have hwhole := h.place
  simp only [Place, hpc] at hwhole
  refine inv_nextChunk h.ended nofun ?_
  rw [← hwhole]
  simp [St.sentBatches]

theorem inv_ret {result : Result} (h : Inv stream s)
    (hack : result = .acked → s.sentBatches = stream) : Inv stream (s.ret result) := by
  refine ⟨h.ended, h.started, by simp [St.ret], ?_⟩
  cases result with
  | acked => exact hack rfl
  | alreadyApplied | error => trivial

theorem inv_failEmpty (h : Inv stream s) (hloss : LosesNothing s) (hpc : ∀ r, s.pc ≠ .returned r) :
    Inv stream (attemptFailed s) := by
  refine inv_attemptFailed h.ended h.started ?_
  intro hps hret
  have hheld : s.pc.held = [] := by
    rcases hloss with hl | hl | hl
    · rw [hps] at hl; cases hl
    · rw [hret] at hl; cases hl
    · exact hl
  have hsent : s.sentBatches = [] := by rw [St.sentBatches, h.started hps]; rfl
  have hplace := h.place
  have hclosing := h.closing
  unfold Place at hplace
  cases hp : s.pc with
  | prepare => simp only [hp] at hplace; exact hplace.2
  | reading batches | chunk rowOffset batches =>
    simp only [hp] at hplace hheld
    rw [hsent, show batches = [] from hheld] at hplace
    exact hplace
  | lookahead batches =>
    simp only [hp] at hplace hheld
    rw [hsent, show batches = [] from hheld] at hplace
    exact hplace.2
  | emptyChunk =>
    simp only [hp] at hplace
    rw [hplace.2.1]
    exact hplace.2.2
  | finish => rw [hclosing (.inl hp)] at hps; cases hps
  | waiting => rw [hclosing (.inr hp)] at hps; cases hps
  | returned r => exact absurd hp (hpc r)

theorem inv_answer {frame : Frame} (h : Inv stream s) (hpc : s.pc = .prepare ∨ s.pc = .waiting)
    (hack : ∀ valid, frame = .sinkAck valid → s.pc ≠ .prepare) : Inv stream (answer s frame) := by
  have hheld : LosesNothing s := by
    rcases hpc with hp | hp <;> exact .inr (.inr (by rw [hp]; rfl))
  have hnot : ∀ r, s.pc ≠ .returned r := by
    intro r hr
    rw [hr] at hpc
    rcases hpc with hp | hp <;> cases hp
  cases frame with
  | ready =>
    simp only [answer]
    split
    · rename_i hp
      have hplace := h.place
      simp only [Place, hp] at hplace
      refine inv_nextChunk h.ended h.started ?_
      rw [St.sentBatches, hplace.1, hplace.2]
      rfl
    · exact inv_failEmpty h hheld hnot
  | alreadyApplied valid => exact inv_ret h (by cases valid <;> nofun)
  | rejected | sinkError => exact inv_ret h nofun
  | schemaRefresh same =>
    simp only [answer]
    split
    · exact inv_failEmpty h hheld hnot
    · rename_i hps
      split
      · exact inv_ret h nofun
      split
      · exact inv_ret h nofun
      · have hp : s.pc = .prepare := by
          refine hpc.resolve_right fun hw => hps (h.closing (.inr hw))
        have hplace := h.place
        simp only [Place, hp] at hplace
        exact ⟨h.ended, fun _ => rfl, by simp [St.again], rfl, hplace.2⟩
  | sinkAck valid =>
    refine inv_ret h fun _ => ?_
    have hp := hpc.resolve_left (hack valid rfl)
    have hplace := h.place
    simp only [Place, hp] at hplace
    exact hplace
  | other => exact inv_failEmpty h hheld hnot

theorem inv_step {s' : St} {l : Lbl} (h : Inv stream s) (hok : KeepsBatches s l)
    (hs : step s l = some s') : Inv stream s' := by
  cases l with
  | answer frame =>
    have hack : ∀ valid, frame = .sinkAck valid → s.pc ≠ .prepare := by
      rintro valid rfl
      exact hok
    simp only [step] at hs
    split at hs
    · rename_i hp
      cases hs
      exact inv_answer h (.inl hp) hack
    · rename_i hp
      cases hs
      exact inv_answer h (.inr hp) hack
    · cases hs
  | poll =>
    simp only [step] at hs
    split at hs
    · rename_i batches hp
      cases hs
      simp only [KeepsBatches, hp] at hok
      exact inv_readStep h hp hok
    · rename_i batches hp
      cases hs
      simp only [KeepsBatches, hp] at hok
      exact inv_lookaheadStep h hp hok
    · cases hs
  | send =>
    simp only [step] at hs
    split at hs
    · rename_i rowOffset batches hp
      cases hs
      exact inv_sendChunk h hp
    · rename_i hp
      cases hs
      have hplace := h.place
      simp only [Place, hp] at hplace
      exact ⟨h.ended, nofun, fun _ => rfl, hplace.2.1.symm⟩
    · rename_i hp
      cases hs
      have hplace := h.place
      simp only [Place, hp] at hplace
      exact ⟨h.ended, h.started, fun _ => h.closing (.inl hp), hplace⟩
    · cases hs
  | badChunk =>
    simp only [step] at hs
    split at hs
    · rename_i hp
      cases hs
      exact inv_failEmpty h hok (by simp [hp])
    · rename_i hp
      cases hs
      exact inv_failEmpty h hok (by simp [hp])
    · cases hs
  | lost =>
    have hstarted : Inv stream (attemptFailed { s with payloadStarted := true }) :=
      inv_attemptFailed h.ended nofun nofun
    simp only [step] at hs
    split at hs
    · cases hs
    · cases hs; exact hstarted
    · cases hs; exact hstarted
    · rename_i hret hchunk hempty
      cases hs
      refine inv_failEmpty h ?_ hret
      simp only [KeepsBatches] at hok
      exact hok
  | abort =>
    simp only [step] at hs
    split at hs
    · cases hs
    · cases hs
      exact inv_ret h nofun

end Steps

theorem inv_init (config : Config) (stream : List Batch) (fails : Bool) :
    Inv stream (init config stream fails) :=
  ⟨nofun, fun _ => rfl, by simp [init], rfl, rfl⟩

theorem inv_inductive (config : Config) (stream : List Batch) (fails : Bool) :
    ((lts config stream fails).restrict KeepsBatches).Inductive (Inv stream) where
  init := by intro s hs; cases hs; exact inv_init config stream fails
  step := by intro s l s' h hs; exact inv_step h hs.1 hs.2

/-- In every run that keeps its batches, a request that returns an outcome taken
from a SinkAck has sent, on the acked session, exactly the rows of the stream
in order. -/
theorem acked_sends_whole_stream (config : Config) (stream : List Batch) (fails : Bool) (s : St)
    (hr : ((lts config stream fails).restrict KeepsBatches).Reachable s)
    (hack : s.pc = .returned .acked) :
    s.sentBatches.flatMap (·.rows) = stream.flatMap (·.rows) := by
  have hplace := ((inv_inductive config stream fails).reachable s hr).place
  simp only [Place, hack] at hplace
  rw [hplace]

/-- Two batches, sent in two chunks after a first attempt that lost its
connection during prepare. -/
def twoBatches : List Batch := [⟨[1], 8⟩, ⟨[2, 3], 16⟩]

def resentRun : List Lbl :=
  [.lost, .answer .ready, .poll, .poll, .send, .poll, .poll, .send, .send, .answer (.sinkAck true)]

theorem acked_sends_whole_stream_resent :
    ∃ s, ((lts ⟨1, 100⟩ twoBatches false).restrict KeepsBatches).Reachable s ∧
      s.pc = .returned .acked ∧ s.sentBatches.flatMap (·.rows) = [1, 2, 3] := by
  obtain ⟨s, hr, hack⟩ : ∃ s, ((lts ⟨1, 100⟩ twoBatches false).restrict KeepsBatches).Reachable s ∧
      s.pc = .returned .acked := exists_restrict_reachable resentRun rfl (by decide +kernel)
  exact ⟨s, hr, hack, acked_sends_whole_stream ⟨1, 100⟩ twoBatches false s hr hack⟩

/-- The stream yields one batch and then fails, inside the first `next_chunk`.
The retry finds the reader at its end and the sink acks an empty payload. -/
theorem retry_acks_short_payload :
    ∃ s, (lts ⟨10, 100⟩ [⟨[1], 8⟩] true).Reachable s ∧ s.pc = .returned .acked ∧
      s.sentBatches.flatMap (·.rows) = [] :=
  exists_reachable [.answer .ready, .poll, .poll, .answer .ready, .poll, .send, .send,
    .answer (.sinkAck true)] rfl (by decide +kernel)

end Skippr.L5.GroupedSink
