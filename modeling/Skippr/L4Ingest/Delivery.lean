import Skippr.L4Ingest.Encode

/-!
# Every admitted record in one place

For a record that the call admits and the transform ops keep, `process_batch`
should leave exactly one row or one deadletter record, or fail the request
without committing the offset of the record's key (`Outcome.Settled`).
-/
namespace Skippr.L4.Ingest

open Skippr.L1 Skippr.L2

namespace Outcome

def rows (o : Outcome) : List Rec := (o.unit.getD []).flatMap (·.payload.flatten)

def deadletters (o : Outcome) : List DeadletterRecord :=
  (o.unit.getD []).flatMap (·.deadletters)

def places (o : Outcome) (r : Rec) : Nat := o.rows.count r + o.deadletters.countP (·.isOf r)

/-- An offset of the key is written, or in the unit that will be. -/
def Commits (o : Outcome) (key : OffsetKey) : Prop :=
  key ∈ o.hints.map (·.1) ∨ ∃ b ∈ o.unit.getD [], b.offsets.get key ≠ none

/-- The record is in one place, or the request failed with its offset as it was. -/
def Settled (o : Outcome) (r : Rec) (key : OffsetKey) : Prop :=
  o.places r = 1 ∨ o.failed = true ∧ ¬o.Commits key

end Outcome

variable {env : Env} {k : PartitionKey} {steps : List Step} {s : Step} {r : Rec}

/-! ## Conditions on the steps -/

def HasDeadletters (env : Env) (steps : List Step) : Prop :=
  steps.flatMap (·.deadletters env) ≠ [] ∨ ∃ k, rejectedAt env steps k ≠ []

/-- The key of the deadletter batch, if it is built. -/
def deadletterBatchKey (env : Env) : Option PartitionKey :=
  if env.buildDeadletters then env.deadletterSink.map (deadletterKey env) else none

/-- The deadletter batch takes the place of the partition's buffer. -/
def Replaced (env : Env) (steps : List Step) (k : PartitionKey) : Prop :=
  HasDeadletters env steps ∧ deadletterBatchKey env = some k

/-- Deadletter offsets are published as hints, without a batch. -/
def HintsDue (env : Env) (steps : List Step) : Prop :=
  HasDeadletters env steps ∧ deadletterBatchKey env = none

/-- The hint of a key is written: the ones before it and its own succeed. -/
def Hinted (env : Env) (steps : List Step) (key : OffsetKey) : Prop :=
  HintsDue env steps ∧ env.walHandle = true ∧ DeadletterKey env steps key ∧
    ∀ key', DeadletterKey env steps key' →
      env.order .deadletters key' ≤ env.order .deadletters key → env.hintOk key' = true

/-- The request fails after encoding: a hint is not written, a schema is not
synced, or the writer refuses the unit. -/
def FailsLate (env : Env) (steps : List Step) : Prop :=
  (HintsDue env steps ∧ ∃ key, DeadletterKey env steps key ∧
      (env.walHandle = false ∨ env.hintOk key = false)) ∨
    (∃ k, steps.flatMap (·.tracks env k) ≠ [] ∧ isDeadletterNs k.ns = false ∧
      env.schemaSynced k.ns = false) ∨
    (env.submitOk = false ∧
      ((∃ k, steps.flatMap (·.tracks env k) ≠ []) ∨
        HasDeadletters env steps ∧ deadletterBatchKey env ≠ none))

/-- A unit that is handed over has what went to this destination. -/
def Arrives (env : Env) (steps : List Step) : Dest → Prop
  | .partition k => Merges env steps k ∧ ¬Replaced env steps k
  | .deadletter => deadletterBatchKey env ≠ none
  | .nowhere => False

def Delivered (env : Env) (steps : List Step) (r : Rec) : Prop :=
  ∃ s ∈ steps, r ∈ s.recs ∧ Arrives env steps (dest env steps s)

/-! ## Where a record lands -/

/-- The rows and deadletter records that a destination makes. -/
structure Lands (env : Env) (steps : List Step) (r : Rec) (d : Dest) : Prop where
  rows : ∀ q : PartitionKey → Bool,
    (((encodedBuf env steps).filter (q ·.1)).flatMap (·.2.payload.flatten)).count r =
      match d with
      | .partition k => if q k ∧ Merges env steps k then 1 else 0
      | _ => 0
  deadletters : (deadlettersOf env steps).countP (·.isOf r) = if d = .deadletter then 1 else 0

theorem rejected_tracked (h : rejectedAt env steps k ≠ []) : k ∈ bufKeys env steps := by
  rw [mem_bufKeys]
  obtain ⟨l, hl⟩ := List.exists_mem_of_ne_nil _ h
  have hl := (bisectSerialize_perm (env.serialize k) (steps.flatMap (·.legacy env k))).subset
    (List.mem_append_right _ hl)
  obtain ⟨s, hs, hl⟩ := List.mem_flatMap.mp hl
  cases s with
  | row r value b pos =>
    refine List.ne_nil_of_mem (a := b.offsetKey) (List.mem_flatMap.mpr ⟨_, hs, ?_⟩)
    rw [Step.legacy] at hl
    rw [Step.tracks]
    cases hroute : route env r value b with
    | legacy key v =>
      simp only [hroute] at hl
      split at hl
      · simp [*]
      · cases hl
    | _ =>
      rw [hroute] at hl
      cases hl
  | _ => cases hl

theorem deadlettersOf_ne_nil : deadlettersOf env steps ≠ [] ↔ HasDeadletters env steps := by
  unfold deadlettersOf HasDeadletters
  constructor
  · intro h
    by_contra hno
    rw [not_or, not_exists, not_not] at hno
    exact h (by simpa [hno.1] using fun k _ => not_not.mp (hno.2 k))
  · rintro (h | ⟨k, h⟩)
    · simp [h]
    · intro hnil
      have hflat := (List.append_eq_nil_iff.mp hnil).2
      have := List.flatMap_eq_nil_iff.mp hflat k (rejected_tracked h)
      exact h (by simpa using this)

/-! ## Hints -/

theorem mem_iterate (env : Env) (m : OffsetMap) (offsets : Offsets) (key : OffsetKey) :
    key ∈ env.iterate m offsets ↔ offsets.get key ≠ none := by
  rw [Env.iterate, List.mem_mergeSort, Map.mem_keys_iff]

theorem mem_publishHints (offsets : Offsets) (key : OffsetKey) :
    key ∈ (publishHints env offsets).1.map (·.1) ↔ env.walHandle = true ∧ offsets.get key ≠ none ∧
      ∀ key', offsets.get key' ≠ none →
        env.order .deadletters key' ≤ env.order .deadletters key → env.hintOk key' = true := by
  simp only [publishHints]
  split
  · rename_i hnil
    have : offsets.get key = none := by
      by_contra h
      rw [← Ne, ← mem_iterate env .deadletters, hnil] at h
      cases h
    simp [this]
  · split
    · rename_i hwal
      rw [List.map_map, Env.iterate]
      simp only [Function.comp_def, List.map_id']
      rw [mem_takeWhile_mergeSort (env.order_injective _) (AList.keys_nodup _)]
      simp only [Map.mem_keys_iff, hwal, true_and]
    · rename_i hwal
      simp [hwal]

theorem publishHints_failed (offsets : Offsets) :
    (publishHints env offsets).2 = false ↔
      ∃ key, offsets.get key ≠ none ∧ (env.walHandle = false ∨ env.hintOk key = false) := by
  simp only [publishHints, ← mem_iterate env .deadletters]
  split
  · rename_i hnil
    simp [hnil]
  · rename_i hne
    split
    · rename_i hwal
      simp [hwal]
    · rename_i hwal
      obtain ⟨key, hkey⟩ := List.exists_mem_of_ne_nil _ hne
      refine ⟨fun _ => ⟨key, hkey, .inl (by simpa using hwal)⟩, fun _ => rfl⟩

/-! ## Deadletters and the commit -/

section Commit
variable {e : Encoded} (h : encodeAll env (gather env steps) = some e)
include h

theorem commit_none (hno : ¬HasDeadletters env steps) :
    commitDeadletters env e = ⟨encodedBuf env steps, [], [], true⟩ := by
  obtain ⟨hbuf, hdl, -⟩ := encodeAll_some h
  rw [← deadlettersOf_ne_nil, not_not] at hno
  rw [commitDeadletters, if_pos (hdl.trans hno), hbuf]

theorem commit_batch (hdl : HasDeadletters env steps) {dk : PartitionKey}
    (hdk : deadletterBatchKey env = some dk) :
    commitDeadletters env e =
      ⟨(dk, ⟨e.deadletterOffsets, tableName env, [], deadlettersOf env steps⟩) ::
        (encodedBuf env steps).filter (·.1 ≠ dk), [], [], true⟩ := by
  obtain ⟨hbuf, hdls, -⟩ := encodeAll_some h
  rw [← deadlettersOf_ne_nil, ← hdls] at hdl
  unfold deadletterBatchKey at hdk
  split at hdk
  swap
  · cases hdk
  rename_i hbuild
  obtain ⟨sink, hsink, rfl⟩ := Option.map_eq_some_iff.mp hdk
  rw [commitDeadletters, if_neg hdl, hsink]
  simp only [if_pos hbuild, hbuf, hdls]

theorem commit_hints (hdue : HintsDue env steps) :
    commitDeadletters env e =
      ⟨encodedBuf env steps, (publishHints env e.deadletterOffsets).1,
        if env.deadletterSink = none then deadlettersOf env steps else [],
        (publishHints env e.deadletterOffsets).2⟩ := by
  obtain ⟨hbuf, hdls, -⟩ := encodeAll_some h
  obtain ⟨hdl, hnone⟩ := hdue
  rw [← deadlettersOf_ne_nil, ← hdls] at hdl
  unfold deadletterBatchKey at hnone
  rw [commitDeadletters, if_neg hdl]
  cases hsink : env.deadletterSink with
  | none => simp [hbuf, hdls]
  | some sink =>
    have hbuild : env.buildDeadletters = false := by simpa [hsink] using hnone
    simp [hbuild, hbuf]

end Commit

def Refused (env : Env) (c : Committed) : Prop :=
  c.ok = false ∨ (∃ x ∈ c.buf, isDeadletterNs x.2.ns = false ∧ env.schemaSynced x.2.ns = false) ∨
    (c.buf ≠ [] ∧ env.submitOk = false)

theorem submit_cases (env : Env) (c : Committed) :
    (submit env c).hints = c.hints ∧
      (Refused env c ∧ (submit env c).failed = true ∧ (submit env c).unit = none ∨
        ¬Refused env c ∧ (submit env c).failed = false ∧
          (submit env c).unit.getD [] = c.buf.map (·.2)) := by
  unfold submit Refused
  split
  · rename_i hok
    exact ⟨rfl, .inl ⟨.inl hok, rfl, rfl⟩⟩
  rename_i hok
  split
  · rename_i hsync
    obtain ⟨x, hx, hns⟩ := List.any_eq_true.mp hsync
    exact ⟨rfl, .inl ⟨.inr (.inl ⟨x, hx, by simpa using hns⟩), rfl, rfl⟩⟩
  rename_i hsync
  have hsynced : ¬∃ x ∈ c.buf, isDeadletterNs x.2.ns = false ∧ env.schemaSynced x.2.ns = false := by
    rintro ⟨x, hx, hns⟩
    exact hsync (List.any_eq_true.mpr ⟨x, hx, by simpa using hns⟩)
  split
  · rename_i hnil
    refine ⟨rfl, .inr ⟨?_, rfl, by simp [hnil]⟩⟩
    rintro (h | h | h)
    · exact hok h
    · exact hsynced h
    · exact h.1 hnil
  rename_i hne
  split
  · rename_i hsubmit
    refine ⟨rfl, .inr ⟨?_, rfl, rfl⟩⟩
    simp only [hok, hsynced, hsubmit, false_or]
    simp
  · rename_i hsubmit
    exact ⟨rfl, .inl ⟨.inr (.inr ⟨hne, by simpa using hsubmit⟩), rfl, rfl⟩⟩

structure CommitSpec (env : Env) (steps : List Step) (c : Committed) : Prop where
  hints : ∀ key, key ∈ c.hints.map (·.1) ↔ Hinted env steps key
  refused : Refused env c ↔ FailsLate env steps
  arrives : ∀ r d, Lands env steps r d →
    ((c.buf.flatMap (·.2.payload.flatten)).count r +
        (c.buf.flatMap (·.2.deadletters)).countP (·.isOf r) = 1 ↔ Arrives env steps d)

theorem mem_encodedBuf_iff (env : Env) (steps : List Step) (k : PartitionKey) :
    (∃ x ∈ encodedBuf env steps, x.1 = k) ↔ steps.flatMap (·.tracks env k) ≠ [] := by
  rw [← mem_bufKeys, ← encodedBuf_keys, List.mem_map]

theorem entry_of_mem {x : PartitionKey × BufferBatch} (hx : x ∈ encodedBuf env steps) :
    x.2.ns = x.1.ns ∧ x.2.deadletters = [] := by
  obtain ⟨e, he, hx2⟩ := mem_encodedBuf hx
  have h := buf_gather env steps x.1
  rw [he] at h
  cases h with
  | some _ hns _ hdl => exact hx2 ▸ ⟨hns, hdl⟩

theorem encodedBuf_deadletters (env : Env) (steps : List Step)
    (q : PartitionKey × BufferBatch → Bool) :
    ((encodedBuf env steps).filter q).flatMap (·.2.deadletters) = [] := by
  rw [List.flatMap_eq_nil_iff]
  exact fun x hx => (entry_of_mem (List.mem_filter.mp hx).1).2

theorem encodedBuf_ne_nil :
    encodedBuf env steps ≠ [] ↔ ∃ k, steps.flatMap (·.tracks env k) ≠ [] := by
  constructor
  · intro h
    obtain ⟨x, hx⟩ := List.exists_mem_of_ne_nil _ h
    exact ⟨x.1, (mem_encodedBuf_iff env steps x.1).mp ⟨x, hx, rfl⟩⟩
  · rintro ⟨k, hk⟩
    obtain ⟨x, hx, -⟩ := (mem_encodedBuf_iff env steps k).mpr hk
    exact List.ne_nil_of_mem hx

theorem unsynced_iff (env : Env) (steps : List Step) (q : PartitionKey → Bool)
    (hq : ∀ k, isDeadletterNs k.ns = false → q k = true) :
    (∃ x ∈ (encodedBuf env steps).filter (q ·.1),
        isDeadletterNs x.2.ns = false ∧ env.schemaSynced x.2.ns = false) ↔
      ∃ k, steps.flatMap (·.tracks env k) ≠ [] ∧ isDeadletterNs k.ns = false ∧
        env.schemaSynced k.ns = false := by
  constructor
  · rintro ⟨x, hx, hns, hsync⟩
    have hx := (List.mem_filter.mp hx).1
    rw [(entry_of_mem hx).1] at hns hsync
    exact ⟨x.1, (mem_encodedBuf_iff env steps x.1).mp ⟨x, hx, rfl⟩, hns, hsync⟩
  · rintro ⟨k, hk, hns, hsync⟩
    obtain ⟨x, hx, rfl⟩ := (mem_encodedBuf_iff env steps k).mpr hk
    refine ⟨x, List.mem_filter.mpr ⟨hx, hq x.1 hns⟩, ?_⟩
    rw [(entry_of_mem hx).1]
    exact ⟨hns, hsync⟩

theorem isDeadletterNs_tableName (env : Env) : isDeadletterNs (tableName env) = true := by
  simp [isDeadletterNs, tableName]

theorem deadletterBatchKey_ns {dk : PartitionKey} (h : deadletterBatchKey env = some dk) :
    dk.ns = tableName env := by
  obtain ⟨-, h⟩ := Option.ite_none_right_eq_some.1 h
  obtain ⟨sink, -, rfl⟩ := Option.map_eq_some_iff.mp h
  rfl

theorem Lands.allRows {d : Dest} (h : Lands env steps r d) :
    ((encodedBuf env steps).flatMap (·.2.payload.flatten)).count r =
      match d with
      | .partition k => if Merges env steps k then 1 else 0
      | _ => 0 := by
  have := h.rows fun _ => true
  rw [List.filter_true] at this
  rw [this]
  cases d <;> simp

theorem encodedBuf_deadletters_all : (encodedBuf env steps).flatMap (·.2.deadletters) = [] := by
  have := encodedBuf_deadletters env steps fun _ => true
  rwa [List.filter_true] at this

theorem unsynced_all :
    (∃ x ∈ encodedBuf env steps, isDeadletterNs x.2.ns = false ∧ env.schemaSynced x.2.ns = false) ↔
      ∃ k, steps.flatMap (·.tracks env k) ≠ [] ∧ isDeadletterNs k.ns = false ∧
        env.schemaSynced k.ns = false := by
  have := unsynced_iff env steps (fun _ => true) fun _ _ => rfl
  rwa [List.filter_true] at this

theorem commitSpec_none (hno : ¬HasDeadletters env steps) :
    CommitSpec env steps ⟨encodedBuf env steps, [], [], true⟩ := by
  have hnodl : deadlettersOf env steps = [] := by
    by_contra h
    exact hno (deadlettersOf_ne_nil.mp h)
  have hd : ∀ r d, Lands env steps r d → d ≠ .deadletter := by
    intro r d hlands hd
    have := hlands.deadletters
    rw [hnodl, if_pos hd] at this
    cases this
  refine ⟨fun key => ?_, ?_, fun r d hlands => ?_⟩
  · simp [Hinted, HintsDue, hno]
  · unfold Refused FailsLate HintsDue
    rw [unsynced_all, encodedBuf_ne_nil]
    simp [hno, and_comm]
  · rw [hlands.allRows, encodedBuf_deadletters_all]
    cases d with
    | partition k => simp [Arrives, Replaced, hno]
    | deadletter => exact absurd rfl (hd r _ hlands)
    | nowhere => simp [Arrives]

theorem commitSpec_batch (hdl : HasDeadletters env steps) {dk : PartitionKey}
    (hdk : deadletterBatchKey env = some dk) (offsets : Offsets) :
    CommitSpec env steps
      ⟨(dk, ⟨offsets, tableName env, [], deadlettersOf env steps⟩) ::
        (encodedBuf env steps).filter (·.1 ≠ dk), [], [], true⟩ := by
  have hns := deadletterBatchKey_ns hdk
  -- The schema barrier never asks for the namespace of the deadletter batch.
  have hq : ∀ k : PartitionKey, isDeadletterNs k.ns = false → decide (k ≠ dk) = true := by
    intro k hk
    rw [decide_eq_true_eq]
    rintro rfl
    rw [hns, isDeadletterNs_tableName] at hk
    cases hk
  refine ⟨fun key => ?_, ?_, fun r d hlands => ?_⟩
  · simp [Hinted, HintsDue, hdk]
  · unfold Refused FailsLate HintsDue
    rw [← unsynced_iff env steps _ hq]
    simp [isDeadletterNs_tableName, hdl, hdk]
  · have hrows := hlands.rows fun k => k ≠ dk
    simp only [List.flatMap_cons, List.flatten_nil, List.nil_append, hrows,
      encodedBuf_deadletters, List.append_nil, hlands.deadletters]
    cases d with
    | partition k =>
      have hreplaced : Replaced env steps k ↔ k = dk :=
        ⟨fun h => Option.some.inj (h.2.symm.trans hdk), fun h => ⟨hdl, h ▸ hdk⟩⟩
      simp [Arrives, hreplaced, and_comm]
    | deadletter => simp [Arrives, hdk]
    | nowhere => simp [Arrives]

theorem commitSpec_hints (hdue : HintsDue env steps) {e : Encoded}
    (h : encodeAll env (gather env steps) = some e) :
    CommitSpec env steps
      ⟨encodedBuf env steps, (publishHints env e.deadletterOffsets).1,
        if env.deadletterSink = none then deadlettersOf env steps else [],
        (publishHints env e.deadletterOffsets).2⟩ := by
  have hnone := hdue.2
  refine ⟨fun key => ?_, ?_, fun r d hlands => ?_⟩
  · rw [mem_publishHints]
    simp only [deadletterKey_iff h, Hinted, hdue, true_and]
  · unfold Refused FailsLate
    rw [unsynced_all, encodedBuf_ne_nil, publishHints_failed]
    simp only [deadletterKey_iff h, hdue, true_and, hnone, ne_eq, not_true_eq_false, false_and,
      or_false, and_comm]
  · rw [hlands.allRows, encodedBuf_deadletters_all]
    cases d with
    | partition k => simp [Arrives, Replaced, hnone]
    | nowhere => simp [Arrives]
    | deadletter => simp [Arrives, hnone]

theorem commitSpec {e : Encoded} (h : encodeAll env (gather env steps) = some e) :
    CommitSpec env steps (commitDeadletters env e) := by
  by_cases hdl : HasDeadletters env steps
  · cases hdk : deadletterBatchKey env with
    | some dk =>
      rw [commit_batch h hdl hdk]
      exact commitSpec_batch hdl hdk _
    | none =>
      rw [commit_hints h ⟨hdl, hdk⟩]
      exact commitSpec_hints ⟨hdl, hdk⟩ h
  · rw [commit_none h hdl]
    exact commitSpec_none hdl

/-! ## The whole call -/

/-- The call stops before anything is written: it is not ready, an offset or the
CDC metadata cannot be used, or the transform ops fail. -/
def Stops (env : Env) (datas : List IngestBatch) : Prop :=
  env.ready = false ∨ callSteps env 0 datas = none ∨
    ∃ steps, callSteps env 0 datas = some steps ∧ OpsStop env steps

/-- What it takes to settle a record. A call that stops leaves it as it was. If
the request fails later, no hint of its key was written; otherwise it has to
arrive where its encoder put it, and is not discarded for want of a sink. -/
def Settles (env : Env) (datas : List IngestBatch) (r : Rec) (key : OffsetKey) : Prop :=
  Stops env datas ∨ ∃ steps, callSteps env 0 datas = some steps ∧
    (FailsLate env steps → ¬Hinted env steps key) ∧ (¬FailsLate env steps → Delivered env steps r)

variable {datas : List IngestBatch}

theorem processBatch_of_stops (h : Stops env datas) : processBatch env datas = .abort := by
  unfold processBatch
  rcases h with h | h | ⟨steps, h, hstop⟩
  · rw [if_pos h]
  · rw [h]
    exact ite_self _
  · rw [h]
    simp only [encodeAll_eq_none.mpr hstop]
    exact ite_self _

theorem processBatch_of_steps (hno : ¬Stops env datas) (hsteps : callSteps env 0 datas = some steps) :
    ∃ e, encodeAll env (gather env steps) = some e ∧
      processBatch env datas = submit env (commitDeadletters env e) := by
  have hready : env.ready ≠ false := fun h => hno (.inl h)
  have hops : ¬OpsStop env steps := fun h => hno (.inr (.inr ⟨steps, hsteps, h⟩))
  cases he : encodeAll env (gather env steps) with
  | none => exact absurd (encodeAll_eq_none.mp he) hops
  | some e =>
    refine ⟨e, rfl, ?_⟩
    rw [processBatch, if_neg hready, hsteps]
    simp only [he]

theorem exists_lands (hnd : (steps.flatMap Step.recs).Nodup) (hkeep : env.opsKeep r = true) :
    ∃ d, Lands env steps r d ∧ (Delivered env steps r ↔ Arrives env steps d) := by
  by_cases hr : r ∈ steps.flatMap Step.recs
  · obtain ⟨s, hs, hrs⟩ := List.mem_flatMap.mp hr
    have hunique : ∀ s' ∈ steps, r ∈ s'.recs → s' = s := by
      intro s' hs' hrs'
      by_contra hne
      have : Std.Symm (Function.onFun List.Disjoint Step.recs) := ⟨fun _ _ h _ hr hr' => h hr' hr⟩
      exact (List.nodup_flatMap.mp hnd).2.forall hs' hs hne hrs' hrs
    refine ⟨dest env steps s, ⟨count_rows hnd hs hrs hkeep,
      count_deadletters hnd hs hrs env (Map.nodup_toList _) fun _ => mem_bufKeys⟩, ?_⟩
    constructor
    · rintro ⟨s', hs', hrs', h⟩
      exact hunique s' hs' hrs' ▸ h
    · exact fun h => ⟨s, hs, hrs, h⟩
  · have hnone : ∀ s ∈ steps, r ∉ s.recs := fun s hs h => hr (List.mem_flatMap.mpr ⟨s, hs, h⟩)
    refine ⟨.nowhere, ⟨count_rows_absent hr hkeep, deadletters_absent hr env _⟩, ?_, False.elim⟩
    rintro ⟨s, hs, hrs, -⟩
    exact hnone s hs hrs

theorem settled_of_steps (hno : ¬Stops env datas) (hsteps : callSteps env 0 datas = some steps)
    (hkeep : env.opsKeep r = true) (key : OffsetKey) :
    (processBatch env datas).Settled r key ↔
      (FailsLate env steps → ¬Hinted env steps key) ∧
        (¬FailsLate env steps → Delivered env steps r) := by
  obtain ⟨e, he, hcall⟩ := processBatch_of_steps hno hsteps
  have hspec := commitSpec he
  obtain ⟨d, hlands, hdelivered⟩ := exists_lands (nodup_callSteps hsteps).1 hkeep
  have harrives := hspec.arrives r d hlands
  rw [hcall, hdelivered, ← harrives, ← hspec.hints, ← hspec.refused]
  unfold Outcome.Settled Outcome.places Outcome.rows Outcome.deadletters Outcome.Commits
  obtain ⟨hhints, ⟨href, hfailed, hunit⟩ | ⟨href, hfailed, hunit⟩⟩ :=
    submit_cases env (commitDeadletters env e)
  · rw [hhints, hfailed, hunit]
    simp [href]
  · rw [hhints, hfailed, hunit]
    simp [href, List.flatMap_map]

theorem failed_iff (hno : ¬Stops env datas) (hsteps : callSteps env 0 datas = some steps) :
    (processBatch env datas).failed = true ↔ FailsLate env steps := by
  obtain ⟨e, he, hcall⟩ := processBatch_of_steps hno hsteps
  rw [hcall, ← (commitSpec he).refused]
  obtain ⟨-, ⟨href, hfailed, -⟩ | ⟨href, hfailed, -⟩⟩ :=
    submit_cases env (commitDeadletters env e)
  · simp [href, hfailed]
  · simp [href, hfailed]

/-! ## Admitted records -/

def admittedItems (i : Nat) (b : IngestBatch) (snapshot : Option OffsetValue)
    (values : List (Except String Json)) : List Rec :=
  (flattenItems 0 values).filterMap fun
    | .row line _ =>
      if shouldIngestAtOffset snapshot b.isCdc b.trackPosition (b.offsetPosForLine line) then
        some ⟨i, line⟩
      else none
    | _ => none

def admittedBatch (env : Env) (i : Nat) (b : IngestBatch) : List Rec :=
  match snapshotValue env.store b.offsetKey with
  | .error _ => []
  | .ok snapshot =>
    match b.data with
    | .lines lines => admittedItems i b snapshot lines
    | .rows records => admittedItems i b snapshot (records.map .ok)
    | .arrow batches =>
      if env.flatten then
        match env.toJson i with
        | .error _ => []
        | .ok records => admittedItems i b snapshot (records.map .ok)
      else if shouldIngestAtOffset snapshot b.isCdc b.trackPosition (arrowPos b batches) then
        arrowRows i 0 batches.sum
      else []
    | .error _ _ => []

def admitted (env : Env) (datas : List IngestBatch) : List (Rec × OffsetKey) :=
  datas.zipIdx.flatMap fun b => (admittedBatch env b.2 b.1).map (·, b.1.offsetKey)

/-- A table whose second column takes numbers. Records it does not take go to
the next schema version; everything else succeeds. -/
def Env.sample : Env where
  ready := true
  store := ∅
  sink := ['s']
  deadletterSink := none
  pipelineName := ['p']
  deadletterTime := 0
  flatten := false
  inject := id
  toJson := fun _ => .ok []
  coerce := fun _ _ => .ok ⟨['s'], ['n'], [], none, ['1']⟩
  answers := fun _ => ⟨['n'], [], none, true, true, ['1'], none,
    .ok (.obj [(['a'], .str ['x'])]), ['2']⟩
  plan := fun _ _ => ⟨true, fun _ => true,
    [fun _ => true, fun | .obj [(_, .num _)] => true | _ => false], by simp⟩
  typed := fun _ => true
  serialize := fun _ _ => true
  concat := fun _ => true
  opsFail := fun _ => false
  opsKeep := fun _ => true
  buildDeadletters := true
  walHandle := true
  hintOk := fun _ => true
  order := fun _ key => Nat.pair (textRank key.ns) (textRank key.part)
  order_injective := by
    intro m a b h
    obtain ⟨hns, hpart⟩ := Nat.pair_eq_pair.mp h
    cases a
    cases b
    simp_all [textRank_injective.eq_iff]
  schemaSynced := fun _ => true
  submitOk := true

def sampleBatch (lines : List Json) : IngestBatch :=
  ⟨⟨['d'], ['f']⟩, .lines (lines.map fun v => .ok (.obj [(['a'], v)])), none, none⟩

end Skippr.L4.Ingest
