import Skippr.L11Sources.PostgresCdc

/-!
# Postgres CDC: the position reported to the server

At a commit `sync_cdc` reports its LSN through `update_applied_lsn`, then submits
the rows of the transaction and stores the checkpoint
(plugins/data_source/postgres/src/source.rs:578-583). Either may fail, and the
process may stop at any moment; the slot then resumes after the LSN reported.
-/
namespace Skippr.L11.Postgres

/-- A moment of a run. `reported` is what `update_applied_lsn` was last called
with; `committed` is a ghost, the rows of the commits reported. -/
structure Moment where
  st : St
  reported : Option UInt64
  committed : List IngestBatch

structure Received where
  event : ReplicationEvent
  submits : Bool
  stores : Bool

/-- The moments from `m` on, up to a failure or the end of the stream.
mirrors source.rs:475-589 -/
def moments (m : Moment) : List Received → List Moment
  | [] => [m]
  | ⟨.stoppedAt, _, _⟩ :: _ => [m]
  | ⟨.commit lsn, submits, stores⟩ :: rest =>
    let reported : Moment := ⟨m.st, some lsn, m.committed ++ m.st.pendingBatches⟩
    m :: reported ::
      -- `ingest_batches` of no rows returns at once
      if submits || m.st.pendingBatches.isEmpty then
        { reported with st := { onEvent m.st (.commit lsn) with checkpoint := m.st.checkpoint } } ::
          if stores then
            moments { reported with st := onEvent m.st (.commit lsn) } rest
          else []
      else []
  | ⟨e, _, _⟩ :: rest => m :: moments { m with st := onEvent m.st e } rest

def Moment.fresh (checkpoint : Option UInt64) : Moment :=
  ⟨{ start with checkpoint := checkpoint }, none, []⟩

def Stored (s : St) (lsn : UInt64) : Prop := ∃ c, s.checkpoint = some c ∧ lsn ≤ c

/-- Every commit the run gets to is at or below the checkpoint stored before it. -/
def Covered (s : St) : List Received → Prop
  | [] | ⟨.stoppedAt, _, _⟩ :: _ => True
  | ⟨.commit lsn, submits, stores⟩ :: rest =>
    Stored s lsn ∧ ((submits || s.pendingBatches.isEmpty) = true → stores = true →
      Covered (onEvent s (.commit lsn)) rest)
  | ⟨e, _, _⟩ :: rest => Covered (onEvent s e) rest

theorem checkpoint_onEvent (s : St) {e : ReplicationEvent} (h : ∀ lsn, e ≠ .commit lsn) :
    (onEvent s e).checkpoint = s.checkpoint := by
  cases e with
  | xLogData data walEnd =>
    simp only [onEvent]
    split
    · simp
    · rename_i msg _
      cases msg <;> simp only [onMessage, St.push] <;> (try split) <;> simp
  | commit lsn => exact absurd rfl (h lsn)
  | _ => simp [onEvent]

def Kept (m : Moment) : Prop := ∀ lsn, m.reported = some lsn → Stored m.st lsn

theorem kept_moments_iff : ∀ (rs : List Received) {m : Moment}, Kept m →
    ((∀ x ∈ moments m rs, Kept x) ↔ Covered m.st rs)
  | [], m, h => by simpa [moments, Covered] using h
  | ⟨e, submits, stores⟩ :: rest, m, h => by
    cases e with
    | stoppedAt => simpa [moments, Covered] using h
    | commit lsn =>
      -- The report is kept iff the commit is covered; once stored it is kept again.
      have hreport (s : St) (hs : s.checkpoint = m.st.checkpoint) (rows : List IngestBatch) :
          Kept ⟨s, some lsn, rows⟩ ↔ Stored m.st lsn := by
        simp [Kept, Stored, hs]
      have hstored : Kept ⟨onEvent m.st (.commit lsn), some lsn, m.committed ++ m.st.pendingBatches⟩ := by
        rintro _ ⟨⟩
        exact ⟨lsn, rfl, UInt64.le_refl lsn⟩
      simp only [moments, Covered, List.forall_mem_cons, h, true_and, hreport m.st rfl]
      refine and_congr_right fun hlsn => ?_
      split
      · rename_i hsubmits
        rw [List.forall_mem_cons, hreport { onEvent m.st (.commit lsn) with
          checkpoint := m.st.checkpoint } rfl]
        split
        · rename_i hstores
          simpa [hlsn, hsubmits, hstores] using kept_moments_iff rest hstored
        · rename_i hstores
          simp [hlsn, hstores]
      · rename_i hsubmits
        simp [hsubmits]
    | _ =>
      simp only [moments, Covered, List.forall_mem_cons, h, true_and]
      refine kept_moments_iff rest fun lsn hlsn => ?_
      rw [Stored, checkpoint_onEvent m.st (by simp)]
      exact h lsn hlsn

/-- **The LSN reported.** It is at most the checkpoint stored, at every moment of a
run, exactly if every commit the run gets to was covered before it came. -/
theorem reported_iff (checkpoint : Option UInt64) (rs : List Received) :
    (∀ m ∈ moments (.fresh checkpoint) rs, ∀ lsn, m.reported = some lsn → Stored m.st lsn) ↔
      Covered { start with checkpoint := checkpoint } rs :=
  kept_moments_iff rs nofun

def noteInserted : List Received :=
  (Transaction.events notes ⟨[(.relation, 10), (.change (.insert (note '1' ['a'])), 20)], 25⟩).map
    fun e => ⟨e, true, true⟩

/-- The moment after the report: a crash loses the row. -/
theorem reported_and_lost : ∃ m ∈ moments (.fresh none) noteInserted, m.reported = some 25 ∧
    ¬ Stored m.st 25 ∧ m.committed.length = 1 ∧ m.st.submitted = [] := by
  obtain ⟨m, hm, hreported, hnone, hrest⟩ : ∃ m ∈ moments (.fresh none) noteInserted,
      m.reported = some 25 ∧ m.st.checkpoint = none ∧ m.committed.length = 1 ∧
        m.st.submitted = [] := by decide +kernel
  exact ⟨m, hm, hreported, by simp [Stored, hnone], hrest⟩

end Skippr.L11.Postgres
