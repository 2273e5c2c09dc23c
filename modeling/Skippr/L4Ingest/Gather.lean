import Skippr.L4Ingest.ProcessBatch

/-!
# What a call gathers, step by step

The loop of `process_batch` fills four maps. What it put into them at a
partition is read off the steps alone: the encoder that takes a record does not
depend on the records before it (`Route`), only whether the exact builders of
its partition still finish does (`torn`).
-/
namespace Skippr.L4.Ingest

open Skippr.L1 Skippr.L2

/-! ## Routes -/

def planAt (env : Env) (key : PartitionKey) : Plan := env.plan key.ns key.schemaHash

def offered (env : Env) (r : Rec) (b : IngestBatch) : Bool :=
  let a := env.answers r
  !b.isCdc && a.metadata && a.planned && (planAt env (exactKey env a)).buildable

def verdict (env : Env) (r : Rec) (value : Json) : Append :=
  (planAt env (exactKey env (env.answers r))).append (env.inject value)

inductive Route
  | exact (key : PartitionKey)
  | legacy (key : PartitionKey) (value : Json)
  | deadletter (code error : String)
  | dropped

def route (env : Env) (r : Rec) (value : Json) (b : IngestBatch) : Route :=
  if offered env r b ∧ verdict env r value = .done then .exact (exactKey env (env.answers r))
  else match normalize (env.answers r) with
    | .error e => .deadletter e.1 e.2
    | .ok v => if v.isNull then .dropped else .legacy (legacyKey env (env.answers r)) v

namespace Step

def recs : Step → List Rec
  | .deadletter d _ => match d.origin with
    | .record r => [r]
    | .payload _ => []
  | .row r _ _ _ => [r]
  | .arrow _ _ _ rows => rows

def exactRows (env : Env) (k : PartitionKey) : Step → List Rec
  | .row r value b _ => match route env r value b with
    | .exact key => if key = k then [r] else []
    | _ => []
  | _ => []

def breaks (env : Env) (k : PartitionKey) : Step → Bool
  | .row r value b _ =>
    offered env r b && exactKey env (env.answers r) = k && verdict env r value = .broken
  | _ => false

def legacy (env : Env) (k : PartitionKey) : Step → List LegacyRecord
  | .row r value b pos => match route env r value b with
    | .legacy key v => if key = k then [⟨r, v, pos⟩] else []
    | _ => []
  | _ => []

def batches (k : PartitionKey) : Step → List (List Rec)
  | .arrow key _ _ rows => if key = k then [rows] else []
  | _ => []

def tracks (env : Env) (k : PartitionKey) : Step → List OffsetKey
  | .row r value b _ => match route env r value b with
    | .exact key => if key = k then [b.offsetKey] else []
    | .legacy key _ => if key = k then [b.offsetKey] else []
    | _ => []
  | .arrow key ok _ _ => if key = k then [ok] else []
  | _ => []

def deadletters (env : Env) : Step → List DeadletterRecord
  | .deadletter d _ => [d]
  | .row r value b pos => match route env r value b with
    | .deadletter code error => [⟨.record r, .slowPath code, error, pos⟩]
    | _ => []
  | _ => []

def deadletterKeys (env : Env) : Step → List OffsetKey
  | .deadletter _ offset => offset.toList.map (·.1)
  | .row r value b _ => match route env r value b with
    | .deadletter _ _ => [b.offsetKey]
    | _ => []
  | _ => []

end Step

/-- A record was left half appended after the first exact row of a partition. -/
def torn (env : Env) (k : PartitionKey) (steps : List Step) : Bool :=
  (steps.dropWhile fun s => (s.exactRows env k).isEmpty).any (·.breaks env k)

variable {env : Env} {k : PartitionKey} {steps : List Step} {s : Step}

theorem flatMap_snoc {β : Type} (f : Step → List β) (steps : List Step) (s : Step) :
    (steps ++ [s]).flatMap f = steps.flatMap f ++ f s := by
  simp

theorem gather_append (env : Env) (steps : List Step) (s : Step) :
    gather env (steps ++ [s]) = applyStep env (gather env steps) s := by
  rw [gather, List.foldl_append]
  rfl

/-! ## The exact builders -/

theorem exactRows_row (env : Env) (k : PartitionKey) (r : Rec) (value : Json) (b : IngestBatch)
    (pos : UInt64) :
    (Step.row r value b pos).exactRows env k =
      if (offered env r b ∧ verdict env r value = .done) ∧ exactKey env (env.answers r) = k then [r]
      else [] := by
  unfold Step.exactRows route
  by_cases h : offered env r b ∧ verdict env r value = .done
  · simp [h]
  · simp only [h, false_and, if_false]
    cases normalize (env.answers r) with
    | error e => rfl
    | ok v => cases hv : v.isNull <;> simp [hv]

theorem breaks_of_exactRows (h : s.exactRows env k ≠ []) : s.breaks env k = false := by
  cases s with
  | deadletter d offset => rfl
  | arrow key ok pos rows => rfl
  | row r value b pos =>
    rw [exactRows_row] at h
    split at h
    · rename_i hdone
      simp [Step.breaks, hdone.1.2]
    · exact absurd rfl h

theorem torn_append (env : Env) (k : PartitionKey) (steps : List Step) (s : Step) :
    torn env k (steps ++ [s]) =
      (torn env k steps || (!(steps.flatMap (·.exactRows env k)).isEmpty && s.breaks env k)) := by
  have hempty : (steps.flatMap (·.exactRows env k)).isEmpty =
      (steps.dropWhile fun s => (s.exactRows env k).isEmpty).isEmpty := by
    rw [Bool.eq_iff_iff]
    simp [List.isEmpty_iff, List.dropWhile_eq_nil_iff]
  unfold torn
  rw [hempty, List.dropWhile_append]
  cases hd : (steps.dropWhile fun s => (s.exactRows env k).isEmpty) with
  | cons x xs => simp [Bool.or_assoc]
  | nil =>
    by_cases hs : s.exactRows env k = []
    · simp [hs]
    · simp [hs, breaks_of_exactRows hs]

theorem torn_of_empty (h : steps.flatMap (·.exactRows env k) = []) : torn env k steps = false := by
  have hdrop : (steps.dropWhile fun s => (s.exactRows env k).isEmpty) = [] := by
    rw [List.dropWhile_eq_nil_iff]
    intro s hs
    simpa using List.flatMap_eq_nil_iff.mp h s hs
  rw [torn, hdrop]
  rfl

inductive ExactAt (env : Env) (k : PartitionKey) (steps : List Step) : Option Builders → Prop
  | empty (hrows : steps.flatMap (·.exactRows env k) = []) : ExactAt env k steps none
  | filled (b : Builders) (hbuild : (planAt env k).buildable = true)
      (hrows : b.rows = steps.flatMap (·.exactRows env k)) (hne : b.rows ≠ [])
      (hstate : torn env k steps = false ∧ b.Whole (planAt env k) ∨
        torn env k steps = true ∧ b.Torn (planAt env k)) : ExactAt env k steps (some b)

namespace ExactAt
variable {o : Option Builders}

theorem skip (h : ExactAt env k steps o) (hrows : s.exactRows env k = [])
    (hbreaks : o ≠ none → s.breaks env k = false) : ExactAt env k (steps ++ [s]) o := by
  cases h with
  | empty he => exact .empty (by simp [he, hrows])
  | filled b hbuild hb hne hstate =>
    refine .filled b hbuild (by simp [hb, hrows]) hne ?_
    simpa [torn_append, hbreaks] using hstate

theorem done {r : Rec} (h : ExactAt env k steps o) (hbuild : (planAt env k).buildable = true)
    (hrows : s.exactRows env k = [r]) :
    ExactAt env k (steps ++ [s]) (some
      ⟨(o.getD (.new (planAt env k))).columns.map (· ++ [r]),
        (o.getD (.new (planAt env k))).rows ++ [r]⟩) := by
  have hbreaks : s.breaks env k = false := breaks_of_exactRows (by simp [hrows])
  cases h with
  | empty he =>
    refine .filled _ hbuild (by simp [he, hrows, Builders.new]) (by simp) (.inl ⟨?_, ?_⟩)
    · rw [torn_append, torn_of_empty he, hbreaks]
      simp
    · exact (Builders.whole_new _).done r
  | filled b _ hb _ hstate =>
    refine .filled _ hbuild (by simp [hb, hrows]) (by simp) ?_
    rw [torn_append, hbreaks, Bool.and_false, Bool.or_false]
    exact hstate.imp (fun h => ⟨h.1, h.2.done r⟩) fun h => ⟨h.1, h.2.done r⟩

theorem broken {b : Builders} {record : Json} (r : Rec) (h : ExactAt env k steps (some b))
    (hverdict : (planAt env k).append record = .broken) (hrows : s.exactRows env k = [])
    (hbreaks : s.breaks env k = true) :
    ExactAt env k (steps ++ [s]) (some
      ⟨(Builders.appendColumns record r (planAt env k).columns b.columns).1, b.rows⟩) := by
  cases h with
  | filled _ hbuild hb hne hstate =>
    refine .filled _ hbuild (by simp [hb, hrows]) hne (.inr ⟨?_, ?_⟩)
    · have : (steps.flatMap (·.exactRows env k)).isEmpty = false := by
        rw [← hb]
        simpa using hne
      rw [torn_append, this, hbreaks]
      simp
    · rcases hstate with ⟨-, hwhole⟩ | ⟨-, htorn⟩
      · exact hwhole.broken r hverdict
      · exact htorn.broken r hverdict

theorem length {b : Builders} (h : ExactAt env k steps (some b)) :
    b.columns.length = (planAt env k).columns.length := by
  cases h with
  | filled _ _ _ _ hstate =>
    rcases hstate with ⟨-, hwhole⟩ | ⟨-, htorn⟩
    · exact hwhole.length
    · exact htorn.length

end ExactAt

theorem breaks_other {r : Rec} {k : PartitionKey} (value : Json) (b : IngestBatch) (pos : UInt64)
    (hk : k ≠ exactKey env (env.answers r)) : (Step.row r value b pos).breaks env k = false := by
  simp [Step.breaks, hk.symm]

def Appended (env : Env) (steps : List Step) (r : Rec) (value : Json) (b : IngestBatch) (pos : UInt64)
    (after : Map PartitionKey Builders × Bool) : Prop :=
  after.2 = decide (offered env r b ∧ verdict env r value = .done) ∧
    ∀ k, ExactAt env k (steps ++ [.row r value b pos]) (after.1.get k)

section TryExact
variable {exact : Map PartitionKey Builders} (H : ∀ k, ExactAt env k steps (exact.get k))
  {r : Rec} {value : Json} {b : IngestBatch} {key : PartitionKey}
  (hkey : exactKey env (env.answers r) = key) (pos : UInt64)
include H hkey

theorem append_new (hget : exact.get key = none)
    (hoff : offered env r b = (planAt env key).buildable) :
    Appended env steps r value b pos
      (appendRowToExactPartition exact key (planAt env key) (env.inject value) r) := by
  subst hkey
  have Hkey := H (exactKey env (env.answers r))
  rw [hget] at Hkey
  have hrefuse : ¬(offered env r b ∧ verdict env r value = .done) →
      Appended env steps r value b pos (exact, false) := by
    intro hno
    refine ⟨by simp [hno], fun k => (H k).skip ?_ fun hne => breaks_other value b pos ?_⟩
    · rw [exactRows_row, if_neg fun h => hno h.1]
    · intro hk
      exact hne (hk ▸ hget)
  unfold appendRowToExactPartition
  rw [hget]
  by_cases hbuild : (planAt env (exactKey env (env.answers r))).buildable = true
  swap
  · simp only [hbuild, Bool.false_eq_true, if_false]
    exact hrefuse (by simp [hoff, hbuild])
  have hlen := (Builders.whole_new (planAt env (exactKey env (env.answers r)))).length
  simp only [hbuild, if_true]
  cases hverdict : verdict env r value with
  | done =>
    rw [Builders.tryAppendRow_done r hlen hverdict]
    refine ⟨by simp [hoff, hbuild, hverdict], fun k => ?_⟩
    simp only [if_true, Map.get_insert]
    split
    · rename_i hk
      subst hk
      exact Hkey.done hbuild (by rw [exactRows_row, if_pos ⟨⟨hoff.trans hbuild, hverdict⟩, rfl⟩])
    · rename_i hk
      refine (H k).skip ?_ fun _ => breaks_other value b pos hk
      rw [exactRows_row, if_neg fun h => hk h.2.symm]
  | refused =>
    rw [Builders.tryAppendRow_refused r hlen hverdict]
    simpa using hrefuse (by simp [hverdict])
  | broken =>
    rw [(Builders.tryAppendRow_broken r hlen hverdict).1]
    simpa using hrefuse (by simp [hverdict])

theorem append_old {old : Builders} (hget : exact.get key = some old)
    (hoff : offered env r b = (planAt env key).buildable) :
    Appended env steps r value b pos
      (appendRowToExactPartition exact key (planAt env key) (env.inject value) r) := by
  subst hkey
  have Hkey := H (exactKey env (env.answers r))
  rw [hget] at Hkey
  have hbuild : offered env r b = true := by
    cases Hkey with
    | filled _ hbuild => exact hoff.trans hbuild
  have hskip : ∀ k, k ≠ exactKey env (env.answers r) →
      ExactAt env k (steps ++ [.row r value b pos]) (exact.get k) := by
    intro k hk
    refine (H k).skip ?_ fun _ => breaks_other value b pos hk
    rw [exactRows_row, if_neg fun h => hk h.2.symm]
  have hrows : verdict env r value ≠ .done →
      (Step.row r value b pos).exactRows env (exactKey env (env.answers r)) = [] := by
    intro hno
    rw [exactRows_row, if_neg fun h => hno h.1.2]
  -- Only the builders of its partition change.
  have hat : ∀ new flag, flag = decide (offered env r b ∧ verdict env r value = .done) →
      ExactAt env (exactKey env (env.answers r)) (steps ++ [.row r value b pos]) (some new) →
      Appended env steps r value b pos
        (exact.insert (exactKey env (env.answers r)) new, flag) := by
    intro new flag hflag hnew
    refine ⟨hflag, fun k => ?_⟩
    simp only [Map.get_insert]
    split
    · rename_i hk
      exact hk ▸ hnew
    · rename_i hk
      exact hskip k hk
  unfold appendRowToExactPartition
  rw [hget]
  cases hverdict : verdict env r value with
  | done =>
    simp only [Builders.tryAppendRow_done r Hkey.length hverdict]
    refine hat _ _ (by simp [hbuild, hverdict]) (Hkey.done (hoff.symm.trans hbuild) ?_)
    rw [exactRows_row, if_pos ⟨⟨hbuild, hverdict⟩, rfl⟩]
  | refused =>
    simp only [Builders.tryAppendRow_refused r Hkey.length hverdict]
    refine hat _ _ (by simp [hverdict]) (Hkey.skip (hrows (by simp [hverdict])) fun _ => ?_)
    simp [Step.breaks, hverdict]
  | broken =>
    simp only [(Builders.tryAppendRow_broken r Hkey.length hverdict).1]
    refine hat _ _ (by simp [hverdict]) (Hkey.broken r hverdict (hrows (by simp [hverdict])) ?_)
    simp [Step.breaks, hbuild, hverdict]

omit hkey in
theorem tryExact_eq (r : Rec) (value : Json) (b : IngestBatch) :
    Appended env steps r value b pos (tryExact env exact r value b) := by
  unfold tryExact
  by_cases hgate : (!b.isCdc && (env.answers r).metadata && (env.answers r).planned) = true
  · have hoff : offered env r b = (planAt env (exactKey env (env.answers r))).buildable := by
      simp [offered, hgate]
    rw [if_pos hgate]
    cases hget : exact.get (exactKey env (env.answers r)) with
    | none => exact append_new H rfl pos hget hoff
    | some old => exact append_old H rfl pos hget hoff
  · have hoff : offered env r b = false := by simp [offered, hgate]
    rw [if_neg hgate]
    refine ⟨by simp [hoff], fun k => (H k).skip ?_ fun _ => ?_⟩
    · rw [exactRows_row, if_neg (by simp [hoff])]
    · simp [Step.breaks, hoff]

end TryExact

/-! ## The other maps -/

def applyRoute (s : Gathered) (r : Rec) (b : IngestBatch) (pos : UInt64) :
    Route → Gathered
  | .exact key => { s with buf := trackPartitionOffset s.buf key b.offsetKey pos }
  | .legacy key v => enqueueLegacyRecord s key b.offsetKey ⟨r, v, pos⟩
  | .deadletter code error =>
    { s with
      deadletters := s.deadletters ++ [⟨.record r, .slowPath code, error, pos⟩]
      deadletterOffsets := mergeOffset s.deadletterOffsets b.offsetKey pos }
  | .dropped => s

theorem ingestRow_eq {g : Gathered} (H : ∀ k, ExactAt env k steps (g.exact.get k)) (r : Rec)
    (value : Json) (b : IngestBatch) (pos : UInt64) :
    ingestRow env g r value b pos =
      applyRoute { g with exact := (tryExact env g.exact r value b).1 } r b pos
        (route env r value b) := by
  have htried := (tryExact_eq H pos r value b).1
  unfold ingestRow route
  by_cases h : offered env r b ∧ verdict env r value = .done
  · simp [htried, h, applyRoute]
  · simp only [htried, h, decide_false, Bool.false_eq_true, if_false]
    cases normalize (env.answers r) with
    | error e => rfl
    | ok v => cases hv : v.isNull <;> simp [hv, applyRoute]

@[simp] theorem applyRoute_exact (g : Gathered) (r : Rec) (b : IngestBatch) (pos : UInt64)
    (way : Route) : (applyRoute g r b pos way).exact = g.exact := by
  cases way <;> rfl

theorem exact_gather (env : Env) (steps : List Step) :
    ∀ k, ExactAt env k steps ((gather env steps).exact.get k) := by
  induction steps using List.reverseRecOn with
  | nil => exact fun k => .empty rfl
  | append_singleton steps s ih =>
    rw [gather_append]
    cases s with
    | deadletter d offset | arrow key ok pos rows => exact fun k => (ih k).skip rfl fun _ => rfl
    | row r value b pos =>
      rw [applyStep, ingestRow_eq ih, applyRoute_exact]
      exact (tryExact_eq ih pos r value b).2

/-- Induction along the steps of a call. -/
@[elab_as_elim]
theorem gather_induction {P : List Step → Gathered → Prop} (hnil : P [] .empty)
    (hdeadletter : ∀ steps g d offset, P steps g →
      P (steps ++ [.deadletter d offset]) (applyStep env g (.deadletter d offset)))
    (harrow : ∀ steps g key ok pos rows, P steps g →
      P (steps ++ [.arrow key ok pos rows]) (applyStep env g (.arrow key ok pos rows)))
    (hrow : ∀ steps g exact r value b pos, P steps g →
      P (steps ++ [.row r value b pos])
        (applyRoute { g with exact := exact } r b pos (route env r value b)))
    (steps : List Step) : P steps (gather env steps) := by
  induction steps using List.reverseRecOn with
  | nil => exact hnil
  | append_singleton steps s ih =>
    rw [gather_append]
    cases s with
    | deadletter d offset => exact hdeadletter steps _ d offset ih
    | arrow key ok pos rows => exact harrow steps _ key ok pos rows ih
    | row r value b pos =>
      rw [applyStep, ingestRow_eq (exact_gather env steps)]
      exact hrow steps _ _ r value b pos ih

theorem deadletters_gather (env : Env) (steps : List Step) :
    (gather env steps).deadletters = steps.flatMap (·.deadletters env) := by
  refine gather_induction rfl ?_ ?_ ?_ steps
  · intro steps g d offset ih
    rw [flatMap_snoc, ← ih]
    rfl
  · intro steps g key ok pos rows ih
    rw [flatMap_snoc, ← ih]
    exact (List.append_nil _).symm
  · intro steps g exact r value b pos ih
    rw [flatMap_snoc, ← ih, Step.deadletters]
    cases route env r value b <;> simp [applyRoute, enqueueLegacyRecord]

theorem raw_gather (env : Env) (k : PartitionKey) (steps : List Step) :
    ((gather env steps).raw.get k).getD [] = steps.flatMap (·.legacy env k) := by
  refine gather_induction rfl ?_ ?_ ?_ steps
  · intro steps g d offset ih
    rw [flatMap_snoc, ← ih]
    exact (List.append_nil _).symm
  · intro steps g key ok pos rows ih
    rw [flatMap_snoc, ← ih]
    exact (List.append_nil _).symm
  · intro steps g exact r value b pos ih
    rw [flatMap_snoc, ← ih, Step.legacy]
    cases route env r value b with
    | legacy key v =>
      simp only [applyRoute, enqueueLegacyRecord, Map.get_insert]
      by_cases hk : key = k
      · subst hk
        simp
      · simp [hk, Ne.symm hk]
    | _ => simp [applyRoute]

theorem get_mergeOffset_ne_none (offsets : Offsets) (key k : OffsetKey) (pos : UInt64) :
    (mergeOffset offsets key pos).get k ≠ none ↔ offsets.get k ≠ none ∨ k = key := by
  unfold mergeOffset
  rw [Map.get_insert]
  split
  · simp [*]
  · simp [*]

theorem offsets_gather (env : Env) (key : OffsetKey) (steps : List Step) :
    (gather env steps).deadletterOffsets.get key ≠ none ↔
      key ∈ steps.flatMap (·.deadletterKeys env) := by
  refine gather_induction (by simp [Gathered.empty]) ?_ ?_ ?_ steps
  · intro steps g d offset ih
    rw [flatMap_snoc, List.mem_append, ← ih, Step.deadletterKeys]
    cases offset with
    | none => simp [applyStep]
    | some o => simp only [applyStep, get_mergeOffset_ne_none]; simp
  · intro steps g k ok pos rows ih
    have hkeys : (Step.arrow k ok pos rows).deadletterKeys env = [] := rfl
    rw [flatMap_snoc, hkeys, List.append_nil, ← ih]
    rfl
  · intro steps g exact r value b pos ih
    rw [flatMap_snoc, List.mem_append, ← ih, Step.deadletterKeys]
    cases route env r value b with
    | deadletter code error => simp only [applyRoute, get_mergeOffset_ne_none]; simp
    | _ => simp [applyRoute, enqueueLegacyRecord]

inductive BufAt (env : Env) (k : PartitionKey) (steps : List Step) : Option BufferBatch → Prop
  | none (hkeys : steps.flatMap (·.tracks env k) = []) : BufAt env k steps .none
  | some (e : BufferBatch) (hns : e.ns = k.ns) (hpayload : e.payload = steps.flatMap (·.batches k))
      (hdl : e.deadletters = [])
      (hkeys : ∀ key, e.offsets.get key ≠ .none ↔ key ∈ steps.flatMap (·.tracks env k))
      (hne : steps.flatMap (·.tracks env k) ≠ []) : BufAt env k steps (.some e)

namespace BufAt
variable {o : Option BufferBatch}

theorem skip (h : BufAt env k steps o) (htracks : s.tracks env k = []) (hbatches : s.batches k = []) :
    BufAt env k (steps ++ [s]) o := by
  cases h with
  | none hkeys => exact .none (by rw [flatMap_snoc, hkeys, htracks]; rfl)
  | some e hns hpayload hdl hkeys hne =>
    refine .some e hns ?_ hdl ?_ ?_
    · rw [flatMap_snoc, hbatches, List.append_nil]
      exact hpayload
    · rw [flatMap_snoc, htracks, List.append_nil]
      exact hkeys
    · rw [flatMap_snoc, htracks, List.append_nil]
      exact hne

theorem batches_eq_nil (h : steps.flatMap (·.tracks env k) = []) :
    steps.flatMap (·.batches k) = [] := by
  rw [List.flatMap_eq_nil_iff] at h ⊢
  intro s hs
  have htracks := h s hs
  cases s with
  | arrow key ok pos rows =>
    rw [Step.batches, if_neg]
    intro hk
    rw [Step.tracks, if_pos hk] at htracks
    cases htracks
  | _ => rfl

theorem track (h : BufAt env k steps o) {ok : OffsetKey} (pos : UInt64)
    (htracks : s.tracks env k = [ok]) :
    BufAt env k (steps ++ [s]) (.some
      { o.getD ⟨∅, k.ns, [], []⟩ with
        offsets := mergeOffset (o.getD ⟨∅, k.ns, [], []⟩).offsets ok pos
        payload := (o.getD ⟨∅, k.ns, [], []⟩).payload ++ s.batches k }) := by
  cases h with
  | none hkeys =>
    refine .some _ rfl ?_ rfl ?_ ?_
    · rw [flatMap_snoc, batches_eq_nil hkeys]
      rfl
    · intro key
      rw [flatMap_snoc, hkeys, htracks]
      simp [get_mergeOffset_ne_none]
    · rw [flatMap_snoc, htracks]
      simp
  | some e hns hpayload hdl hkeys hne =>
    refine .some _ hns ?_ hdl ?_ ?_
    · rw [flatMap_snoc, ← hpayload]
      rfl
    · intro key
      rw [flatMap_snoc, htracks, List.mem_append, ← hkeys]
      simp [get_mergeOffset_ne_none]
    · rw [flatMap_snoc, htracks]
      simp

end BufAt

theorem get_trackPartitionOffset (buf : Map PartitionKey BufferBatch) (key k : PartitionKey)
    (ok : OffsetKey) (pos : UInt64) :
    (trackPartitionOffset buf key ok pos).get k =
      if k = key then
        some { (buf.get k).getD ⟨∅, k.ns, [], []⟩ with
          offsets := mergeOffset ((buf.get k).getD ⟨∅, k.ns, [], []⟩).offsets ok pos }
      else buf.get k := by
  unfold trackPartitionOffset
  rw [Map.get_insert]
  split
  · rename_i hk
    rw [hk]
  · rfl

theorem get_pushArrow (buf : Map PartitionKey BufferBatch) (key k : PartitionKey) (ok : OffsetKey)
    (pos : UInt64) (rows : List Rec) :
    (pushArrow buf key ok pos rows).get k =
      if k = key then
        some { (buf.get k).getD ⟨∅, k.ns, [], []⟩ with
          offsets := mergeOffset ((buf.get k).getD ⟨∅, k.ns, [], []⟩).offsets ok pos
          payload := ((buf.get k).getD ⟨∅, k.ns, [], []⟩).payload ++ [rows] }
      else buf.get k := by
  unfold pushArrow
  simp only [get_trackPartitionOffset, if_true, Map.get_insert]
  split
  · rename_i hk
    rw [hk]
  · rfl

theorem BufAt.tracked {buf : Map PartitionKey BufferBatch} {key : PartitionKey} {ok : OffsetKey}
    (h : BufAt env k steps (buf.get k)) (pos : UInt64)
    (htracks : s.tracks env k = if key = k then [ok] else []) (hbatches : s.batches k = []) :
    BufAt env k (steps ++ [s]) ((trackPartitionOffset buf key ok pos).get k) := by
  rw [get_trackPartitionOffset]
  split
  · rename_i hk
    have := h.track pos (htracks.trans (if_pos hk.symm))
    rwa [hbatches, List.append_nil] at this
  · rename_i hk
    exact h.skip (htracks.trans (if_neg (Ne.symm hk))) hbatches

theorem buf_gather (env : Env) (steps : List Step) :
    ∀ k, BufAt env k steps ((gather env steps).buf.get k) := by
  refine gather_induction (fun k => .none rfl) ?_ ?_ ?_ steps
  · exact fun steps g d offset ih k => (ih k).skip rfl rfl
  · intro steps g key ok pos rows ih k
    rw [applyStep, get_pushArrow]
    by_cases hk : k = key
    · have := (ih k).track pos (s := .arrow key ok pos rows) (if_pos hk.symm)
      rw [Step.batches, if_pos hk.symm] at this
      rwa [if_pos hk]
    · rw [if_neg hk]
      exact (ih k).skip (if_neg (Ne.symm hk)) (if_neg (Ne.symm hk))
  · intro steps g exact r value b pos ih k
    have hbatches : (Step.row r value b pos).batches k = [] := rfl
    cases hroute : route env r value b with
    | exact key | legacy key v => exact (ih k).tracked pos (by rw [Step.tracks, hroute]) hbatches
    | deadletter code error | dropped => exact (ih k).skip (by rw [Step.tracks, hroute]) hbatches

end Skippr.L4.Ingest
