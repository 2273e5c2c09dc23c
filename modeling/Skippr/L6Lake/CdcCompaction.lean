import Skippr.Core.LTS
import Skippr.L6Lake.CdcFinalState

/-!
# Grouped CDC compactions with crashes (crates/skippr-iceberg-writer/src/lib.rs)

One grouped call collapses its envelope against the committed tokens, writes a
pending record, commits the table, persists the tokens shard by shard and
writes the manifest. The table lane admits one call at a time; a crash, or an
error of any step, ends the call where it stands. A later call of the same
compaction finds its pending record and continues from it.
-/
namespace Skippr.L6.Cdc

/-- A table's compactions. One compaction id stands for one envelope: its
manifest names the WAL slices. -/
structure Sink (R K C : Type) where
  key : R → Option K
  shardOf : K → Nat
  envelope : C → List (List (Event R))

/-- mirrors `IcebergGroupedPending`: the files and the state delta. -/
structure Pending (R K : Type) where
  commit : Commit R K
  stateDelta : Map K Text

inductive Pc (R K C : Type)
  | idle
  | prepare (c : C)
  | writePending (c : C) (p : Pending R K)
  | commit (c : C) (p : Pending R K)
  | persist (c : C) (delta : Map K Text) (rest : List Nat)

/-- The objects of the table, and the call holding its lane. A snapshot is its
compaction id and its files. -/
structure St (R K C : Type) where
  pending : Map C (Pending R K)
  manifests : List C
  snapshots : List (C × Commit R K)
  shards : Shards K
  pc : Pc R K C

inductive Lbl (C : Type)
  | call (c : C)
  | prepare
  | writePending
  | commit
  | persist
  | writeManifest
  | crash
deriving DecidableEq, Repr

section Machine
variable {R K C : Type} [DecidableEq K] [DecidableEq C] (sink : Sink R K C)

/-- mirrors lib.rs:1642-1651,1753-1762 -/
def produceGroupedPending (shards : Shards K) (c : C) : Except CdcError (Pending R K) := do
  let final ← finalStateCdcBatches sink.key ((sink.envelope c).map fun b => b.map augment)
    (committedToken sink.shardOf shards)
  .ok { commit := ⟨final.upserts, final.deletes⟩, stateDelta := final.tokens }

/-- A retained snapshot carries the compaction's properties.
mirrors lib.rs:3356-3370 -/
def tableHasGroupedSnapshot (snapshots : List (C × Commit R K)) (c : C) : Bool :=
  snapshots.any fun x => x.1 = c

/-- mirrors lib.rs:535-665,1050-1099 -/
def step (s : St R K C) : Lbl C → Option (St R K C)
  | .call c =>
    match s.pc with
    | .idle => some (if c ∈ s.manifests then s else { s with pc := .prepare c })
    | _ => none
  | .prepare =>
    match s.pc with
    | .prepare c =>
      match s.pending.get c with
      | some p => some { s with pc := .commit c p }
      | none =>
        match produceGroupedPending sink s.shards c with
        | .ok p => some { s with pc := .writePending c p }
        | .error _ => some { s with pc := .idle }
    | _ => none
  | .writePending =>
    match s.pc with
    | .writePending c p => some { s with pending := s.pending.insert c p, pc := .commit c p }
    | _ => none
  | .commit =>
    match s.pc with
    | .commit c p =>
      some { s with
        snapshots := if tableHasGroupedSnapshot s.snapshots c then s.snapshots
          else s.snapshots ++ [(c, p.commit)]
        pc := .persist c p.stateDelta (deltaShards sink.shardOf p.stateDelta) }
    | _ => none
  | .persist =>
    match s.pc with
    | .persist c delta (shard :: rest) =>
      match persistShard sink.shardOf s.shards delta shard with
      | .ok shards => some { s with shards, pc := .persist c delta rest }
      | .error _ => some { s with pc := .idle }
    | _ => none
  | .writeManifest =>
    match s.pc with
    | .persist c _ [] => some { s with manifests := s.manifests ++ [c], pc := .idle }
    | _ => none
  | .crash => some { s with pc := .idle }

def initial : St R K C where
  pending := ∅
  manifests := []
  snapshots := []
  shards := ∅
  pc := .idle

def lts : LTS (St R K C) (Lbl C) := .ofFn (fun s => s = initial) (step sink)

def St.rows (s : St R K C) : List R := visibleRows sink.key (s.snapshots.map Prod.snd)

def Sink.events (c : C) : List (Event R) := (sink.envelope c).flatten

def St.applied (s : St R K C) : List (Event R) := s.snapshots.flatMap fun x => sink.events x.1

def St.committed (s : St R K C) : K → Option Text := committedToken sink.shardOf s.shards

def St.Unfinished (s : St R K C) (c : C) : Prop := c ∈ s.pending.keys ∧ c ∉ s.manifests

/-- A call starts only while no other compaction is unfinished. -/
def Serial (s : St R K C) : Lbl C → Prop
  | .call c => ∀ c' ∈ s.pending.keys, c' ∉ s.manifests → c' = c
  | _ => True

instance (s : St R K C) : DecidablePred (Serial s)
  | .call c => inferInstanceAs (Decidable (∀ c' ∈ s.pending.keys, c' ∉ s.manifests → c' = c))
  | .prepare | .writePending | .commit | .persist | .writeManifest | .crash => .isTrue trivial

/-! ## The invariant -/

/-- What a pending record without a manifest is good for: not committed, it is
current; committed, it has the tokens the state may still miss. -/
structure OpenOk (s : St R K C) (c : C) (p : Pending R K) : Prop where
  current : c ∉ s.snapshots.map Prod.fst → TokensOf sink.key (s.committed sink) (s.applied sink) ∧
    IsFinal sink.key (s.committed sink) (sink.events c) p.commit p.stateDelta
  tokens : c ∈ s.snapshots.map Prod.fst → ∀ k, newer (s.committed sink k) (p.stateDelta.get k) =
    (latest sink.key k (s.applied sink)).map Event.token

def PcOk (s : St R K C) : Prop :=
  match s.pc with
  | .idle => True
  | .prepare c => c ∉ s.manifests ∧ ∀ c', s.Unfinished c' → c' = c
  | .writePending c p => c ∉ s.manifests ∧ s.pending.get c = none ∧ (∀ c', ¬ s.Unfinished c') ∧
      IsFinal sink.key (s.committed sink) (sink.events c) p.commit p.stateDelta
  | .commit c p => c ∉ s.manifests ∧ s.pending.get c = some p
  | .persist c delta rest => c ∉ s.manifests ∧ c ∈ s.snapshots.map Prod.fst ∧
      (∃ p, s.pending.get c = some p ∧ p.stateDelta = delta) ∧
      ∀ k, sink.shardOf k ∉ rest →
        s.committed sink k = (latest sink.key k (s.applied sink)).map Event.token

structure Inv (s : St R K C) : Prop where
  shown : Exactly sink.key (s.rows sink) (s.applied sink)
  recorded : ∀ c ∈ s.snapshots.map Prod.fst, c ∈ s.pending.keys
  one : ∀ c c', s.Unfinished c → s.Unfinished c' → c = c'
  settled : (∀ c, ¬ s.Unfinished c) → TokensOf sink.key (s.committed sink) (s.applied sink)
  opened : ∀ c p, s.pending.get c = some p → c ∉ s.manifests → OpenOk sink s c p
  pcOk : PcOk sink s

variable {sink}

variable {s s' : St R K C} {c : C}

omit [DecidableEq K] in
theorem mem_keys_of_get {p : Pending R K} (h : s.pending.get c = some p) :
    c ∈ s.pending.keys := (Map.mem_keys_iff ..).2 (by simp [h])

theorem Inv.setPc (h : Inv sink s) (pc : Pc R K C) (hpc : PcOk sink { s with pc := pc }) :
    Inv sink { s with pc := pc } := { h with
  opened c p hp hm := ⟨(h.opened c p hp hm).current, (h.opened c p hp hm).tokens⟩
  pcOk := hpc }

theorem inv_initial : Inv sink (initial : St R K C) where
  shown := ⟨fun r hr => (by cases hr), fun _ => rfl⟩
  recorded c hc := by cases hc
  one c c' hc := by cases hc.1
  settled _ _ := rfl
  opened c p hp := by cases hp
  pcOk := trivial

theorem inv_call (h : Inv sink s) (hserial : Serial s (.call c))
    (hstep : step sink s (.call c) = some s') : Inv sink s' := by
  simp only [step] at hstep
  split at hstep
  · split at hstep
    · cases hstep
      exact h
    · rename_i hm
      cases hstep
      exact h.setPc _ ⟨hm, fun c' hc' => hserial c' hc'.1 hc'.2⟩
  · cases hstep

theorem inv_prepare (h : Inv sink s) (hstep : step sink s .prepare = some s') : Inv sink s' := by
  have hpc := h.pcOk
  simp only [step] at hstep
  split at hstep
  · rename_i c hc
    simp only [PcOk, hc] at hpc
    split at hstep
    · rename_i p hp
      cases hstep
      exact h.setPc _ ⟨hpc.1, hp⟩
    · rename_i hnone
      split at hstep
      · rename_i p hp
        cases hstep
        simp only [produceGroupedPending, bind_eq_ok] at hp
        obtain ⟨final, hfinal, hp⟩ := hp
        cases hp
        refine h.setPc _ ⟨hpc.1, hnone, fun c' hc' => ?_, isFinal_of_ok hfinal⟩
        -- an unfinished compaction would be `c`, which has no record
        obtain rfl := hpc.2 c' hc'
        exact (Map.mem_keys_iff ..).1 hc'.1 hnone
      · cases hstep
        exact h.setPc _ trivial
  · cases hstep

theorem inv_writePending (h : Inv sink s) (hstep : step sink s .writePending = some s') :
    Inv sink s' := by
  have hpc := h.pcOk
  simp only [step] at hstep
  split at hstep
  · rename_i c p hc
    simp only [PcOk, hc] at hpc
    obtain ⟨hm, hnone, hidle, hfinal⟩ := hpc
    cases hstep
    have hfresh : c ∉ s.snapshots.map Prod.fst :=
      fun hmem => (Map.mem_keys_iff ..).1 (h.recorded c hmem) hnone
    have hkeys : ∀ c', c' ∈ (s.pending.insert c p).keys ↔ c' = c ∨ c' ∈ s.pending.keys := by
      intro c'
      rw [Map.mem_keys_iff, Map.mem_keys_iff, Map.get_insert]
      by_cases hcc : c' = c <;> simp [hcc]
    -- `c` is the one unfinished compaction from here on
    have honly : ∀ c', (c' ∈ (s.pending.insert c p).keys ∧ c' ∉ s.manifests) → c' = c := by
      rintro c' ⟨hmem, hm'⟩
      rcases (hkeys c').1 hmem with rfl | hmem
      · rfl
      · exact absurd ⟨hmem, hm'⟩ (hidle c')
    constructor
    case shown => exact h.shown
    case recorded => exact fun c' hc' => (hkeys c').2 (.inr (h.recorded c' hc'))
    case one => exact fun c₁ c₂ h₁ h₂ => (honly c₁ h₁).trans (honly c₂ h₂).symm
    case settled => exact fun _ => h.settled hidle
    case opened =>
      intro c' p' hp' hm'
      obtain rfl : c' = c := honly c' ⟨(Map.mem_keys_iff ..).2 (by simp [hp']), hm'⟩
      rw [Map.get_insert, if_pos rfl] at hp'
      cases hp'
      exact ⟨fun _ => ⟨h.settled hidle, hfinal⟩, fun hmem => absurd hmem hfresh⟩
    case pcOk => exact ⟨hm, by rw [Map.get_insert, if_pos rfl]⟩
  · cases hstep

omit [DecidableEq K] in
theorem tableHasGroupedSnapshot_iff {snapshots : List (C × Commit R K)} :
    tableHasGroupedSnapshot snapshots c = true ↔ c ∈ snapshots.map Prod.fst := by
  simp [tableHasGroupedSnapshot]

omit [DecidableEq C] in
theorem rows_append (s : St R K C) (c : C) (x : Commit R K) (pc : Pc R K C) :
    St.rows sink { s with snapshots := s.snapshots ++ [(c, x)], pc := pc } =
      applyCommit sink.key (s.rows sink) x := by
  simp [St.rows, visibleRows]

omit [DecidableEq K] [DecidableEq C] in
theorem applied_append (s : St R K C) (c : C) (x : Commit R K) (pc : Pc R K C) :
    St.applied sink { s with snapshots := s.snapshots ++ [(c, x)], pc := pc } =
      s.applied sink ++ sink.events c := by
  simp [St.applied]

theorem inv_commit (h : Inv sink s) (hstep : step sink s .commit = some s') : Inv sink s' := by
  have hpc := h.pcOk
  simp only [step] at hstep
  split at hstep
  · rename_i c p hc
    simp only [PcOk, hc] at hpc
    obtain ⟨hm, hp⟩ := hpc
    have hopen := h.opened c p hp hm
    cases hstep
    by_cases hdone : c ∈ s.snapshots.map Prod.fst
    · rw [if_pos (tableHasGroupedSnapshot_iff.2 hdone)]
      refine h.setPc _ ⟨hm, hdone, ⟨p, hp, rfl⟩, fun k hk => ?_⟩
      have htok := hopen.tokens hdone k
      rwa [not_mem_delta hk, newer_none_right] at htok
    · rw [if_neg (fun hyes => hdone (tableHasGroupedSnapshot_iff.1 hyes))]
      obtain ⟨htok, hfinal⟩ := hopen.current hdone
      have htokens : ∀ k, newer (s.committed sink k) (p.stateDelta.get k) =
          (latest sink.key k (s.applied sink ++ sink.events c)).map Event.token :=
        fun k => tokens_latest htok hfinal k
      -- only `c` has a record without a manifest
      have honly : ∀ c', s.Unfinished c' → c' = c := fun c' hc' => h.one c' c hc' ⟨mem_keys_of_get hp, hm⟩
      constructor
      case shown =>
        rw [rows_append, applied_append]
        exact h.shown.commit htok hfinal
      case recorded =>
        intro c' hc'
        simp only [List.map_append, List.map_cons, List.map_nil, List.mem_append, List.mem_singleton] at hc'
        rcases hc' with hc' | rfl
        · exact h.recorded c' hc'
        · exact mem_keys_of_get hp
      case one => exact h.one
      case settled => exact fun hidle => absurd ⟨mem_keys_of_get hp, hm⟩ (hidle c)
      case opened =>
        intro c' p' hp' hm'
        obtain rfl := honly c' ⟨mem_keys_of_get hp', hm'⟩
        obtain rfl : p' = p := Option.some.inj (hp'.symm.trans hp)
        refine ⟨fun hno => absurd (by simp) hno, fun _ k => ?_⟩
        rw [applied_append]
        exact htokens k
      case pcOk =>
        refine ⟨hm, by simp, ⟨p, hp, rfl⟩, fun k hk => ?_⟩
        have htok := htokens k
        rw [not_mem_delta hk, newer_none_right] at htok
        rw [applied_append]
        exact htok
  · cases hstep

theorem inv_persist (h : Inv sink s) (hstep : step sink s .persist = some s') : Inv sink s' := by
  have hpc := h.pcOk
  simp only [step] at hstep
  split at hstep
  · rename_i c delta shard rest hc
    simp only [PcOk, hc] at hpc
    obtain ⟨hm, hdone, ⟨p, hp, rfl⟩, hrest⟩ := hpc
    have htokens := (h.opened c p hp hm).tokens hdone
    split at hstep
    · rename_i shards hpersist
      cases hstep
      have hcommitted : ∀ k, committedToken sink.shardOf shards k =
          if sink.shardOf k = shard then newer (s.committed sink k) (p.stateDelta.get k)
          else s.committed sink k := committedToken_persistShard hpersist
      have honly : ∀ c', s.Unfinished c' → c' = c := fun c' hc' => h.one c' c hc' ⟨mem_keys_of_get hp, hm⟩
      constructor
      case shown => exact h.shown
      case recorded => exact h.recorded
      case one => exact h.one
      case settled => exact fun hidle => absurd ⟨mem_keys_of_get hp, hm⟩ (hidle c)
      case opened =>
        intro c' p' hp' hm'
        obtain rfl := honly c' ⟨mem_keys_of_get hp', hm'⟩
        obtain rfl : p' = p := Option.some.inj (hp'.symm.trans hp)
        refine ⟨fun hno => absurd hdone hno, fun _ k => ?_⟩
        -- a token already merged is merged again without effect
        rw [St.committed, hcommitted]
        split
        · rw [newer_newer]
          exact htokens k
        · exact htokens k
      case pcOk =>
        refine ⟨hm, hdone, ⟨p, hp, rfl⟩, fun k hk => ?_⟩
        rw [St.committed, hcommitted]
        split
        · exact htokens k
        · rename_i hne
          exact hrest k (by simp [hne, hk])
    · cases hstep
      exact h.setPc _ trivial
  · cases hstep

theorem inv_writeManifest (h : Inv sink s) (hstep : step sink s .writeManifest = some s') :
    Inv sink s' := by
  have hpc := h.pcOk
  simp only [step] at hstep
  split at hstep
  · rename_i c delta hc
    simp only [PcOk, hc] at hpc
    obtain ⟨hm, hdone, ⟨p, hp, rfl⟩, hrest⟩ := hpc
    cases hstep
    have hidle : ∀ c', ¬ (c' ∈ s.pending.keys ∧ c' ∉ s.manifests ++ [c]) := by
      rintro c' ⟨hmem, hm'⟩
      simp only [List.mem_append, List.mem_singleton, not_or] at hm'
      exact hm'.2 (h.one c' c ⟨hmem, hm'.1⟩ ⟨mem_keys_of_get hp, hm⟩)
    constructor
    case shown => exact h.shown
    case recorded => exact h.recorded
    case one => exact fun c₁ _ h₁ => absurd h₁ (hidle c₁)
    case settled => exact fun _ k => hrest k (by simp)
    case opened => exact fun c' p' hp' hm' => absurd ⟨mem_keys_of_get hp', hm'⟩ (hidle c')
    case pcOk => exact trivial
  · cases hstep

theorem inv_inductive : ((lts sink).restrict Serial).Inductive (Inv sink) where
  init s hs := by
    obtain rfl : s = initial := hs
    exact inv_initial
  step s l s' h hl := by
    obtain ⟨hserial, hstep⟩ := hl
    cases l with
    | call c => exact inv_call h hserial hstep
    | prepare => exact inv_prepare h hstep
    | writePending => exact inv_writePending h hstep
    | commit => exact inv_commit h hstep
    | persist => exact inv_persist h hstep
    | writeManifest => exact inv_writeManifest h hstep
    | crash =>
      cases hstep
      exact h.setPc _ trivial

end Machine

/-- **Serial compactions.** In every state of a run in which no call starts
while another compaction is between its pending record and its manifest, the
table shows exactly the latest event of every key over the applied
compactions. -/
theorem visible_latest_of_serial {R K C : Type} [DecidableEq K] [DecidableEq C] (sink : Sink R K C)
    (s : St R K C) (h : ((lts sink).restrict Serial).Reachable s) :
    Exactly sink.key (s.rows sink) (s.applied sink) :=
  (inv_inductive.reachable s h).shown

/-! ## Two updates of one key -/

def twoUpdates : Sink (Nat × Nat) Nat Nat where
  key r := some r.1
  shardOf k := k % 2
  envelope c := if c = 0 then [[⟨.insert, oneByte 1, (7, 10)⟩]] else [[⟨.update, oneByte 2, (7, 20)⟩]]

def retriedRun : List (Lbl Nat) :=
  [.call 0, .prepare, .writePending, .commit, .crash,
    .call 0, .prepare, .commit, .persist, .writeManifest,
    .call 1, .prepare, .writePending, .commit, .crash,
    .call 1, .prepare, .commit, .persist, .writeManifest]

def retriedState : St (Nat × Nat) Nat Nat :=
  (exec (guarded Serial (step twoUpdates)) initial retriedRun).get (by decide +kernel)

theorem visible_latest_retried :
    ((lts twoUpdates).restrict Serial).Reachable retriedState ∧
      retriedState.rows twoUpdates = [(7, 20)] ∧
      Exactly twoUpdates.key (retriedState.rows twoUpdates) (retriedState.applied twoUpdates) := by
  have hreach : ((lts twoUpdates).restrict Serial).Reachable retriedState :=
    restrict_reachable_of_exec rfl (Option.some_get _).symm
  exact ⟨hreach, by decide +kernel, visible_latest_of_serial twoUpdates retriedState hreach⟩

/-- Compaction 0 crashes after its pending record; compaction 1 runs whole;
then compaction 0 is retried. -/
def overtakenRun : List (Lbl Nat) :=
  [.call 0, .prepare, .writePending, .crash,
    .call 1, .prepare, .writePending, .commit, .persist, .writeManifest,
    .call 0, .prepare, .commit, .persist, .writeManifest]

def overtakenState : St (Nat × Nat) Nat Nat :=
  (exec (step twoUpdates) initial overtakenRun).get (by decide +kernel)

/-- The retried record was collapsed when key 7 had no token, so its commit
retires nothing: both rows stay visible. -/
theorem stale_pending_duplicates_key :
    (lts twoUpdates).Reachable overtakenState ∧
      overtakenState.rows twoUpdates = [(7, 20), (7, 10)] ∧
      latest twoUpdates.key 7 (overtakenState.applied twoUpdates) = some ⟨.update, oneByte 2, (7, 20)⟩ ∧
      ¬ Exactly twoUpdates.key (overtakenState.rows twoUpdates)
        (overtakenState.applied twoUpdates) := by
  refine ⟨reachable_of_exec rfl (Option.some_get _).symm, by decide +kernel, by decide +kernel, ?_⟩
  intro h
  have hkey := h.2 7
  revert hkey
  decide +kernel

end Skippr.L6.Cdc
