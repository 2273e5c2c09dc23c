import Skippr.L6Lake.CdcFinalState

/-!
# A query over the lake and the uncompacted WAL (src/sqlrt/cdc_reconcile.rs)

The serving node collapses the CDC rows of the WAL slices the lake does not
hold yet to one row per business key, drops the lake rows of the keys it
changed, and returns both. The lake is what compactions of the other slices
left of them.
-/
namespace Skippr.L7

open Skippr.L6.Cdc

/-! ## The WAL side -/

/-- mirrors cdc_reconcile.rs:34-47 -/
def mutationToU8 : MutationKind → Nat
  | .snapshot => 1
  | .insert => 2
  | .update => 3
  | .delete => 4

inductive ReconcileError
  | unknownMutation (code : Nat)
  | nullKey
deriving DecidableEq, Repr

/-- mirrors cdc_reconcile.rs:49-60 -/
def decodeMutation : Nat → Except ReconcileError (Option MutationKind)
  | 0 => .ok none
  | 1 => .ok (some .snapshot)
  | 2 => .ok (some .insert)
  | 3 => .ok (some .update)
  | 4 => .ok (some .delete)
  | code => .error (.unknownMutation code)

structure WalRow (R : Type) where
  row : R
  mutation : Nat
  order : OrderToken
  seq : Nat
  ordinal : Nat
  rowIdx : Nat

/-- A CDC slice of a segment: its Arrow batches, with the part metadata row by
row. -/
structure CdcSlice (R : Type) where
  seq : Nat
  ordinal : Nat
  batches : List (List (Event R))

/-- The loop of `read_pinned_slice`: the row index runs on through the batches.
mirrors src/sqlrt/wal_table.rs:191-219, cdc_reconcile.rs:365-398 -/
def attachCdcSidecar {R : Type} (seq ordinal : Nat) : Nat → List (List (Event R)) → List (List (WalRow R))
  | _, [] => []
  | rowBase, batch :: batches =>
    ((batch.zipIdx rowBase).map fun p => ⟨p.1.row, mutationToU8 p.1.mutation, p.1.orderToken, seq,
      ordinal, p.2⟩) :: attachCdcSidecar seq ordinal (rowBase + batch.length) batches

def readPinnedSlice {R : Type} (slice : CdcSlice R) : List (List (WalRow R)) :=
  attachCdcSidecar slice.seq slice.ordinal 0 slice.batches

/-- The order `TieBreak` derives. -/
abbrev TieBreak := OrderToken ×ₗ ℕ ×ₗ ℕ ×ₗ ℕ

def WalRow.tie {R : Type} (w : WalRow R) : TieBreak :=
  toLex (w.order, toLex (w.seq, toLex (w.ordinal, w.rowIdx)))

/-- `place` is the row's position among the collapsed rows. -/
structure Winner where
  tie : TieBreak
  mutation : MutationKind
  place : Nat

variable {R K : Type} [DecidableEq K]

structure Collapse (K : Type) where
  winners : Map K Winner
  appendRows : List Nat

/-- One row of the loop. mirrors cdc_reconcile.rs:194-224 -/
def collapseStep (key : R → Option K) (s : Collapse K) (p : WalRow R × Nat) :
    Except ReconcileError (Collapse K) := do
  match ← decodeMutation p.1.mutation with
  | none => .ok { s with appendRows := s.appendRows ++ [p.2] }
  | some kind =>
    match key p.1.row with
    | none => .error .nullKey
    | some k =>
      match s.winners.get k with
      | some existing =>
        if p.1.tie ≤ existing.tie then .ok s
        else .ok { s with winners := s.winners.insert k ⟨p.1.tie, kind, p.2⟩ }
      | none => .ok { s with winners := s.winners.insert k ⟨p.1.tie, kind, p.2⟩ }

/-- The loop over the batches; the keys of a batch are encoded before its rows
are looked at. mirrors cdc_reconcile.rs:176-226 -/
def collapseBatches (key : R → Option K) :
    List (List (WalRow R)) → Nat → Collapse K → Except ReconcileError (Collapse K)
  | [], _, s => .ok s
  | batch :: batches, place, s =>
    if batch.any fun w => (key w.row).isNone then .error .nullKey
    else do
      let s ← (batch.zipIdx place).foldlM (collapseStep key) s
      collapseBatches key batches (place + batch.length) s

structure CollapseResult (R K : Type) where
  changedKeys : List K
  survivors : List R

/-- The kept places, sorted, pick the rows in their order.
mirrors cdc_reconcile.rs:164-245,293-320 -/
def collapseWalBatches (key : R → Option K) (batches : List (List (WalRow R))) :
    Except ReconcileError (CollapseResult R K) := do
  let s ← collapseBatches key batches 0 ⟨∅, []⟩
  let kept := fun place => place ∈ s.appendRows ||
    s.winners.toList.any fun kw => kw.2.place = place && kw.2.mutation ≠ .delete
  .ok {
    changedKeys := s.winners.keys
    survivors := (batches.flatten.zipIdx.filter fun p => kept p.2).map fun p => p.1.row }

/-- mirrors cdc_reconcile.rs:247-291 -/
def antiJoinLake (key : R → Option K) (lake : List R) (changedKeys : List K) : List R :=
  if changedKeys = [] then lake
  else lake.filter fun r =>
    match key r with
    | some k => k ∉ changedKeys
    | none => true

/-! ## The lake side -/

structure Lake (R K : Type) where
  commits : List (Commit R K)
  shards : Shards K

/-- One group of slices compacted, without a crash.
mirrors crates/skippr-iceberg-writer/src/lib.rs:1642-1651,1078-1090 -/
def compact (key : R → Option K) (shardOf : K → Nat) (lake : Lake R K) (group : List (CdcSlice R)) :
    Except CdcError (Lake R K) := do
  let envelope := (group.flatMap CdcSlice.batches).map fun b => b.map augment
  let final ← finalStateCdcBatches key envelope (committedToken shardOf lake.shards)
  let shards ← persistCdcStateDelta shardOf lake.shards final.tokens
  .ok { commits := lake.commits ++ [⟨final.upserts, final.deletes⟩], shards }

def lakeOf (key : R → Option K) (shardOf : K → Nat) (done : List (List (CdcSlice R))) :
    Except CdcError (Lake R K) :=
  done.foldlM (compact key shardOf) ⟨[], ∅⟩

/-- mirrors cdc_reconcile.rs:586-599 -/
def query (key : R → Option K) (lake : Lake R K) (live : List (CdcSlice R)) :
    Except ReconcileError (List R) := do
  let collapsed ← collapseWalBatches key (live.flatMap readPinnedSlice)
  .ok (antiJoinLake key (visibleRows key lake.commits) collapsed.changedKeys ++ collapsed.survivors)

/-! ## Events in their places -/

/-- An event with the place that breaks ties between equal order tokens. -/
structure Placed (R : Type) where
  event : Event R
  seq : Nat
  ordinal : Nat
  rowIdx : Nat

def Placed.tie {R : Type} (e : Placed R) : TieBreak :=
  toLex (e.event.orderToken, toLex (e.seq, toLex (e.ordinal, e.rowIdx)))

def Placed.key (key : R → Option K) (e : Placed R) : Option K := key e.event.row

def Placed.walRow (e : Placed R) : WalRow R :=
  ⟨e.event.row, mutationToU8 e.event.mutation, e.event.orderToken, e.seq, e.ordinal, e.rowIdx⟩

def CdcSlice.placed (slice : CdcSlice R) : List (Placed R) :=
  slice.batches.flatten.zipIdx.map fun p => ⟨p.1, slice.seq, slice.ordinal, p.2⟩

def placed (slices : List (CdcSlice R)) : List (Placed R) := slices.flatMap CdcSlice.placed

/-- The event of key `k` greatest in (order token, seq, ordinal, row index):
one event, as the slices of a WAL differ in seq or ordinal. -/
def greatestOf (key : R → Option K) (k : K) (es : List (Placed R)) : Option (Placed R) :=
  greatest Placed.tie (ofKey (Placed.key key) k es)

/-- The rows are, key by key, the row of the greatest event unless that is a
delete, and nothing else. -/
def Answers (key : R → Option K) (rows : List R) (es : List (Placed R)) : Prop :=
  (∀ r ∈ rows, key r ≠ none) ∧
    ∀ k, ofKey key k rows = ((greatestOf key k es).bind fun e => e.event.effect).toList

/-- Of every key: the greatest uncompacted event does to it what its greatest
event does; with no uncompacted event, the first compacted one of greatest
order token does. -/
def Current (key : R → Option K) (done : List (List (CdcSlice R))) (live : List (CdcSlice R)) : Prop :=
  ∀ k, ∀ g ∈ greatestOf key k (placed (done.flatten ++ live)),
    (∀ f ∈ greatestOf key k (placed live), f.event.effect = g.event.effect) ∧
    (ofKey (Placed.key key) k (placed live) = [] →
      ∀ f ∈ latest key k ((placed done.flatten).map Placed.event), f.effect = g.event.effect)

/-! ## The lake holds the latest compacted events -/

variable {key : R → Option K} {shardOf : K → Nat}

theorem lakeOf_spec (done : List (List (CdcSlice R))) :
    ∀ {lake lake' : Lake R K} {es : List (Event R)},
      Exactly key (visibleRows key lake.commits) es →
      TokensOf key (committedToken shardOf lake.shards) es →
      done.foldlM (compact key shardOf) lake = .ok lake' →
      Exactly key (visibleRows key lake'.commits)
        (es ++ (done.flatten.flatMap CdcSlice.batches).flatten) := by
  induction done with
  | nil =>
    intro lake lake' es hrows _ h
    cases h
    simpa using hrows
  | cons group done ih =>
    intro lake lake' es hrows htok h
    rw [List.foldlM_cons, bind_eq_ok] at h
    obtain ⟨lake₁, hgroup, hrest⟩ := h
    simp only [compact, bind_eq_ok] at hgroup
    obtain ⟨final, hfinal, shards, hshards, hlake⟩ := hgroup
    cases hlake
    have hfinal := isFinal_of_ok hfinal
    have hrows₁ : Exactly key (visibleRows key (lake.commits ++ [⟨final.upserts, final.deletes⟩]))
        (es ++ (group.flatMap CdcSlice.batches).flatten) := by
      simpa [visibleRows] using hrows.commit htok hfinal
    have htok₁ : TokensOf key (committedToken shardOf shards)
        (es ++ (group.flatMap CdcSlice.batches).flatten) := by
      intro k
      rw [committedToken_persistCdcStateDelta hshards]
      exact tokens_latest htok hfinal k
    have hall := ih hrows₁ htok₁ hrest
    simpa using hall

theorem map_event_placed (slices : List (CdcSlice R)) :
    (placed slices).map Placed.event = (slices.flatMap CdcSlice.batches).flatten := by
  induction slices with
  | nil => rfl
  | cons slice slices ih =>
    have hslice : slice.placed.map Placed.event = slice.batches.flatten := by
      rw [CdcSlice.placed, List.map_map]
      exact List.zipIdx_map_fst 0 _
    simp only [placed, List.flatMap_cons, List.map_append, List.flatten_append] at ih ⊢
    rw [hslice, ih]

/-! ## The collapsed WAL holds the greatest uncompacted events -/

theorem flatten_attachCdcSidecar (seq ordinal : Nat) :
    ∀ (rowBase : Nat) (batches : List (List (Event R))),
      (attachCdcSidecar seq ordinal rowBase batches).flatten =
        (batches.flatten.zipIdx rowBase).map fun p =>
          (⟨p.1.row, mutationToU8 p.1.mutation, p.1.orderToken, seq, ordinal, p.2⟩ : WalRow R)
  | _, [] => rfl
  | rowBase, batch :: batches => by
    rw [attachCdcSidecar, List.flatten_cons, flatten_attachCdcSidecar, List.flatten_cons,
      List.zipIdx_append, List.map_append]

theorem flatten_readPinnedSlice (live : List (CdcSlice R)) :
    (live.flatMap readPinnedSlice).flatten = (placed live).map Placed.walRow := by
  induction live with
  | nil => rfl
  | cons slice live ih =>
    have hslice : (readPinnedSlice slice).flatten = slice.placed.map Placed.walRow := by
      rw [readPinnedSlice, flatten_attachCdcSidecar, CdcSlice.placed, List.map_map]
      rfl
    simp only [placed, List.flatMap_cons, List.flatten_append, List.map_append] at ih ⊢
    rw [hslice, ih]

theorem collapseBatches_eq (key : R → Option K) (batches : List (List (WalRow R))) :
    ∀ (place : Nat) (s : Collapse K), (∀ w ∈ batches.flatten, key w.row ≠ none) →
      collapseBatches key batches place s =
        (batches.flatten.zipIdx place).foldlM (collapseStep key) s := by
  induction batches with
  | nil => intro place s _; rfl
  | cons batch batches ih =>
    intro place s hkeys
    have hany : (batch.any fun w => (key w.row).isNone) = false := by
      rw [List.any_eq_false]
      intro w hw
      simpa using hkeys w (by simp [hw])
    rw [collapseBatches, if_neg (by simp [hany]), List.flatten_cons, List.zipIdx_append,
      List.foldlM_append]
    congr 1
    funext s'
    exact ih _ s' fun w hw => hkeys w (by rw [List.flatten_cons]; exact List.mem_append_right _ hw)

def WalRow.cdcKey (key : R → Option K) (w : WalRow R) : Option K :=
  if w.mutation = 0 then none else key w.row

def toWinner (p : WalRow R × Nat) : Winner where
  tie := p.1.tie
  mutation := if p.1.mutation = 4 then .delete else if p.1.mutation = 3 then .update
    else if p.1.mutation = 2 then .insert else .snapshot
  place := p.2

theorem toWinner_delete (p : WalRow R × Nat) :
    (toWinner p).mutation = .delete ↔ p.1.mutation = 4 := by
  simp only [toWinner]
  split_ifs <;> simp_all

section Collapse
variable {key : R → Option K}

theorem collapseStep_spec {s : Collapse K} {m : Map K (WalRow R × Nat)} {p : WalRow R × Nat}
    (hrel : ∀ k, s.winners.get k = (m.get k).map toWinner) (hkey : key p.1.row ≠ none)
    (hcode : p.1.mutation ≤ 4) :
    ∃ s', collapseStep key s p = .ok s' ∧
      s'.appendRows = s.appendRows ++ (if p.1.mutation = 0 then [p.2] else []) ∧
      ∀ k, s'.winners.get k = ((keepLatest (fun p : WalRow R × Nat => p.1.cdcKey key)
        (fun p => p.1.tie) (fun _ => none) m p).get k).map toWinner := by
  by_cases happend : p.1.mutation = 0
  · have hnone : p.1.cdcKey key = none := if_pos happend
    refine ⟨{ s with appendRows := s.appendRows ++ [p.2] }, ?_, ?_, fun k => ?_⟩
    · simp only [collapseStep, happend, decodeMutation]
      rfl
    · rw [if_pos happend]
    · simp only [keepLatest, hnone]
      exact hrel k
  obtain ⟨k', hk'⟩ := Option.ne_none_iff_exists'.1 hkey
  have hcdc : p.1.cdcKey key = some k' := (if_neg happend).trans hk'
  rw [keepLatest_of_key (fun p : WalRow R × Nat => p.1.cdcKey key) _ _ hcdc, Option.or_none,
    if_neg happend, List.append_nil]
  have hinsert : ∀ k, Map.get (s.winners.insert k' (toWinner p)) k =
      (Map.get (m.insert k' p) k).map toWinner := by
    intro k
    rw [Map.get_insert, Map.get_insert]
    split
    · rfl
    · exact hrel k
  have hdecode : decodeMutation p.1.mutation = .ok (some (toWinner p).mutation) := by
    simp only [toWinner]
    generalize p.1.mutation = code at hcode happend
    interval_cases code <;> first | rfl | exact absurd rfl happend
  cases hm : m.get k' with
  | none =>
    refine ⟨{ s with winners := s.winners.insert k' (toWinner p) }, ?_, rfl, fun k => ?_⟩
    · simp only [collapseStep, hdecode, hk', hrel k', hm]
      rfl
    · rw [Option.map_none, if_pos (above_none _)]
      exact hinsert k
  | some q =>
    by_cases hle : p.1.tie ≤ q.1.tie
    · refine ⟨s, ?_, rfl, fun k => ?_⟩
      · simp only [collapseStep, hdecode, hk', hrel k', hm]
        exact if_pos hle
      · rw [Option.map_some, if_neg (by simpa using hle)]
        exact hrel k
    · refine ⟨{ s with winners := s.winners.insert k' (toWinner p) }, ?_, rfl, fun k => ?_⟩
      · simp only [collapseStep, hdecode, hk', hrel k', hm]
        exact if_neg hle
      · rw [Option.map_some, if_pos (by simpa using hle)]
        exact hinsert k

theorem collapse_loop_spec (l : List (WalRow R × Nat)) (hkeys : ∀ p ∈ l, key p.1.row ≠ none)
    (hcodes : ∀ p ∈ l, p.1.mutation ≤ 4) :
    ∀ {s : Collapse K} {m : Map K (WalRow R × Nat)},
      (∀ k, s.winners.get k = (m.get k).map toWinner) →
      ∃ s', l.foldlM (collapseStep key) s = .ok s' ∧
        s'.appendRows = s.appendRows ++ (l.filter fun p => p.1.mutation = 0).map Prod.snd ∧
        ∀ k, s'.winners.get k = ((l.foldl (keepLatest (fun p : WalRow R × Nat => p.1.cdcKey key)
          (fun p => p.1.tie) (fun _ => none)) m).get k).map toWinner := by
  induction l with
  | nil => exact fun hrel => ⟨_, rfl, (List.append_nil _).symm, hrel⟩
  | cons p l ih =>
    intro s m hrel
    obtain ⟨s₁, h₁, happ₁, hrel₁⟩ := collapseStep_spec hrel (hkeys p List.mem_cons_self)
      (hcodes p List.mem_cons_self)
    obtain ⟨s', h', happ', hrel'⟩ := ih (List.forall_mem_cons.1 hkeys).2
      (List.forall_mem_cons.1 hcodes).2 hrel₁
    refine ⟨s', ?_, ?_, hrel'⟩
    · rw [List.foldlM_cons, h₁]
      exact h'
    · rw [happ', happ₁, List.append_assoc]
      by_cases happend : p.1.mutation = 0 <;> simp [happend]

/-- The CDC row of a key that is greatest in (order token, seq, ordinal, row
index), with its place. -/
def greatestRow (key : R → Option K) (rows : List (WalRow R)) (k : K) : Option (WalRow R × Nat) :=
  greatest (fun p => p.1.tie) (ofKey (fun p => p.1.cdcKey key) k rows.zipIdx)

/-- The rows a collapse should keep: the append rows and, of every key, the
greatest row unless it is a delete. -/
def survivingRows (key : R → Option K) (rows : List (WalRow R)) : List (WalRow R × Nat) :=
  rows.zipIdx.filter fun p => p.1.mutation = 0 ||
    ((p.1.cdcKey key).bind (greatestRow key rows)).any fun w => w.2 = p.2 && w.1.mutation ≠ 4

variable {batches : List (List (WalRow R))}

theorem collapseBatches_ok (hkeys : ∀ w ∈ batches.flatten, key w.row ≠ none)
    (hcodes : ∀ w ∈ batches.flatten, w.mutation ≤ 4) :
    ∃ s, collapseBatches key batches 0 ⟨∅, []⟩ = .ok s ∧
      s.appendRows = (batches.flatten.zipIdx.filter fun p => p.1.mutation = 0).map Prod.snd ∧
      ∀ k, s.winners.get k =
        (winnerAt (WalRow.cdcKey key) WalRow.tie (fun _ => none) batches.flatten k).map toWinner := by
  obtain ⟨s, hloop, happ, hrel⟩ := collapse_loop_spec batches.flatten.zipIdx
    (fun p hp => hkeys p.1 (List.fst_mem_of_mem_zipIdx hp))
    (fun p hp => hcodes p.1 (List.fst_mem_of_mem_zipIdx hp))
    (s := ⟨∅, []⟩) (m := ∅) (fun _ => rfl)
  refine ⟨s, by rw [collapseBatches_eq key _ _ _ hkeys, hloop], happ, fun k => ?_⟩
  rw [hrel, get_foldl_keepLatest]
  rfl

theorem mem_changedKeys {rows : List (WalRow R)} {winners : Map K Winner} (hw : ∀ k, winners.get k =
      (winnerAt (WalRow.cdcKey key) WalRow.tie (fun _ => none) rows k).map toWinner) (k : K) :
    k ∈ winners.keys ↔ ofKey (WalRow.cdcKey key) k rows ≠ [] := by
  rw [Map.mem_keys_iff, hw, Ne, Option.map_eq_none_iff, ← Option.map_eq_none_iff (f := Prod.fst),
    winnerAt_map_fst, greatest_eq_none, contenders]
  simp

theorem collapseWalBatches_ok (hkeys : ∀ w ∈ batches.flatten, key w.row ≠ none)
    (hcodes : ∀ w ∈ batches.flatten, w.mutation ≤ 4) :
    ∃ c, collapseWalBatches key batches = .ok c ∧
      (∀ k, k ∈ c.changedKeys ↔ ofKey (WalRow.cdcKey key) k batches.flatten ≠ []) ∧
      c.survivors = (survivingRows key batches.flatten).map fun p => p.1.row := by
  obtain ⟨s, hs, happ, hw⟩ := collapseBatches_ok hkeys hcodes
  refine ⟨_, by rw [collapseWalBatches, hs]; rfl, mem_changedKeys hw, ?_⟩
  refine congrArg _ (List.filter_congr fun p hp => ?_)
  have happend : p.2 ∈ s.appendRows ↔ p.1.mutation = 0 := by
    rw [happ, List.mem_map]
    constructor
    · rintro ⟨q, hq, hplace⟩
      obtain ⟨hq, hcode⟩ := List.mem_filter.1 hq
      rw [← List.inj_on_of_nodup_map (nodup_places batches.flatten) hq hp hplace]
      exact of_decide_eq_true hcode
    · exact fun hcode => ⟨p, List.mem_filter.2 ⟨hp, decide_eq_true hcode⟩, rfl⟩
  by_cases hcode : p.1.mutation = 0
  · simp [happend, hcode]
  · obtain ⟨k, hk⟩ := Option.ne_none_iff_exists'.1 (hkeys p.1 (List.fst_mem_of_mem_zipIdx hp))
    have hcdc : p.1.cdcKey key = some k := (if_neg hcode).trans hk
    have hmask := any_winners (WalRow.cdcKey key) WalRow.tie (fun _ => none) batches.flatten
      toWinner Winner.place (fun _ => rfl) hw (fun _ w => w.mutation ≠ .delete) hp hcdc
    dsimp only
    rw [hmask, hcdc, Option.bind_some, winnerAt, contenders, greatestRow]
    simp [happend, hcode, toWinner_delete]

theorem keys_of_collapseBatches :
    ∀ {place : Nat} {s s' : Collapse K}, collapseBatches key batches place s = .ok s' →
      ∀ w ∈ batches.flatten, key w.row ≠ none := by
  induction batches with
  | nil => exact fun _ w hw => absurd hw List.not_mem_nil
  | cons batch batches ih =>
    intro place s s' h w hw
    obtain ⟨hany, h⟩ := of_check h
    obtain ⟨s₁, -, hrest⟩ := bind_eq_ok.1 h
    rcases List.mem_append.1 hw with hw | hw
    · exact fun hnone => hany (List.any_eq_true.2 ⟨w, hw, by simp [hnone]⟩)
    · exact ih hrest w hw

/-- **Collapse.** It succeeds and keeps the append rows and the greatest row of
every key, unless that is a delete, exactly if no append row has a null key. -/
theorem collapse_exact_iff {R K : Type} [DecidableEq K] (key : R → Option K)
    (batches : List (List (WalRow R))) (hcodes : ∀ w ∈ batches.flatten, w.mutation ≤ 4)
    (hcdc : ∀ w ∈ batches.flatten, w.mutation ≠ 0 → key w.row ≠ none) :
    (∃ c, collapseWalBatches key batches = .ok c ∧
      (∀ k, k ∈ c.changedKeys ↔ ∃ w ∈ batches.flatten, w.mutation ≠ 0 ∧ key w.row = some k) ∧
      c.survivors = (survivingRows key batches.flatten).map fun p => p.1.row) ↔
      ∀ w ∈ batches.flatten, w.mutation = 0 → key w.row ≠ none := by
  constructor
  · rintro ⟨c, hc, -⟩ w hw -
    obtain ⟨s, hs, -⟩ := bind_eq_ok.1 hc
    exact keys_of_collapseBatches hs w hw
  · intro happend
    have hkeys : ∀ w ∈ batches.flatten, key w.row ≠ none := fun w hw =>
      (em (w.mutation = 0)).elim (happend w hw) (hcdc w hw)
    obtain ⟨c, hc, hchanged, hsurvivors⟩ := collapseWalBatches_ok hkeys hcodes
    refine ⟨c, hc, fun k => ?_, hsurvivors⟩
    have hkey : ∀ w : WalRow R, w.cdcKey key = some k ↔ w.mutation ≠ 0 ∧ key w.row = some k := by
      intro w
      by_cases hw : w.mutation = 0 <;> simp [WalRow.cdcKey, hw]
    rw [hchanged, Ne, List.eq_nil_iff_forall_not_mem]
    simp only [mem_ofKey, hkey, not_forall, not_not]

def insertAndAppend (k : Option Nat) : List (List (WalRow (Option Nat))) :=
  [[⟨some 7, 2, oneByte 1, 1, 0, 0⟩], [⟨k, 0, [], 1, 1, 0⟩]]

theorem collapse_keeps_keyed_append : ∃ c,
    collapseWalBatches id (insertAndAppend (some 9)) = .ok c ∧ c.survivors = [some 7, some 9] := by
  obtain ⟨c, hc, -, hsurvivors⟩ :=
    (collapse_exact_iff id (insertAndAppend (some 9)) (by decide) (by decide)).2 (by decide)
  exact ⟨c, hc, hsurvivors.trans (by decide)⟩

/-- The append row needs no key, but a null in its key columns fails the call. -/
theorem null_append_key_fails :
    (∀ w ∈ (insertAndAppend none).flatten, w.mutation ≠ 0 → w.row ≠ none) ∧
      collapseWalBatches id (insertAndAppend none) = .error .nullKey :=
  ⟨by decide, rfl⟩

theorem Placed.walRow_mutation (e : Placed R) : e.walRow.mutation ≠ 0 ∧ e.walRow.mutation ≤ 4 := by
  cases hm : e.event.mutation <;> simp [Placed.walRow, hm, mutationToU8]

theorem ofKey_walRow (key : R → Option K) (k : K) (l : List (Placed R)) :
    ofKey (WalRow.cdcKey key) k (l.map Placed.walRow) = (ofKey (Placed.key key) k l).map Placed.walRow := by
  have hkey : (fun e : Placed R => e.walRow.cdcKey key) = Placed.key key :=
    funext fun e => if_neg e.walRow_mutation.1
  rw [ofKey_map, hkey]

theorem winnerAt_walRow (key : R → Option K) (k : K) (l : List (Placed R)) :
    (winnerAt (WalRow.cdcKey key) WalRow.tie (fun _ => none) (l.map Placed.walRow) k).map Prod.fst =
      (greatestOf key k l).map Placed.walRow := by
  rw [winnerAt_map_fst, contenders, ofKey_walRow]
  simp only [above_none, decide_true, List.filter_true, greatest_map]
  rfl

theorem collapseWalBatches_spec {live : List (CdcSlice R)}
    (hkeys : ∀ e ∈ placed live, e.key key ≠ none) :
    ∃ c, collapseWalBatches key (live.flatMap readPinnedSlice) = .ok c ∧
      (∀ k, k ∈ c.changedKeys ↔ ofKey (Placed.key key) k (placed live) ≠ []) ∧
      (∀ r ∈ c.survivors, key r ≠ none) ∧
      ∀ k, ofKey key k c.survivors =
        ((greatestOf key k (placed live)).bind fun e => e.event.effect).toList := by
  have hrows := flatten_readPinnedSlice live
  have hall : ∀ w ∈ (live.flatMap readPinnedSlice).flatten, key w.row ≠ none ∧ w.mutation ≤ 4 ∧
      w.mutation ≠ 0 := by
    intro w hw
    rw [hrows] at hw
    obtain ⟨e, he, rfl⟩ := List.mem_map.1 hw
    exact ⟨hkeys e he, e.walRow_mutation.2, e.walRow_mutation.1⟩
  obtain ⟨s, hs, happ, hw⟩ := collapseBatches_ok (fun w hw => (hall w hw).1) fun w hw => (hall w hw).2.1
  have hnone : s.appendRows = [] := by
    rw [happ, List.map_eq_nil_iff, List.filter_eq_nil_iff]
    exact fun p hp => by simpa using (hall p.1 (List.fst_mem_of_mem_zipIdx hp)).2.2
  refine ⟨_, by rw [collapseWalBatches, hs]; rfl, fun k => ?_, fun r hr => ?_, fun k => ?_⟩
  · rw [mem_changedKeys hw, hrows, ofKey_walRow, Ne, List.map_eq_nil_iff]
  · obtain ⟨p, hp, rfl⟩ := List.mem_map.1 hr
    exact (hall p.1 (List.fst_mem_of_mem_zipIdx (List.mem_filter.1 hp).1)).1
  · have hpick := ofKey_filter_winners (WalRow.cdcKey key) WalRow.tie (fun _ => none)
      (live.flatMap readPinnedSlice).flatten toWinner Winner.place (fun _ => rfl) hw
      (fun _ w => w.mutation ≠ .delete) k
    have hsame : ∀ l : List (WalRow R × Nat), l ⊆ (live.flatMap readPinnedSlice).flatten.zipIdx →
        ofKey (fun p => key p.1.row) k l = ofKey (fun p => p.1.cdcKey key) k l := by
      intro l hl
      refine List.filter_congr fun p hp => ?_
      have hk : p.1.cdcKey key = key p.1.row := if_neg (hall p.1 (List.fst_mem_of_mem_zipIdx (hl hp))).2.2
      exact congrArg (fun o => decide (o = some k)) hk.symm
    simp only [hnone, List.not_mem_nil, decide_false, Bool.false_or]
    rw [ofKey_map, hsame _ (List.filter_subset_self _), hpick]
    have hwin := winnerAt_walRow key k (placed live)
    rw [← hrows] at hwin
    cases hg : greatestOf key k (placed live) with
    | none =>
      rw [hg, Option.map_none, Option.map_eq_none_iff] at hwin
      rw [hwin]
      rfl
    | some e =>
      rw [hg, Option.map_some, Option.map_eq_some_iff] at hwin
      obtain ⟨p, hp, hrow⟩ := hwin
      have hdelete : p.1.mutation = 4 ↔ e.event.mutation = .delete := by
        rw [hrow]
        cases hm : e.event.mutation <;> simp [Placed.walRow, hm, mutationToU8]
      have hvalue : p.1.row = e.event.row := by rw [hrow, Placed.walRow]
      rw [hp, Option.filter_some, Option.bind_some, Event.effect]
      by_cases hd : e.event.mutation = .delete <;> simp [toWinner_delete, hdelete, hd, hvalue]

end Collapse

/-! ## The query -/

theorem ofKey_antiJoinLake (key : R → Option K) (lake : List R) (changed : List K) (k : K) :
    ofKey key k (antiJoinLake key lake changed) = if k ∈ changed then [] else ofKey key k lake := by
  unfold antiJoinLake
  split
  · rename_i hnil
    simp [hnil]
  · rw [ofKey, List.filter_filter]
    split
    · rename_i hk
      rw [List.filter_eq_nil_iff]
      intro r _ hr
      simp only [Bool.and_eq_true, decide_eq_true_eq] at hr
      simp [hr.1, hk] at hr
    · rename_i hk
      refine List.filter_congr fun r _ => ?_
      by_cases hr : key r = some k
      · simp [hr, hk]
      · simp [hr]

/-- The event a query shows of a key: the greatest uncompacted one, whatever
the lake holds; without one, the latest the lake has seen. -/
def shown (key : R → Option K) (done : List (List (CdcSlice R))) (live : List (CdcSlice R)) (k : K) :
    Option (Event R) :=
  if ofKey (Placed.key key) k (placed live) = [] then
    latest key k ((placed done.flatten).map Placed.event)
  else (greatestOf key k (placed live)).map Placed.event

theorem ofKey_query {done : List (List (CdcSlice R))} {live : List (CdcSlice R)} {lake : Lake R K}
    (hkeys : ∀ e ∈ placed live, e.key key ≠ none) (hlake : lakeOf key shardOf done = .ok lake) :
    ∃ rows, query key lake live = .ok rows ∧ (∀ r ∈ rows, key r ≠ none) ∧
      ∀ k, ofKey key k rows = ((shown key done live k).bind Event.effect).toList := by
  obtain ⟨c, hc, hchanged, hsurvivors, hcollapsed⟩ := collapseWalBatches_spec hkeys
  have hempty : Exactly key (visibleRows key ([] : List (Commit R K))) [] :=
    ⟨fun r hr => (by cases hr), fun _ => rfl⟩
  obtain ⟨hlakeKeys, hlakeRows⟩ := lakeOf_spec done hempty (fun _ => rfl) hlake
  rw [← map_event_placed] at hlakeRows
  refine ⟨_, by rw [query, hc]; rfl, fun r hr => ?_, fun k => ?_⟩
  · rcases List.mem_append.1 hr with hr | hr
    · refine hlakeKeys r ?_
      unfold antiJoinLake at hr
      split at hr
      · exact hr
      · exact (List.mem_filter.1 hr).1
    · exact hsurvivors r hr
  · rw [ofKey_append, ofKey_antiJoinLake, hcollapsed, hlakeRows k, shown]
    by_cases hk : ofKey (Placed.key key) k (placed live) = []
    · -- nothing uncompacted: the lake row stays
      have hno : k ∉ c.changedKeys := fun hmem => (hchanged k).1 hmem hk
      have hnone : greatestOf key k (placed live) = none := (greatest_eq_none _).2 hk
      rw [if_neg hno, if_pos hk, hnone]
      simp
    · rw [if_pos ((hchanged k).2 hk), if_neg hk, Option.bind_map]
      rfl

/-- **When a query is right.** Its rows are those of the greatest events exactly
when, key by key, the event it shows does what the greatest one does. -/
theorem query_answers_iff {R K : Type} [DecidableEq K] (key : R → Option K) (shardOf : K → Nat)
    (done : List (List (CdcSlice R))) (live : List (CdcSlice R)) (lake : Lake R K)
    (hkeys : ∀ e ∈ placed live, e.key key ≠ none) (hlake : lakeOf key shardOf done = .ok lake) :
    (∃ rows, query key lake live = .ok rows ∧ Answers key rows (placed (done.flatten ++ live))) ↔
      Current key done live := by
  obtain ⟨rows, hrows, hnull, hshown⟩ := ofKey_query hkeys hlake
  have hanswers : (∃ rows, query key lake live = .ok rows ∧
      Answers key rows (placed (done.flatten ++ live))) ↔
      ∀ k, (shown key done live k).bind Event.effect =
        (greatestOf key k (placed (done.flatten ++ live))).bind fun e => e.event.effect := by
    constructor
    · rintro ⟨rows', hrows', hans⟩ k
      obtain rfl := Except.ok.inj (hrows'.symm.trans hrows)
      have hk := hans.2 k
      rw [hshown k] at hk
      simpa using congrArg List.head? hk
    · intro hall
      refine ⟨rows, hrows, hnull, fun k => ?_⟩
      rw [hshown k, hall k]
  have hsplit : placed (done.flatten ++ live) = placed done.flatten ++ placed live := by
    simp [placed]
  rw [hanswers]
  refine forall_congr' fun k => ?_
  cases hg : greatestOf key k (placed (done.flatten ++ live)) with
  | none =>
    -- no event of the key: nothing to show
    have hnil := (greatest_eq_none _).1 hg
    rw [hsplit, ofKey_append, List.append_eq_nil_iff] at hnil
    have hdone : latest key k ((placed done.flatten).map Placed.event) = none := by
      rw [latest, greatest_eq_none, ofKey_map]
      exact List.map_eq_nil_iff.2 hnil.1
    simp [shown, hnil.2, hdone]
  | some g =>
    simp only [Option.mem_def, Option.some.injEq, forall_eq', Option.bind_some]
    by_cases hk : ofKey (Placed.key key) k (placed live) = []
    · have hnone : greatestOf key k (placed live) = none := (greatest_eq_none _).2 hk
      -- the lake has seen `g`, so it shows something
      obtain ⟨f, hf⟩ : ∃ f, latest key k ((placed done.flatten).map Placed.event) = some f := by
        rw [← Option.ne_none_iff_exists', Ne, latest, greatest_eq_none, ofKey_map,
          List.map_eq_nil_iff]
        intro hnil
        have hmem := mem_of_greatest _ hg
        rw [hsplit, ofKey_append, hk, List.append_nil] at hmem
        exact absurd hmem (by rw [show ofKey (Placed.key key) k (placed done.flatten) = [] from hnil]; simp)
      simp [shown, hk, hnone, hf]
    · obtain ⟨f, hf⟩ : ∃ f, greatestOf key k (placed live) = some f :=
        Option.ne_none_iff_exists'.1 fun hnone => hk ((greatest_eq_none _).1 hnone)
      simp [shown, hk, hf]

/-! ## A stale slice -/

instance {R K : Type} [DecidableEq K] [Fintype K] [DecidableEq R] (key : R → Option K)
    (done : List (List (CdcSlice R))) (live : List (CdcSlice R)) : Decidable (Current key done live) :=
  inferInstanceAs (Decidable (∀ k, ∀ g ∈ greatestOf key k (placed (done.flatten ++ live)), _ ∧ (_ → _)))

def keyColumn (r : Bool × Nat) : Option Bool := some r.1

def olderSlice : CdcSlice (Bool × Nat) := ⟨1, 0, [[⟨.insert, oneByte 1, (false, 10)⟩]]⟩

def newerSlice : CdcSlice (Bool × Nat) := ⟨2, 0, [[⟨.update, oneByte 2, (false, 20)⟩]]⟩

def answer (done : List (List (CdcSlice (Bool × Nat)))) (live : List (CdcSlice (Bool × Nat))) :
    Option (List (Bool × Nat)) :=
  (lakeOf keyColumn Bool.toNat done).toOption.bind fun lake => (query keyColumn lake live).toOption

theorem exists_lake_of_answer {done : List (List (CdcSlice (Bool × Nat)))}
    {live : List (CdcSlice (Bool × Nat))} {rows : List (Bool × Nat)}
    (h : answer done live = some rows) :
    ∃ lake, lakeOf keyColumn Bool.toNat done = .ok lake ∧ query keyColumn lake live = .ok rows := by
  unfold answer at h
  cases hlake : lakeOf keyColumn Bool.toNat done with
  | error e => simp [hlake, Except.toOption] at h
  | ok lake =>
    cases hquery : query keyColumn lake live with
    | error e => simp [hlake, hquery, Except.toOption] at h
    | ok rows' =>
      simp only [hlake, hquery, Except.toOption, Option.bind_some, Option.some.injEq] at h
      exact ⟨lake, rfl, h ▸ hquery⟩

theorem query_answers_newer_uncompacted : ∃ lake,
    lakeOf keyColumn Bool.toNat [[olderSlice]] = .ok lake ∧
      query keyColumn lake [newerSlice] = .ok [(false, 20)] ∧
      ∃ rows, query keyColumn lake [newerSlice] = .ok rows ∧
        Answers keyColumn rows (placed ([[olderSlice]].flatten ++ [newerSlice])) := by
  have hanswer : answer [[olderSlice]] [newerSlice] = some [(false, 20)] := by decide +kernel
  obtain ⟨lake, hlake, hrows⟩ := exists_lake_of_answer hanswer
  have hcurrent : Current keyColumn [[olderSlice]] [newerSlice] := by decide +kernel
  exact ⟨lake, hlake, hrows, (query_answers_iff keyColumn Bool.toNat [[olderSlice]] [newerSlice] lake
    (fun e _ => by simp [Placed.key, keyColumn]) hlake).2 hcurrent⟩

/-- The update is compacted first: the query shows the stale insert, and
compacting that one too changes the answer. -/
theorem stale_slice_hides_newer_row : (∃ lake,
    lakeOf keyColumn Bool.toNat [[newerSlice]] = .ok lake ∧
      query keyColumn lake [olderSlice] = .ok [(false, 10)] ∧
      ¬ Answers keyColumn [(false, 10)] (placed [newerSlice, olderSlice])) ∧ ∃ lake,
    lakeOf keyColumn Bool.toNat [[newerSlice], [olderSlice]] = .ok lake ∧
      query keyColumn lake [] = .ok [(false, 20)] := by
  have hstale : answer [[newerSlice]] [olderSlice] = some [(false, 10)] := by decide +kernel
  have hwhole : answer [[newerSlice], [olderSlice]] [] = some [(false, 20)] := by decide +kernel
  obtain ⟨lake, hlake, hrows⟩ := exists_lake_of_answer hstale
  refine ⟨⟨lake, hlake, hrows, fun h => ?_⟩, exists_lake_of_answer hwhole⟩
  have hkey := h.2 false
  revert hkey
  decide +kernel

end Skippr.L7
