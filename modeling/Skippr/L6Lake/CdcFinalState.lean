import Skippr.Core.BigEndian
import Skippr.Core.Fallible
import Skippr.Core.Latest
import Skippr.Core.Text

/-!
# Final state of a CDC envelope (crates/skippr-iceberg-writer/src/lib.rs)

A grouped CDC compaction reads its whole envelope, keeps one event per business
key, and commits the surviving rows together with equality deletes for the keys
the table already knows. Which keys those are, and which events are stale, is
read from the committed order tokens, kept in sharded state objects beside the
table.
-/
namespace Skippr.L6.Cdc

inductive MutationKind
  | snapshot
  | insert
  | update
  | delete
deriving DecidableEq, Repr

abbrev OrderToken := List (Fin 256)

/-- The token of a source whose log positions fit in a byte. -/
def oneByte (position : Nat) : OrderToken := beBytes 1 position

structure Event (R : Type) where
  mutation : MutationKind
  orderToken : OrderToken
  row : R
deriving DecidableEq, Repr

/-- The row an event leaves of its key: none for a delete. -/
def Event.effect {R : Type} (e : Event R) : Option R :=
  if e.mutation = .delete then none else some e.row

/-! ## The columns the sink reads -/

def hexDigit (n : Fin 16) : Char :=
  (['0', '1', '2', '3', '4', '5', '6', '7', '8', '9', 'a', 'b', 'c', 'd', 'e', 'f'] : List Char).get n

def hexEncode (token : OrderToken) : Text :=
  token.flatMap fun b => [hexDigit ⟨b.val / 16, by omega⟩, hexDigit ⟨b.val % 16, by omega⟩]

/-- mirrors plugins/shared/cdc_encode.rs:46-53 -/
def mutationKindStr : MutationKind → Text
  | .snapshot => ['s', 'n', 'a', 'p', 's', 'h', 'o', 't']
  | .insert => ['i', 'n', 's', 'e', 'r', 't']
  | .update => ['u', 'p', 'd', 'a', 't', 'e']
  | .delete => ['d', 'e', 'l', 'e', 't', 'e']

/-- A row of the envelope, with `_skippr_mutation` and `_skippr_order_token`. -/
structure EnvelopeRow (R : Type) where
  row : R
  mutation : Text
  orderToken : Text

/-- mirrors cdc_encode.rs:62-102 -/
def augment {R : Type} (e : Event R) : EnvelopeRow R where
  row := e.row
  mutation := mutationKindStr e.mutation
  orderToken := hexEncode e.orderToken

inductive CdcError
  | nullKey
  | tokenNotHex (token : Text)
  | tokenWidth (seen incoming : Nat)
  | unsupportedMutation (mutation : Text)
  | tooManyKeys
deriving DecidableEq, Repr

def isAsciiHexdigit (c : Char) : Bool :=
  c.isDigit || ('a' ≤ c && c ≤ 'f') || ('A' ≤ c && c ≤ 'F')

/-- mirrors lib.rs:3721-3729 -/
def validateCdcOrderToken (token : Text) : Except CdcError Text :=
  if token = [] ∨ token.length % 2 ≠ 0 ∨ token.all isAsciiHexdigit = false then
    .error (.tokenNotHex token)
  else .ok token

/-- Is `seen` at least as new as `incoming`?
mirrors lib.rs:3731-3742 -/
def compareCdcOrderTokens (seen incoming : Text) : Except CdcError Bool := do
  let _ ← validateCdcOrderToken seen
  let _ ← validateCdcOrderToken incoming
  if seen.length ≠ incoming.length then .error (.tokenWidth seen.length incoming.length)
  else .ok (decide (incoming ≤ seen))

/-- A token is stale if what was seen before it is at least as new. -/
def isStale (seen : Option Text) (incoming : Text) : Except CdcError Bool :=
  match seen with
  | some seen => compareCdcOrderTokens seen incoming
  | none => .ok false

/-- mirrors lib.rs:3180-3189 -/
def isDelete (mutation : Text) : Except CdcError Bool :=
  if mutation = mutationKindStr .delete then .ok true
  else if mutation = mutationKindStr .snapshot ∨ mutation = mutationKindStr .insert ∨
      mutation = mutationKindStr .update then .ok false
  else .error (.unsupportedMutation mutation)

/-! ## The collapse -/

variable {R K : Type} [DecidableEq K]

/-- `place` is the row's position in the envelope. -/
structure CdcWinner where
  place : Nat
  token : Text
  delete : Bool
deriving DecidableEq, Repr

/-- mirrors lib.rs:63 -/
def maxEnvelopeKeys : Nat := 1000000

/-- One row of the loop.
mirrors lib.rs:3178-3213 -/
def finalStep (key : R → Option K) (committed : K → Option Text) (winners : Map K CdcWinner)
    (p : EnvelopeRow R × Nat) : Except CdcError (Map K CdcWinner) :=
  match key p.1.row with
  | none => .error .nullKey
  | some k => do
    let token ← validateCdcOrderToken p.1.orderToken
    let delete ← isDelete p.1.mutation
    let stale ← isStale (((winners.get k).map CdcWinner.token).or (committed k)) token
    if stale then .ok winners
    else if winners.get k = none ∧ maxEnvelopeKeys ≤ winners.keys.length then .error .tooManyKeys
    else .ok (winners.insert k { place := p.2, token, delete })

structure CdcFinalState (R K : Type) where
  upserts : List R
  deletes : List K
  tokens : Map K Text

def rowsAt (rows : List (EnvelopeRow R × Nat)) (mask : Nat → Bool) : List R :=
  (rows.filter fun p => mask p.2).map fun p => p.1.row

/-- mirrors lib.rs:3168-3258 -/
def finalStateCdcBatches (key : R → Option K) (batches : List (List (EnvelopeRow R)))
    (committed : K → Option Text) : Except CdcError (CdcFinalState R K) := do
  let rows := batches.flatten.zipIdx
  let winners ← rows.foldlM (finalStep key committed) ∅
  let upsertMask := fun place => winners.toList.any fun kw => kw.2.place = place && !kw.2.delete
  let deleteMask := fun place =>
    winners.toList.any fun kw => kw.2.place = place && (committed kw.1).isSome
  .ok {
    upserts := rowsAt rows upsertMask
    deletes := (rowsAt rows deleteMask).filterMap key
    tokens := winners.filterMap fun w => some w.token }

/-! ## The table and its committed tokens -/

/-- The data files and the equality-delete files of one snapshot. -/
structure Commit (R K : Type) where
  upserts : List R
  deletes : List K

/-- An equality delete retires the rows of older snapshots only. -/
def applyCommit (key : R → Option K) (rows : List R) (c : Commit R K) : List R :=
  (rows.filter fun r => ∀ k ∈ c.deletes, key r ≠ some k) ++ c.upserts

def visibleRows (key : R → Option K) (commits : List (Commit R K)) : List R :=
  commits.foldl (applyCommit key) []

abbrev Shards (K : Type) := Map Nat (Map K Text)

/-- A shard object that does not exist reads as empty.
mirrors lib.rs:1891-1922 -/
def loadShard (shards : Shards K) (shard : Nat) : Map K Text := (shards.get shard).getD ∅

def committedToken (shardOf : K → Nat) (shards : Shards K) (k : K) : Option Text :=
  (loadShard shards (shardOf k)).get k

/-- mirrors lib.rs:2011-2026 -/
def updateToken (values : Map K Text) (update : K × Text) : Except CdcError (Map K Text) := do
  let stale ← isStale (values.get update.1) update.2
  .ok (if stale then values else values.insert update.1 update.2)

/-- One shard of `persist_cdc_state_delta`: a conditional read-modify-write of
its object. mirrors lib.rs:1984-2074 -/
def persistShard (shardOf : K → Nat) (shards : Shards K) (delta : Map K Text) (shard : Nat) :
    Except CdcError (Shards K) := do
  let updates := delta.toList.filter fun u => shardOf u.1 = shard
  let values ← updates.foldlM updateToken (loadShard shards shard)
  .ok (shards.insert shard values)

/-- The shards a delta touches, in order.
mirrors lib.rs:1973-1980 -/
def deltaShards (shardOf : K → Nat) (delta : Map K Text) : List Nat :=
  (delta.keys.map shardOf).dedup.mergeSort

/-- mirrors lib.rs:1968-2076 -/
def persistCdcStateDelta (shardOf : K → Nat) (shards : Shards K) (delta : Map K Text) :
    Except CdcError (Shards K) :=
  (deltaShards shardOf delta).foldlM (fun s shard => persistShard shardOf s delta shard) shards

/-! ## Order of the tokens -/

theorem hexDigit_lt_iff (m n : Fin 16) : hexDigit m < hexDigit n ↔ m < n := by
  revert m n
  decide

theorem hexEncode_lt_iff : ∀ a b : OrderToken, hexEncode a < hexEncode b ↔ a < b
  | _, [] => by simp [hexEncode]
  | [], b :: bs => by simp [hexEncode]
  | a :: as, b :: bs => by
    change hexDigit _ :: hexDigit _ :: hexEncode as < hexDigit _ :: hexDigit _ :: hexEncode bs ↔ _
    rw [List.cons_lt_cons_iff, List.cons_lt_cons_iff, List.cons_lt_cons_iff, hexEncode_lt_iff as bs, hexDigit_lt_iff, hexDigit_lt_iff]
    have hdigits : ∀ m n : Fin 16, hexDigit m = hexDigit n ↔ m = n := by decide
    simp only [hdigits, Fin.lt_def, Fin.ext_iff]
    constructor
    · rintro (h | ⟨h₁, h | ⟨h₂, h⟩⟩)
      · exact .inl (by omega)
      · exact .inl (by omega)
      · exact .inr ⟨by omega, h⟩
    · rintro (h | ⟨h₁, h⟩)
      · omega
      · exact .inr ⟨by omega, .inr ⟨by omega, h⟩⟩

theorem compareCdcOrderTokens_ok {seen incoming : Text} {stale : Bool}
    (h : compareCdcOrderTokens seen incoming = .ok stale) : stale = decide (incoming ≤ seen) := by
  simp only [compareCdcOrderTokens, bind_eq_ok] at h
  obtain ⟨_, -, _, -, h⟩ := h
  split at h
  · cases h
  · exact (Except.ok.inj h).symm

theorem isStale_ok {seen : Option Text} {incoming : Text} {stale : Bool}
    (h : isStale seen incoming = .ok stale) : stale = true ↔ ¬ Above seen incoming := by
  cases seen with
  | none =>
    cases h
    simp
  | some seen => simp [compareCdcOrderTokens_ok h]

theorem isDelete_ok {mutation : Text} {delete : Bool} (h : isDelete mutation = .ok delete) :
    delete = decide (mutation = mutationKindStr .delete) := by
  unfold isDelete at h
  split_ifs at h with hdelete
  · rw [← Except.ok.inj h, decide_eq_true hdelete]
  · rw [← Except.ok.inj h, decide_eq_false hdelete]

/-! ## What the collapse computes -/

def Event.token (e : Event R) : Text := hexEncode e.orderToken

def Event.key (key : R → Option K) (e : Event R) : Option K := key e.row

/-- The latest event of a key: the first with the greatest order token. -/
def latest (key : R → Option K) (k : K) (es : List (Event R)) : Option (Event R) :=
  greatest Event.orderToken (ofKey (Event.key key) k es)

omit [DecidableEq K] in
theorem greatest_token (es : List (Event R)) :
    greatest Event.token es = greatest Event.orderToken es :=
  greatest_comp Event.orderToken hexEncode hexEncode_lt_iff es

/-- The event of key `k` an envelope changes the table with: the latest of
those above the committed token. -/
def winner (key : R → Option K) (committed : K → Option Text) (es : List (Event R)) (k : K) :
    Option (Event R) :=
  greatest Event.token (contenders (Event.key key) Event.token committed k es)

def EnvelopeRow.key (key : R → Option K) (r : EnvelopeRow R) : Option K := key r.row

def toWinner (p : EnvelopeRow R × Nat) : CdcWinner where
  place := p.2
  token := p.1.orderToken
  delete := decide (p.1.mutation = mutationKindStr .delete)

abbrev rowWinner (key : R → Option K) (committed : K → Option Text) (rows : List (EnvelopeRow R))
    (k : K) : Option (EnvelopeRow R × Nat) :=
  winnerAt (EnvelopeRow.key key) EnvelopeRow.orderToken committed rows k

section Collapse
variable {key : R → Option K} {committed : K → Option Text}

variable {winners : Map K CdcWinner}

theorem finalStep_spec {winners' : Map K CdcWinner} {m : Map K (EnvelopeRow R × Nat)}
    {p : EnvelopeRow R × Nat} (hrel : ∀ k, winners.get k = (m.get k).map toWinner)
    (h : finalStep key committed winners p = .ok winners') (k : K) :
    winners'.get k = ((keepLatest (fun p : EnvelopeRow R × Nat => p.1.key key)
      (fun p => p.1.orderToken) committed m p).get k).map toWinner := by
  unfold finalStep at h
  cases hkey : key p.1.row with
  | none => simp [hkey] at h
  | some k' =>
    have hseen : ((winners.get k').map CdcWinner.token) = (m.get k').map fun p => p.1.orderToken := by
      rw [hrel, Option.map_map]
      rfl
    rw [keepLatest_of_key (fun p : EnvelopeRow R × Nat => p.1.key key) _ committed hkey]
    simp only [hkey, hseen, bind_eq_ok] at h
    obtain ⟨token, hval, delete, hdelete, stale, hstale, h⟩ := h
    obtain rfl := isDelete_ok hdelete
    obtain ⟨-, hval⟩ := of_check hval
    cases hval
    have hstale := isStale_ok hstale
    split at h
    · rename_i hst
      rw [if_neg (hstale.1 hst)]
      cases h
      exact hrel k
    · rename_i hst
      rw [if_pos (not_not.1 fun habove => hst (hstale.2 habove))]
      split at h
      · cases h
      · cases h
        rw [Map.get_insert, Map.get_insert]
        split
        · rfl
        · exact hrel k

theorem key_of_finalStep {winners' : Map K CdcWinner} {p : EnvelopeRow R × Nat}
    (h : finalStep key committed winners p = .ok winners') : key p.1.row ≠ none := by
  intro hkey
  simp [finalStep, hkey] at h

theorem finalStep_loop_spec {rows : List (EnvelopeRow R)}
    (h : rows.zipIdx.foldlM (finalStep key committed) ∅ = .ok winners) (k : K) :
    winners.get k = (rowWinner key committed rows k).map toWinner := by
  let pass := keepLatest (fun p : EnvelopeRow R × Nat => p.1.key key) (fun p => p.1.orderToken) committed
  have hstep : ∀ (w : Map K CdcWinner) (m : Map K (EnvelopeRow R × Nat)) (p : EnvelopeRow R × Nat)
      (w' : Map K CdcWinner), (∀ k, w.get k = (m.get k).map toWinner) →
      finalStep key committed w p = .ok w' → ∀ k, w'.get k = ((pass m p).get k).map toWinner :=
    fun _ _ _ _ hrel hstep => finalStep_spec hrel hstep
  have hloop := foldlM_simulates _ hstep rows.zipIdx (t := ∅) (fun _ => rfl) h k
  rw [hloop, get_foldl_keepLatest]
  rfl

end Collapse

structure IsFinal (key : R → Option K) (committed : K → Option Text) (es : List (Event R))
    (c : Commit R K) (tokens : Map K Text) : Prop where
  tokens : ∀ k, tokens.get k = (winner key committed es k).map Event.token
  upserts : ∀ k, ofKey key k c.upserts = ((winner key committed es k).bind Event.effect).toList
  deletes : ∀ k, k ∈ c.deletes ↔ winner key committed es k ≠ none ∧ committed k ≠ none
  keyed : ∀ r ∈ c.upserts, key r ≠ none

variable {key : R → Option K} {committed : K → Option Text} {delta tokens : Map K Text}
  {shardOf : K → Nat} {es g : List (Event R)} {c : Commit R K}

theorem ofKey_rowsAt {rows : List (EnvelopeRow R)} {winners : Map K CdcWinner}
    (hw : ∀ k, winners.get k = (rowWinner key committed rows k).map toWinner)
    (keep : K → CdcWinner → Bool) (k : K) :
    ofKey key k (rowsAt rows.zipIdx fun place =>
        winners.toList.any fun kw => kw.2.place = place && keep kw.1 kw.2) =
      (((rowWinner key committed rows k).filter fun p => keep k (toWinner p)).map
        fun p => p.1.row).toList := by
  rw [rowsAt, ofKey_map]
  have hpick := ofKey_filter_winners (EnvelopeRow.key key) EnvelopeRow.orderToken committed rows
    toWinner CdcWinner.place (fun _ => rfl) hw keep k
  refine (congrArg (List.map fun p : EnvelopeRow R × Nat => p.1.row) hpick).trans ?_
  cases (rowWinner key committed rows k).filter fun p => keep k (toWinner p) <;> rfl

theorem rowWinner_augment (key : R → Option K) (committed : K → Option Text) (es : List (Event R))
    (k : K) :
    (rowWinner key committed (es.map augment) k = none ∧ winner key committed es k = none) ∨
      ∃ p e, rowWinner key committed (es.map augment) k = some p ∧ winner key committed es k = some e ∧
        augment e = p.1 := by
  have hfst : (rowWinner key committed (es.map augment) k).map Prod.fst =
      (winner key committed es k).map augment := by
    rw [winnerAt_map_fst, contenders, ofKey_map, List.filter_map, greatest_map]
    rfl
  cases hrow : rowWinner key committed (es.map augment) k with
  | none =>
    rw [hrow, Option.map_none, eq_comm, Option.map_eq_none_iff] at hfst
    exact .inl ⟨rfl, hfst⟩
  | some p =>
    rw [hrow, Option.map_some, eq_comm, Option.map_eq_some_iff] at hfst
    obtain ⟨e, he, heq⟩ := hfst
    exact .inr ⟨p, e, rfl, he, heq⟩

/-- **The collapse.** -/
theorem isFinal_of_ok {batches : List (List (Event R))} {final : CdcFinalState R K}
    (h : finalStateCdcBatches key (batches.map fun b => b.map augment) committed = .ok final) :
    IsFinal key committed batches.flatten ⟨final.upserts, final.deletes⟩ final.tokens := by
  simp only [finalStateCdcBatches, bind_eq_ok, ← List.map_flatten] at h
  obtain ⟨winners, hloop, h⟩ := h
  cases h
  have hw := finalStep_loop_spec hloop
  have hplaced := foldlM_forall (P := fun p : EnvelopeRow R × Nat => key p.1.row ≠ none)
    (fun _ _ _ hstep => key_of_finalStep hstep) _ hloop
  have hwin := rowWinner_augment key committed batches.flatten
  constructor
  case tokens =>
    intro k
    rw [Map.get_filterMap, hw]
    obtain ⟨hW, hwinner⟩ | ⟨p, e, hW, hwinner, heq⟩ := hwin k
    · rw [hW, hwinner]
      rfl
    · rw [hW, hwinner, Option.map_some, Option.bind_some, toWinner, ← heq]
      rfl
  case upserts =>
    intro k
    rw [ofKey_rowsAt hw (fun _ w => !w.delete)]
    obtain ⟨hW, hwinner⟩ | ⟨p, e, hW, hwinner, heq⟩ := hwin k
    · rw [hW, hwinner]
      rfl
    · have hdelete : p.1.mutation = mutationKindStr .delete ↔ e.mutation = .delete := by
        rw [← heq]
        simp only [augment]
        cases e.mutation <;> decide
      have hrow : p.1.row = e.row := by rw [← heq, augment]
      rw [hW, hwinner, Option.filter_some, Option.bind_some, Event.effect]
      by_cases hd : e.mutation = .delete <;> simp [toWinner, hdelete, hd, hrow]
  case deletes =>
    intro k
    have hmem : ∀ rows : List R, k ∈ rows.filterMap key ↔ ofKey key k rows ≠ [] := by
      intro rows
      rw [List.mem_filterMap, Ne, List.eq_nil_iff_forall_not_mem]
      simp only [mem_ofKey, not_forall, not_not]
    rw [hmem, ofKey_rowsAt hw (fun k _ => (committed k).isSome)]
    obtain ⟨hW, hwinner⟩ | ⟨p, e, hW, hwinner, -⟩ := hwin k
    · rw [hW, hwinner]
      simp
    · rw [hW, hwinner]
      cases committed k <;> simp [Option.filter_some]
  case keyed =>
    exact List.forall_mem_map.2 fun p hp => hplaced p (List.mem_filter.1 hp).1

/-! ## Commits and tokens -/

theorem ofKey_applyCommit (key : R → Option K) (rows : List R) (c : Commit R K) (k : K) :
    ofKey key k (applyCommit key rows c) =
      (if k ∈ c.deletes then [] else ofKey key k rows) ++ ofKey key k c.upserts := by
  rw [applyCommit, ofKey_append]
  congr 1
  split
  · rename_i hk
    rw [ofKey, List.filter_filter, List.filter_eq_nil_iff]
    intro r _ hr
    simp only [Bool.and_eq_true, decide_eq_true_eq] at hr
    exact hr.2 k hk hr.1
  · rename_i hk
    rw [ofKey, List.filter_filter, ofKey]
    refine List.filter_congr fun r _ => ?_
    by_cases hr : key r = some k
    · have hother : ∀ k' ∈ c.deletes, ¬ k = k' := fun k' hk' h => hk (h ▸ hk')
      simpa [hr] using hother
    · simp [hr]

/-- The newer of two tokens, as the state update keeps it. -/
def newer (seen incoming : Option Text) : Option Text :=
  match incoming with
  | none => seen
  | some t => if Above seen t then some t else seen

@[simp] theorem newer_none_right (s : Option Text) : newer s none = s := rfl

theorem newer_of_above {seen : Option Text} {t : Text} (h : Above seen t) :
    newer seen (some t) = some t := if_pos h

theorem newer_newer (s t : Option Text) : newer (newer s t) t = newer s t := by
  cases t with
  | none => rfl
  | some t =>
    by_cases h : Above s t
    · rw [newer_of_above h, newer, if_neg (by simp)]
    · simp only [newer, if_neg h]

theorem get_updateToken {values values' : Map K Text} {u : K × Text}
    (h : updateToken values u = .ok values') (k : K) :
    values'.get k = if k = u.1 then newer (values.get k) (some u.2) else values.get k := by
  simp only [updateToken, bind_eq_ok] at h
  obtain ⟨stale, hstale, h⟩ := h
  have hstale := isStale_ok hstale
  cases h
  by_cases hst : stale = true
  · rw [if_pos hst]
    split
    · rename_i hk
      rw [newer, hk, if_neg (hstale.1 hst)]
    · rfl
  · rw [if_neg hst, Map.get_insert]
    split
    · rename_i hk
      rw [newer, hk, if_pos (not_not.1 fun habove => hst (hstale.2 habove))]
    · rfl

theorem get_foldlM_updateToken (l : List (K × Text)) (k : K)
    (hsub : ∀ u ∈ l, delta.get u.1 = some u.2) :
    ∀ {values values' : Map K Text}, l.foldlM updateToken values = .ok values' →
      values'.get k = if k ∈ l.map Prod.fst then newer (values.get k) (delta.get k)
        else values.get k := by
  induction l with
  | nil =>
    intro values values' h
    cases h
    rfl
  | cons u l ih =>
    intro values values' h
    rw [List.foldlM_cons, bind_eq_ok] at h
    obtain ⟨values₁, hu, hl⟩ := h
    rw [ih (List.forall_mem_cons.1 hsub).2 hl, get_updateToken hu]
    by_cases hk : k = u.1
    · subst hk
      have hdelta := hsub u List.mem_cons_self
      simp [hdelta, newer_newer]
    · rw [if_neg hk]
      simp only [List.map_cons, List.mem_cons, hk, false_or]

theorem committedToken_persistShard {shards shards' : Shards K} {shard : Nat}
    (h : persistShard shardOf shards delta shard = .ok shards') (k : K) :
    committedToken shardOf shards' k =
      if shardOf k = shard then newer (committedToken shardOf shards k) (delta.get k)
      else committedToken shardOf shards k := by
  simp only [persistShard, bind_eq_ok] at h
  obtain ⟨values, hvalues, h⟩ := h
  cases h
  simp only [committedToken, loadShard, Map.get_insert]
  split
  · rename_i hk
    have hsub : ∀ u ∈ delta.toList.filter (fun u => shardOf u.1 = shard), delta.get u.1 = some u.2 :=
      fun u hu => (Map.mem_toList ..).1 (List.mem_filter.1 hu).1
    rw [Option.getD_some, get_foldlM_updateToken _ k hsub hvalues, hk]
    split
    · rfl
    · rename_i hnot
      -- a key of this shard without an update is not in the delta
      have hnone : delta.get k = none := by
        rw [Option.eq_none_iff_forall_ne_some]
        intro t ht
        exact hnot (List.mem_map.2 ⟨(k, t), List.mem_filter.2
          ⟨(Map.mem_toList ..).2 ht, by simpa using hk⟩, rfl⟩)
      rw [hnone, newer_none_right, loadShard]
  · rfl

theorem committedToken_foldlM_persistShard (l : List Nat) (k : K) : ∀ {shards shards' : Shards K},
      l.foldlM (fun s shard => persistShard shardOf s delta shard) shards = .ok shards' →
      committedToken shardOf shards' k =
        if shardOf k ∈ l then newer (committedToken shardOf shards k) (delta.get k)
        else committedToken shardOf shards k := by
  induction l with
  | nil =>
    intro shards shards' h
    cases h
    rfl
  | cons shard l ih =>
    intro shards shards' h
    rw [List.foldlM_cons, bind_eq_ok] at h
    obtain ⟨shards₁, hshard, hl⟩ := h
    rw [ih hl, committedToken_persistShard hshard]
    by_cases hk : shardOf k = shard
    · simp [hk, newer_newer]
    · simp [hk]

theorem not_mem_delta {k : K} (h : shardOf k ∉ deltaShards shardOf delta) : delta.get k = none := by
  by_contra hne
  refine h ?_
  rw [deltaShards, List.mem_mergeSort, List.mem_dedup]
  exact List.mem_map_of_mem ((Map.mem_keys_iff ..).2 hne)

theorem committedToken_persistCdcStateDelta {shards shards' : Shards K}
    (h : persistCdcStateDelta shardOf shards delta = .ok shards') (k : K) :
    committedToken shardOf shards' k = newer (committedToken shardOf shards k) (delta.get k) := by
  rw [committedToken_foldlM_persistShard _ k h]
  split
  · rfl
  · rename_i hk
    rw [not_mem_delta hk, newer_none_right]

theorem newer_or_of_winner {k : K} :
    newer (committed k) ((winner key committed es k).map Event.token) =
      ((winner key committed es k).map Event.token).or (committed k) := by
  cases hw : winner key committed es k with
  | none => rfl
  | some w =>
    have hmem := mem_of_greatest _ hw
    simp only [contenders, List.mem_filter, decide_eq_true_eq] at hmem
    rw [Option.map_some, newer_of_above hmem.2, Option.some_or]

/-! ## A commit made against current tokens -/

/-- The table shows the latest event of every key, and the tokens are theirs. -/
def Shows (key : R → Option K) (rows : List R) (es : List (Event R)) : Prop :=
  ∀ k, ofKey key k rows = ((latest key k es).bind Event.effect).toList

def TokensOf (key : R → Option K) (committed : K → Option Text) (es : List (Event R)) : Prop :=
  ∀ k, committed k = (latest key k es).map Event.token

theorem latest_append (htok : TokensOf key committed es) (g : List (Event R)) (k : K) :
    latest key k (es ++ g) = (winner key committed g k).or (latest key k es) := by
  have hfloor : committed k = (greatest Event.token (ofKey (Event.key key) k es)).map Event.token := by
    rw [greatest_token]
    exact htok k
  have happ := greatest_ofKey_append (Event.key key) Event.token committed k es g hfloor
  rw [greatest_token (ofKey _ k (es ++ g)), greatest_token (ofKey _ k es)] at happ
  exact happ

/-- **Commit.** A commit whose envelope was collapsed against the tokens of the
events before it shows the latest event of every key. -/
theorem commit_latest {rows : List R} (hrows : Shows key rows es) (htok : TokensOf key committed es)
    (hfinal : IsFinal key committed g c tokens) : Shows key (applyCommit key rows c) (es ++ g) := by
  intro k
  rw [ofKey_applyCommit, hfinal.upserts, latest_append htok, hrows k]
  have hdel := hfinal.deletes k
  cases hw : winner key committed g k with
  | none =>
    rw [if_neg (fun hk => (hdel.1 hk).1 hw)]
    simp
  | some w =>
    cases hl : latest key k es with
    | none =>
      -- the key is new to the table: nothing to retire
      simp
    | some e =>
      have hsome : committed k ≠ none := by rw [htok k, hl]; simp
      rw [if_pos (hdel.2 ⟨by simp [hw], hsome⟩)]
      simp

/-- The rows are, key by key, those of the latest events, and nothing else. -/
def Exactly (key : R → Option K) (rows : List R) (es : List (Event R)) : Prop :=
  (∀ r ∈ rows, key r ≠ none) ∧ Shows key rows es

theorem Exactly.commit {rows : List R} (hrows : Exactly key rows es)
    (htok : TokensOf key committed es) (hfinal : IsFinal key committed g c tokens) :
    Exactly key (applyCommit key rows c) (es ++ g) := by
  refine ⟨fun r hr => ?_, commit_latest hrows.2 htok hfinal⟩
  rcases List.mem_append.1 hr with hr | hr
  · exact hrows.1 r (List.mem_filter.1 hr).1
  · exact hfinal.keyed r hr

theorem tokens_latest (htok : TokensOf key committed es) (hfinal : IsFinal key committed g c tokens)
    (k : K) : newer (committed k) (tokens.get k) = (latest key k (es ++ g)).map Event.token := by
  rw [hfinal.tokens, newer_or_of_winner, latest_append htok, htok k]
  cases winner key committed g k <;> rfl

end Skippr.L6.Cdc
