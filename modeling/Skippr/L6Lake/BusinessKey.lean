import Skippr.L6Lake.CdcFinalState

/-!
# The final state of an envelope by its key columns (crates/skippr-iceberg-writer/src/lib.rs)

The collapse keeps its winners by a text made of the key columns of a row, each
written with its length in front.
-/
namespace Skippr.L6.Cdc

/-- `str::len`: bytes, not characters. -/
def utf8Len (t : Text) : Nat := (t.map Char.utf8Size).sum

/-- mirrors lib.rs:3717-3719 -/
def lengthPrefixedKeyPart (column value : Text) : Text :=
  showNat (utf8Len column) ++ ':' :: (column ++ (showNat (utf8Len value) ++ ':' :: value))

/-- A row gives the value of each column, `none` for a null; `toText` is
`array_value_to_string`. mirrors lib.rs:3691-3715 -/
def businessKeyForRow {V : Type} (toText : Text → V → Text) :
    List Text → (Text → Option V) → Option Text
  | [], _ => some []
  | column :: columns, row =>
    match row column with
    | none => none
    | some value => (businessKeyForRow toText columns row).map fun rest =>
      lengthPrefixedKeyPart column (toText column value) ++ rest

/-! ## The text of a key -/

theorem showNat_injective : Function.Injective showNat := fun m n h => by
  have hread : ∀ n, Nat.ofDigitChars 10 (showNat n) 0 = n := fun n =>
    Nat.ofDigitChars_toDigits (by decide) (by decide)
  rw [← hread m, h, hread]

theorem showNat_colon_inj {m n : Nat} {t u : Text}
    (h : showNat m ++ ':' :: t = showNat n ++ ':' :: u) : m = n ∧ t = u := by
  have hsplit : ∀ n t, splitOnce ':' (showNat n ++ ':' :: t) = some (showNat n, t) := fun n t =>
    splitOnce_append (notMem_showNat rfl) t
  have heq := (hsplit m t).symm.trans ((congrArg _ h).trans (hsplit n u))
  obtain ⟨hnum, hrest⟩ := Prod.mk.inj (Option.some.inj heq)
  exact ⟨showNat_injective hnum, hrest⟩

theorem append_inj_of_utf8Len : ∀ {a b t u : Text}, utf8Len a = utf8Len b → a ++ t = b ++ u →
    a = b ∧ t = u
  | [], [], _, _, _, h => ⟨rfl, h⟩
  | [], c :: b, _, _, hlen, _ => by
    have hpos := c.utf8Size_pos
    simp only [utf8Len, List.map_nil, List.sum_nil, List.map_cons, List.sum_cons] at hlen
    omega
  | c :: a, [], _, _, hlen, _ => by
    have hpos := c.utf8Size_pos
    simp only [utf8Len, List.map_nil, List.sum_nil, List.map_cons, List.sum_cons] at hlen
    omega
  | c :: a, d :: b, t, u, hlen, h => by
    obtain ⟨rfl, htail⟩ := List.cons.inj h
    have hlen' : utf8Len a = utf8Len b := by
      simp only [utf8Len, List.map_cons, List.sum_cons] at hlen ⊢
      omega
    obtain ⟨rfl, rfl⟩ := append_inj_of_utf8Len hlen' htail
    exact ⟨rfl, rfl⟩

section Key
variable {V : Type} {toText : Text → V → Text}

theorem businessKeyForRow_cons {column : Text} {columns : List Text} {row : Text → Option V}
    {key : Text} (h : businessKeyForRow toText (column :: columns) row = some key) :
    ∃ value rest, row column = some value ∧ businessKeyForRow toText columns row = some rest ∧
      key = lengthPrefixedKeyPart column (toText column value) ++ rest := by
  unfold businessKeyForRow at h
  split at h
  · cases h
  · rename_i value hvalue
    obtain ⟨rest, hrest, rfl⟩ := Option.map_eq_some_iff.1 h
    exact ⟨value, rest, hvalue, hrest, rfl⟩

theorem businessKeyForRow_inj (hinj : ∀ column, Function.Injective (toText column))
    {columns : List Text} {row row' : Text → Option V} {key : Text}
    (h : businessKeyForRow toText columns row = some key)
    (h' : businessKeyForRow toText columns row' = some key) : columns.map row = columns.map row' := by
  induction columns generalizing key with
  | nil => rfl
  | cons column columns ih =>
    obtain ⟨value, rest, hvalue, hrest, rfl⟩ := businessKeyForRow_cons h
    obtain ⟨value', rest', hvalue', hrest', heq⟩ := businessKeyForRow_cons h'
    simp only [lengthPrefixedKeyPart, List.append_assoc, List.cons_append, List.append_cancel_left_eq,
      List.cons.injEq, true_and] at heq
    obtain ⟨hlen, htail⟩ := showNat_colon_inj heq
    obtain ⟨htext, rfl⟩ := append_inj_of_utf8Len hlen htail
    rw [List.map_cons, List.map_cons, hvalue, hvalue', hinj column htext, ih hrest hrest']

theorem businessKeyForRow_congr {columns : List Text} {row row' : Text → Option V}
    (h : columns.map row = columns.map row') :
    businessKeyForRow toText columns row = businessKeyForRow toText columns row' := by
  induction columns with
  | nil => rfl
  | cons column columns ih =>
    rw [List.map_cons, List.map_cons, List.cons.injEq] at h
    rw [businessKeyForRow, businessKeyForRow, h.1, ih h.2]

end Key

/-! ## The final state -/

variable {V : Type} [DecidableEq V]

/-- The winner of the key of `r`: the first row with the greatest order token
of those with its key columns, if that token is above the committed one. -/
def winnerFor (columns : List Text) (committed : Option Text)
    (rows : List (EnvelopeRow (Text → Option V))) (r : EnvelopeRow (Text → Option V)) :
    Option (EnvelopeRow (Text → Option V) × Nat) :=
  (greatest (fun p => p.1.orderToken)
    (rows.zipIdx.filter fun p => columns.map p.1.row = columns.map r.row)).filter
      fun p => Above committed p.1.orderToken

def winningRows (toText : Text → V → Text) (columns : List Text) (committed : Text → Option Text)
    (rows : List (EnvelopeRow (Text → Option V))) : List (EnvelopeRow (Text → Option V) × Nat) :=
  rows.zipIdx.filter fun p =>
    (winnerFor columns ((businessKeyForRow toText columns p.1.row).bind committed) rows p.1).any
      fun w => w.2 = p.2

section Winners
variable {toText : Text → V → Text} {columns : List Text} {committed : Text → Option Text}
  {rows : List (EnvelopeRow (Text → Option V))} {p : EnvelopeRow (Text → Option V) × Nat} {k : Text}
  (hinj : ∀ column, Function.Injective (toText column))
include hinj

theorem winnerFor_eq (hk : businessKeyForRow toText columns p.1.row = some k) :
    winnerFor columns (committed k) rows p.1 =
      rowWinner (businessKeyForRow toText columns) committed rows k := by
  rw [rowWinner, winnerAt, contenders, greatest_above, winnerFor, ofKey]
  congr 2
  refine List.filter_congr fun q _ => decide_eq_decide.2 ?_
  exact ⟨fun h => (businessKeyForRow_congr h).trans hk, fun h => businessKeyForRow_inj hinj h hk⟩

theorem mem_winningRows (hp : p ∈ rows.zipIdx)
    (hk : businessKeyForRow toText columns p.1.row = some k) :
    p ∈ winningRows toText columns committed rows ↔
      rowWinner (businessKeyForRow toText columns) committed rows k = some p := by
  rw [winningRows, List.mem_filter, hk, Option.bind_some, winnerFor_eq hinj hk, Option.any_eq_true]
  constructor
  · rintro ⟨-, w, hw, hplace⟩
    have hmem := (mem_of_winnerAt _ _ _ _ hw).1
    rwa [← List.inj_on_of_nodup_map (nodup_places rows) hmem hp (of_decide_eq_true hplace)]
  · exact fun h => ⟨hp, p, h, decide_eq_true rfl⟩

theorem filter_winners {winners : Map Text CdcWinner}
    (hkeys : ∀ p ∈ rows.zipIdx, businessKeyForRow toText columns p.1.row ≠ none)
    (hw : ∀ k, winners.get k =
      (rowWinner (businessKeyForRow toText columns) committed rows k).map toWinner)
    (keep : Text → CdcWinner → Bool) :
    (rows.zipIdx.filter fun p =>
        winners.toList.any fun kw => kw.2.place = p.2 && keep kw.1 kw.2) =
      (winningRows toText columns committed rows).filter fun p =>
        (businessKeyForRow toText columns p.1.row).any fun k => keep k (toWinner p) := by
  rw [winningRows, List.filter_filter]
  refine List.filter_congr fun p hp => ?_
  obtain ⟨k, hk⟩ := Option.ne_none_iff_exists'.1 (hkeys p hp)
  have hmask : (winners.toList.any fun kw => kw.2.place = p.2 && keep kw.1 kw.2) =
      (rowWinner (businessKeyForRow toText columns) committed rows k).any fun w =>
        w.2 = p.2 && keep k (toWinner w) :=
    any_winners _ _ _ _ toWinner CdcWinner.place (fun _ => rfl) hw keep hp hk
  rw [hmask, hk, Option.bind_some, winnerFor_eq hinj hk]
  cases hwin : rowWinner (businessKeyForRow toText columns) committed rows k with
  | none => simp
  | some w =>
    by_cases hplace : w.2 = p.2
    · rw [List.inj_on_of_nodup_map (nodup_places rows) (mem_of_winnerAt _ _ _ _ hwin).1 hp hplace]
      simp
    · simp [hplace]

end Winners

/-- **Final state.** The upserts are the winning rows that are no deletes, the
deletes the keys of the winning rows with a committed token, and the tokens
those of the winning rows; how the rows are cut into batches does not matter. -/
theorem final_state_rows {V : Type} [DecidableEq V] {toText : Text → V → Text}
    (hinj : ∀ column, Function.Injective (toText column)) (columns : List Text)
    (batches : List (List (EnvelopeRow (Text → Option V)))) (committed : Text → Option Text)
    {final : CdcFinalState (Text → Option V) Text}
    (h : finalStateCdcBatches (businessKeyForRow toText columns) batches committed = .ok final) :
    (∀ r ∈ batches.flatten, ∃ k, businessKeyForRow toText columns r.row = some k ∧
      ∀ r' ∈ batches.flatten, businessKeyForRow toText columns r'.row = some k ↔
        columns.map r'.row = columns.map r.row) ∧
    final.upserts = ((winningRows toText columns committed batches.flatten).filter fun p =>
      p.1.mutation ≠ mutationKindStr .delete).map (fun p => p.1.row) ∧
    final.deletes = ((winningRows toText columns committed batches.flatten).filter fun p =>
      ((businessKeyForRow toText columns p.1.row).bind committed).isSome).filterMap
        (fun p => businessKeyForRow toText columns p.1.row) ∧
    ∀ k t, final.tokens.get k = some t ↔
      ∃ p ∈ winningRows toText columns committed batches.flatten,
        businessKeyForRow toText columns p.1.row = some k ∧ p.1.orderToken = t := by
  simp only [finalStateCdcBatches, bind_eq_ok] at h
  obtain ⟨winners, hloop, h⟩ := h
  cases h
  have hw := finalStep_loop_spec hloop
  have hkeys := foldlM_forall
    (P := fun p : EnvelopeRow (Text → Option V) × Nat => businessKeyForRow toText columns p.1.row ≠ none)
    (fun _ _ _ hstep => key_of_finalStep hstep) _ hloop
  refine ⟨fun r hr => ?_, ?_, ?_, fun k t => ?_⟩
  · rw [← List.zipIdx_map_fst 0 batches.flatten] at hr
    obtain ⟨p, hp, rfl⟩ := List.mem_map.1 hr
    obtain ⟨k, hk⟩ := Option.ne_none_iff_exists'.1 (hkeys p hp)
    exact ⟨k, hk, fun r' _ => ⟨fun h' => businessKeyForRow_inj hinj h' hk,
      fun heq => (businessKeyForRow_congr heq).trans hk⟩⟩
  · dsimp only [rowsAt]
    rw [filter_winners hinj hkeys hw fun _ w => !w.delete]
    congr 1
    refine List.filter_congr fun p hp => ?_
    obtain ⟨k, hk⟩ := Option.ne_none_iff_exists'.1 (hkeys p (List.mem_filter.1 hp).1)
    simp [hk, toWinner]
  · dsimp only [rowsAt]
    rw [filter_winners hinj hkeys hw fun k _ => (committed k).isSome, List.filterMap_map]
    congr 1
    refine List.filter_congr fun p hp => ?_
    obtain ⟨k, hk⟩ := Option.ne_none_iff_exists'.1 (hkeys p (List.mem_filter.1 hp).1)
    simp [hk]
  · rw [Map.get_filterMap, hw]
    constructor
    · intro hget
      obtain ⟨w, hwk, ht⟩ := Option.bind_eq_some_iff.1 hget
      obtain ⟨p, hp, rfl⟩ := Option.map_eq_some_iff.1 hwk
      obtain ⟨hmem, hkey⟩ := mem_of_winnerAt _ _ _ _ hp
      exact ⟨p, (mem_winningRows hinj hmem hkey).2 hp, hkey, Option.some.inj ht⟩
    · rintro ⟨p, hp, hk, rfl⟩
      rw [(mem_winningRows hinj (List.mem_filter.1 hp).1 hk).1 hp]
      rfl

/-- Two rows of key `7` in two batches, and one of a key the table knows a
newer token of. -/
def threeRows : List (List (EnvelopeRow (Text → Option Text))) :=
  [[⟨fun _ => some ['7'], mutationKindStr .insert, ['0', '1']⟩,
    ⟨fun _ => some ['8'], mutationKindStr .update, ['0', '1']⟩],
   [⟨fun _ => some ['7'], mutationKindStr .update, ['0', '2']⟩]]

def knownToken (key : Text) : Option Text :=
  if key = lengthPrefixedKeyPart ['k'] ['8'] then some ['0', '5'] else none

/-- The last row of key `7` is the only one to write. -/
theorem final_state_three_rows : ∃ final,
    finalStateCdcBatches (businessKeyForRow (fun _ v => v) [['k']]) threeRows knownToken = .ok final ∧
    final.upserts.length = 1 ∧ final.deletes = [] := by
  obtain ⟨final, h⟩ : ∃ final, finalStateCdcBatches (businessKeyForRow (fun _ v => v) [['k']]) threeRows
      knownToken = .ok final := ⟨_, rfl⟩
  obtain ⟨-, hupserts, hdeletes, -⟩ := final_state_rows (fun _ => Function.injective_id) _ _ _ h
  refine ⟨final, h, ?_, ?_⟩
  · rw [hupserts]
    decide +kernel
  · rw [hdeletes]
    decide +kernel

end Skippr.L6.Cdc
