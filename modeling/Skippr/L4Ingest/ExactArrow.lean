import Skippr.Core.Map
import Skippr.Core.Text

/-!
# The exact Arrow encoder

`append_row_to_exact_partition` appends a record column by column to the Arrow
builders of its partition (src/ingest/exact_arrow.rs). A record that a column
refuses goes to the slower paths, but the columns before that one keep its
value, and `finish` refuses columns of different lengths.

Builders are lists of the records whose values they hold.
-/
namespace Skippr.L4.Ingest

inductive Json
  | null
  | bool (b : Bool)
  | num (n : Int)
  | str (t : Text)
  | arr (values : List Json)
  | obj (fields : List (Text × Json))

/-- A decoded logical record of a call: its batch and its logical line. -/
structure Rec where
  batch : Nat
  line : Nat
deriving DecidableEq, Repr

/-- A plan has at least one column. `admits` is the check of the field names
before any append; a column takes its value of a record or refuses it.
mirrors exact_arrow.rs:59-64, 104-148 -/
structure Plan where
  buildable : Bool
  admits : Json → Bool
  columns : List (Json → Bool)
  columns_ne_nil : columns ≠ []

/-- mirrors exact_arrow.rs:242-246 -/
structure Builders where
  columns : List (List Rec)
  rows : List Rec
deriving DecidableEq, Repr

namespace Builders

/-- mirrors exact_arrow.rs:249-262 -/
def new (plan : Plan) : Builders := ⟨plan.columns.map fun _ => [], []⟩

/-- The column loop; it stops at the first column that refuses the record.
mirrors exact_arrow.rs:587-601 -/
def appendColumns (record : Json) (r : Rec) :
    List (Json → Bool) → List (List Rec) → List (List Rec) × Bool
  | col :: cols, b :: bs =>
    if col record then
      let rest := appendColumns record r cols bs
      ((b ++ [r]) :: rest.1, rest.2)
    else (b :: bs, false)
  | _, bs => (bs, true)

/-- mirrors exact_arrow.rs:561-608 -/
def tryAppendRow (plan : Plan) (record : Json) (r : Rec) (b : Builders) : Builders × Bool :=
  if plan.admits record = false then (b, false)
  else if b.columns.length ≠ plan.columns.length then (b, false)
  else
    let appended := appendColumns record r plan.columns b.columns
    if appended.2 then (⟨appended.1, b.rows ++ [r]⟩, true)
    else (⟨appended.1, b.rows⟩, false)

/-- `RecordBatch::try_new` takes columns of one length; `typed` says that it has
nothing else against them. mirrors exact_arrow.rs:272-288 -/
def finish (typed : Bool) (b : Builders) : Option (List Rec) :=
  if b.rows = [] then none
  else if typed ∧ ∀ c ∈ b.columns, c.length = (b.columns.headD []).length then
    some (b.columns.headD [])
  else none

end Builders

/-- A new partition is kept only when its first row went in.
mirrors exact_arrow.rs:538-560 -/
def appendRowToExactPartition {K : Type} [DecidableEq K] (partitions : Map K Builders) (key : K)
    (plan : Plan) (record : Json) (r : Rec) : Map K Builders × Bool :=
  match partitions.get key with
  | some b =>
    let appended := b.tryAppendRow plan record r
    (partitions.insert key appended.1, appended.2)
  | none =>
    if plan.buildable then
      let appended := (Builders.new plan).tryAppendRow plan record r
      if appended.2 then (partitions.insert key appended.1, true) else (partitions, false)
    else (partitions, false)

/-! ## What becomes of a record -/

/-- The record goes in, is refused before the first column, or after it. -/
inductive Append
  | done
  | refused
  | broken
deriving DecidableEq, Repr

/-- mirrors exact_arrow.rs:561-608 -/
def Plan.append (plan : Plan) (record : Json) : Append :=
  if plan.admits record = false then .refused
  else if plan.columns.all (· record) then .done
  else if (plan.columns.head plan.columns_ne_nil) record then .broken
  else .refused

namespace Builders

/-- The builders of a partition of this plan, with their columns in step. -/
structure Whole (plan : Plan) (b : Builders) : Prop where
  length : b.columns.length = plan.columns.length
  columns : ∀ c ∈ b.columns, c = b.rows

structure Torn (plan : Plan) (b : Builders) : Prop where
  length : b.columns.length = plan.columns.length
  longer : ∃ first rest, b.columns = first :: rest ∧ ∃ c ∈ rest, c.length < first.length

theorem whole_new (plan : Plan) : (new plan).Whole plan := by
  refine ⟨by simp [new], ?_⟩
  refine List.forall_mem_map.2 fun col _ => ?_
  rfl

theorem appendColumns_length (record : Json) (r : Rec) :
    ∀ (cols : List (Json → Bool)) (bs : List (List Rec)),
      (appendColumns record r cols bs).1.length = bs.length
  | [], _ => rfl
  | _ :: _, [] => rfl
  | col :: cols, b :: bs => by
    unfold appendColumns
    split
    · simp [appendColumns_length record r cols bs]
    · rfl

theorem appendColumns_all {record : Json} (r : Rec) :
    ∀ {cols : List (Json → Bool)} {bs : List (List Rec)}, cols.all (· record) = true →
      bs.length = cols.length → appendColumns record r cols bs = (bs.map (· ++ [r]), true)
  | [], [], _, _ => rfl
  | [], _ :: _, _, h => by cases h
  | _ :: _, [], _, h => by cases h
  | col :: cols, b :: bs, hall, hlen => by
    rw [List.all_cons, Bool.and_eq_true] at hall
    have hrest : bs.length = cols.length := by simpa using hlen
    have ih := appendColumns_all r hall.2 hrest
    simp [appendColumns, hall.1, ih]

theorem appendColumns_not_all {record : Json} (r : Rec) :
    ∀ {cols : List (Json → Bool)} {bs : List (List Rec)}, cols.all (· record) = false →
      bs.length = cols.length → (appendColumns record r cols bs).2 = false
  | [], _, h, _ => by cases h
  | _ :: _, [], _, h => by cases h
  | col :: cols, b :: bs, hall, hlen => by
    unfold appendColumns
    split
    · rename_i hcol
      rw [List.all_cons, hcol, Bool.true_and] at hall
      exact appendColumns_not_all r hall (by simpa using hlen)
    · rfl

theorem length_appendColumns_le (record : Json) (r : Rec) (n : Nat) :
    ∀ (cols : List (Json → Bool)) {bs : List (List Rec)}, (∃ c ∈ bs, c.length < n) →
      ∃ c ∈ (appendColumns record r cols bs).1, c.length < n + 1
  | [], bs, ⟨c, hc, hn⟩ => ⟨c, hc, by omega⟩
  | _ :: _, [], h => by simp at h
  | col :: cols, b :: bs, ⟨c, hc, hn⟩ => by
    unfold appendColumns
    split
    · rcases List.mem_cons.mp hc with rfl | hc
      · exact ⟨c ++ [r], List.mem_cons_self, by simp; omega⟩
      · obtain ⟨c', hc', hn'⟩ := length_appendColumns_le record r n cols ⟨c, hc, hn⟩
        exact ⟨c', List.mem_cons_of_mem _ hc', hn'⟩
    · exact ⟨c, hc, by omega⟩

theorem exists_short_appendColumns {record : Json} (r : Rec) {n : Nat} :
    ∀ {cols : List (Json → Bool)} {bs : List (List Rec)}, cols.all (· record) = false →
      bs.length = cols.length → (∀ c ∈ bs, c.length = n) →
      ∃ c ∈ (appendColumns record r cols bs).1, c.length = n
  | [], _, h, _, _ => by cases h
  | _ :: _, [], _, h, _ => by cases h
  | col :: cols, b :: bs, hall, hlen, hn => by
    unfold appendColumns
    split
    · rename_i hcol
      rw [List.all_cons, hcol, Bool.true_and] at hall
      obtain ⟨c, hc, hlen'⟩ := exists_short_appendColumns r hall (by simpa using hlen)
        (List.forall_mem_cons.1 hn).2
      exact ⟨c, List.mem_cons_of_mem _ hc, hlen'⟩
    · exact ⟨b, List.mem_cons_self, hn b List.mem_cons_self⟩

variable {plan : Plan} {record : Json} {b : Builders} (r : Rec)

theorem tryAppendRow_done (hlen : b.columns.length = plan.columns.length)
    (h : plan.append record = .done) :
    tryAppendRow plan record r b = (⟨b.columns.map (· ++ [r]), b.rows ++ [r]⟩, true) := by
  unfold Plan.append at h
  split at h
  · cases h
  rename_i hadmits
  split at h
  swap
  · split at h <;> cases h
  rename_i hall
  simp [tryAppendRow, hadmits, hlen, appendColumns_all r hall hlen]

theorem tryAppendRow_refused (hlen : b.columns.length = plan.columns.length)
    (h : plan.append record = .refused) : tryAppendRow plan record r b = (b, false) := by
  unfold Plan.append at h
  split at h
  · rename_i hadmits
    simp [tryAppendRow, hadmits]
  rename_i hadmits
  split at h
  · cases h
  split at h
  · cases h
  rename_i hfirst
  -- The first column refuses, so nothing was appended.
  have hcols : appendColumns record r plan.columns b.columns = (b.columns, false) := by
    obtain ⟨buildable, admits, columns, hne⟩ := plan
    cases columns with
    | nil => exact absurd rfl hne
    | cons col cols =>
      cases hb : b.columns with
      | nil =>
        rw [hb] at hlen
        cases hlen
      | cons c cs =>
        have hcol : col record = false := by simpa using hfirst
        simp [appendColumns, hcol]
  simp [tryAppendRow, hadmits, hlen, hcols]

theorem tryAppendRow_broken (hlen : b.columns.length = plan.columns.length)
    (h : plan.append record = .broken) :
    tryAppendRow plan record r b =
        (⟨(appendColumns record r plan.columns b.columns).1, b.rows⟩, false) ∧
      ∃ col cols c cs, plan.columns = col :: cols ∧ b.columns = c :: cs ∧ col record = true ∧
        cols.all (· record) = false := by
  unfold Plan.append at h
  split at h
  · cases h
  rename_i hadmits
  split at h
  · cases h
  rename_i hall
  split at h
  swap
  · cases h
  rename_i hfirst
  refine ⟨?_, ?_⟩
  · have hfalse := appendColumns_not_all r (Bool.eq_false_iff.mpr hall) hlen
    simp [tryAppendRow, hadmits, hlen, hfalse]
  · obtain ⟨buildable, admits, columns, hne⟩ := plan
    cases columns with
    | nil => exact absurd rfl hne
    | cons col cols =>
      cases hb : b.columns with
      | nil =>
        rw [hb] at hlen
        cases hlen
      | cons c cs =>
        have hcol : col record = true := hfirst
        refine ⟨col, cols, c, cs, rfl, rfl, hcol, ?_⟩
        simpa [hcol] using hall

theorem Whole.done (hw : b.Whole plan) : Whole plan ⟨b.columns.map (· ++ [r]), b.rows ++ [r]⟩ := by
  refine ⟨by simpa using hw.length, ?_⟩
  refine List.forall_mem_map.2 fun d hd => ?_
  rw [hw.columns d hd]

theorem Torn.done (ht : b.Torn plan) : Torn plan ⟨b.columns.map (· ++ [r]), b.rows ++ [r]⟩ := by
  obtain ⟨hlen, first, rest, hcols, c, hc, hlt⟩ := ht
  refine ⟨by simpa using hlen, first ++ [r], rest.map (· ++ [r]), by simp [hcols], c ++ [r],
    List.mem_map_of_mem hc, ?_⟩
  simpa using hlt

theorem Whole.broken (hw : b.Whole plan) (h : plan.append record = .broken) :
    Torn plan ⟨(appendColumns record r plan.columns b.columns).1, b.rows⟩ := by
  obtain ⟨-, col, cols, c, cs, hcols, hb, hcol, hall⟩ := tryAppendRow_broken r hw.length h
  have hlen := hw.length
  rw [hcols, hb] at hlen
  have hrows : ∀ d ∈ cs, d.length = b.rows.length := by
    intro d hd
    rw [hw.columns d (hb ▸ List.mem_cons_of_mem c hd)]
  have hfirst : c = b.rows := hw.columns c (hb ▸ List.mem_cons_self)
  obtain ⟨d, hd, hshort⟩ := exists_short_appendColumns r hall (by simpa using hlen) hrows
  refine ⟨by rw [appendColumns_length]; exact hw.length, c ++ [r],
    (appendColumns record r cols cs).1, ?_, d, hd, ?_⟩
  · simp [hcols, hb, appendColumns, hcol]
  · rw [hshort, hfirst]
    simp

theorem Torn.broken (ht : b.Torn plan) (h : plan.append record = .broken) :
    Torn plan ⟨(appendColumns record r plan.columns b.columns).1, b.rows⟩ := by
  obtain ⟨-, col, cols, c, cs, hcols, hb, hcol, -⟩ := tryAppendRow_broken r ht.length h
  obtain ⟨hlen, first, rest, hsplit, d, hd, hlt⟩ := ht
  rw [hb] at hsplit
  cases hsplit
  obtain ⟨e, he, hshort⟩ := length_appendColumns_le record r c.length cols
    ⟨d, hd, hlt⟩
  refine ⟨by rw [appendColumns_length]; exact hlen, c ++ [r], (appendColumns record r cols cs).1,
    ?_, e, he, ?_⟩
  · simp [hcols, hb, appendColumns, hcol]
  · simpa using hshort

theorem finish_whole (hw : b.Whole plan) (hne : b.rows ≠ []) : b.finish true = some b.rows := by
  have hhead : b.columns.headD [] = b.rows := by
    have hlen := hw.length
    cases hb : b.columns with
    | nil =>
      rw [hb] at hlen
      exact absurd (List.eq_nil_of_length_eq_zero hlen.symm) plan.columns_ne_nil
    | cons c cs => exact hw.columns c (hb ▸ List.mem_cons_self)
  rw [finish, if_neg hne, hhead, if_pos]
  refine ⟨rfl, fun c hc => ?_⟩
  rw [hw.columns c hc]

theorem finish_torn (ht : b.Torn plan) (typed : Bool) : b.finish typed = none := by
  obtain ⟨-, first, rest, hcols, c, hc, hlt⟩ := ht
  unfold finish
  split
  · rfl
  rw [if_neg]
  rintro ⟨-, hall⟩
  have := hall c (hcols ▸ List.mem_cons_of_mem first hc)
  rw [hcols] at this
  simp only [List.headD_cons] at this
  omega

theorem finish_untyped (b : Builders) : b.finish false = none := by
  unfold finish
  split
  · rfl
  · simp

/-! ## Rows offered one after another -/

def offer (plan : Plan) : List (Json × Rec) → Builders → Builders × List Rec
  | [], b => (b, [])
  | (record, r) :: rows, b =>
    let appended := b.tryAppendRow plan record r
    let rest := offer plan rows appended.1
    (rest.1, if appended.2 then r :: rest.2 else rest.2)

/-- An append that fails leaves the builders as they were, and in the end they
are the accepted rows. -/
structure Exact (plan : Plan) (typed : Bool) (rows : List (Json × Rec)) : Prop where
  refused : ∀ before record r after, rows = before ++ (record, r) :: after →
    ((offer plan before (new plan)).1.tryAppendRow plan record r).2 = false →
    ((offer plan before (new plan)).1.tryAppendRow plan record r).1 = (offer plan before (new plan)).1
  lengths : ∀ c ∈ (offer plan rows (new plan)).1.columns, c.length = (offer plan rows (new plan)).2.length
  finishes : (offer plan rows (new plan)).2 ≠ [] →
    (offer plan rows (new plan)).1.finish typed = some (offer plan rows (new plan)).2

theorem length_tryAppendRow (record : Json) :
    (tryAppendRow plan record r b).1.columns.length = b.columns.length := by
  unfold tryAppendRow
  split
  · rfl
  split
  · rfl
  dsimp only
  split <;> exact appendColumns_length record r _ _

theorem tryAppendRow_accepts (hlen : b.columns.length = plan.columns.length) :
    (tryAppendRow plan record r b).2 = decide (plan.append record = .done) := by
  cases h : plan.append record with
  | done => simp [tryAppendRow_done r hlen h]
  | refused => simp [tryAppendRow_refused r hlen h]
  | broken => simp [(tryAppendRow_broken r hlen h).1]

theorem offer_spec (rows : List (Json × Rec)) (hlen : b.columns.length = plan.columns.length) :
    (offer plan rows b).1.columns.length = plan.columns.length ∧
      (offer plan rows b).2 = (rows.filter fun row => plan.append row.1 = .done).map (·.2) := by
  induction rows generalizing b with
  | nil => exact ⟨hlen, rfl⟩
  | cons row rows ih =>
    obtain ⟨hcolumns, haccepted⟩ := ih ((length_tryAppendRow row.2 row.1).trans hlen)
    refine ⟨hcolumns, ?_⟩
    simp only [offer, haccepted, tryAppendRow_accepts row.2 hlen, List.filter_cons]
    split <;> rfl

theorem Whole.offer {rows : List (Json × Rec)} (hw : b.Whole plan)
    (h : ∀ row ∈ rows, plan.append row.1 ≠ .broken) :
    (Builders.offer plan rows b).1.Whole plan ∧
      (Builders.offer plan rows b).1.rows = b.rows ++ (Builders.offer plan rows b).2 := by
  induction rows generalizing b with
  | nil => exact ⟨hw, (List.append_nil _).symm⟩
  | cons row rows ih =>
    have hrest : ∀ row ∈ rows, plan.append row.1 ≠ .broken := fun row hrow =>
      h row (List.mem_cons_of_mem _ hrow)
    cases happend : plan.append row.1 with
    | done =>
      simp only [Builders.offer, tryAppendRow_done row.2 hw.length happend]
      simpa using ih (hw.done row.2) hrest
    | refused =>
      simp only [Builders.offer, tryAppendRow_refused row.2 hw.length happend]
      simpa using ih hw hrest
    | broken => exact absurd happend (h row List.mem_cons_self)

/-- **The builders are the accepted rows** exactly if no row is refused by a
column after the first, and the batch takes the columns' types. -/
theorem exact_iff_unbroken (plan : Plan) (typed : Bool) (rows : List (Json × Rec)) :
    Exact plan typed rows ↔ (∀ row ∈ rows, plan.append row.1 ≠ .broken) ∧
      (typed = true ∨ ∀ row ∈ rows, plan.append row.1 ≠ .done) := by
  have hnew := (whole_new plan).length
  have haccepted := (offer_spec rows hnew).2
  constructor
  · intro h
    refine ⟨?_, ?_⟩
    · intro row hrow hbroken
      obtain ⟨before, after, hrows⟩ := List.append_of_mem hrow
      -- The first column took the row, and the call failed.
      obtain ⟨heq, col, cols, c, cs, hcols, hb, hcol, -⟩ :=
        tryAppendRow_broken row.2 (offer_spec before hnew).1 hbroken
      have hkept := h.refused before row.1 row.2 after hrows (by rw [heq])
      rw [heq] at hkept
      have hcolumns := congrArg Builders.columns hkept
      simp [hcols, hb, appendColumns, hcol] at hcolumns
    · cases typed with
      | true => exact .inl rfl
      | false =>
        refine .inr fun row hrow hdone => ?_
        have hfinish := h.finishes (by simpa [haccepted] using ⟨row.1, ⟨row.2, hrow⟩, hdone⟩)
        rw [finish_untyped] at hfinish
        cases hfinish
  · intro ⟨hunbroken, htyped⟩
    obtain ⟨hwhole, hrows⟩ := (whole_new plan).offer hunbroken
    rw [new, List.nil_append, ← new] at hrows
    refine ⟨?_, ?_, ?_⟩
    · intro before record r after hsplit hfalse
      have hlen := (offer_spec before hnew).1
      cases happend : plan.append record with
      | done =>
        rw [tryAppendRow_done r hlen happend] at hfalse
        cases hfalse
      | refused => rw [tryAppendRow_refused r hlen happend]
      | broken => exact absurd happend (hunbroken (record, r) (by simp [hsplit]))
    · intro c hc
      rw [hwhole.columns c hc, hrows]
    · intro hne
      rcases htyped with rfl | hnone
      · rw [finish_whole hwhole (hrows ▸ hne), hrows]
      · refine absurd ?_ hne
        simpa [haccepted] using fun record r hrow => hnone (record, r) hrow

def textThenNumber : Plan where
  buildable := true
  admits := fun _ => true
  columns := [fun _ => true, fun
    | .obj fields => fields.any fun field => match field with
      | (name, .num _) => name = ['n']
      | _ => false
    | _ => false]
  columns_ne_nil := List.cons_ne_nil _ _

/-- A row without its number is refused, and the good row after it is never
written. -/
theorem refused_row_tears : ¬ Exact textThenNumber true
    [(.obj [(['t'], .str ['x'])], ⟨0, 0⟩), (.obj [(['t'], .str ['y']), (['n'], .num 1)], ⟨0, 1⟩)] := by
  intro h
  exact absurd (h.finishes (by decide)) (by decide)

end Builders
end Skippr.L4.Ingest
