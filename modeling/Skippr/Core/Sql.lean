import Mathlib

/-!
# Tables under SQL statements

A table is a multiset of rows. Comparisons with NULL are UNKNOWN, and a
condition selects the rows for which it is TRUE. A statement that would change a
row by more than one source row is an error.

When the conditions of a statement only relate rows of one key, it acts on the
rows of each key as it does on the whole table:

* `updateFrom_atKey`, `Merge.exec_atKey`, `insertSelect_atKey`,
  `notExists_atKey`.
* `updateFrom_isSome`: it is no error when the source has one row a key.

On tables of at most one row, `ofOption`, statements are functions of an option:

* `updateFrom_ofOption`, `insertSelect_ofOption`, `Merge.exec_ofOption`.
* `Merge.exec_ofKey`: what a merge does to a key with at most one row.

The other statements are merges:

* `Merge.exec_updates`, `Merge.exec_inserts`, `Merge.exec_deletes`,
  `deleteWhere_eq`.
-/
namespace Skippr.Sql

/-! ## Three-valued logic -/

inductive Truth
  | yes
  | no
  | unknown
deriving DecidableEq, Repr

namespace Truth

def ofBool (b : Bool) : Truth := if b then .yes else .no

def and : Truth → Truth → Truth
  | .yes, t => t
  | .no, _ => .no
  | .unknown, .no => .no
  | .unknown, _ => .unknown

def or : Truth → Truth → Truth
  | .no, t => t
  | .yes, _ => .yes
  | .unknown, .yes => .yes
  | .unknown, _ => .unknown

def Holds (t : Truth) : Prop := t = .yes

instance (t : Truth) : Decidable t.Holds := inferInstanceAs (Decidable (t = .yes))

theorem holds_ofBool (b : Bool) : (ofBool b).Holds ↔ b = true := by
  cases b <;> simp [ofBool, Holds]

@[simp] theorem holds_and (s t : Truth) : (s.and t).Holds ↔ s.Holds ∧ t.Holds := by
  cases s <;> cases t <;> simp [and, Holds]

theorem holds_or (s t : Truth) : (s.or t).Holds ↔ s.Holds ∨ t.Holds := by
  cases s <;> cases t <;> simp [or, Holds]

end Truth

section Compare
variable {α : Type}

def comparison (p : α → α → Bool) : Option α → Option α → Truth
  | some a, some b => .ofBool (p a b)
  | _, _ => .unknown

def equals [DecidableEq α] : Option α → Option α → Truth := comparison fun a b => a = b

def less [LT α] [DecidableLT α] : Option α → Option α → Truth := comparison fun a b => a < b

def atLeast [LE α] [DecidableLE α] : Option α → Option α → Truth := comparison fun a b => b ≤ a

def isNull (a : Option α) : Truth := .ofBool a.isNone

theorem holds_equals [DecidableEq α] (a b : Option α) : (equals a b).Holds ↔ ∃ v, a = some v ∧ b = some v := by
  cases a <;> cases b <;> simp [equals, comparison, Truth.Holds, Truth.ofBool, eq_comm]

@[simp] theorem holds_less [LT α] [DecidableLT α] (a b : α) : (less (some a) (some b)).Holds ↔ a < b := by
  simp [less, comparison, Truth.holds_ofBool]

theorem holds_atLeast [LE α] [DecidableLE α] (a b : α) : (atLeast (some a) (some b)).Holds ↔ b ≤ a := by
  simp [atLeast, comparison, Truth.holds_ofBool]

theorem holds_isNull (a : Option α) : (isNull a).Holds ↔ a = none := by
  cases a <;> simp [isNull, Truth.holds_ofBool]

end Compare

/-! ## Statements -/

abbrev Table (R : Type) := Multiset R

variable {T S R K : Type}

def matching (cond : T → S → Truth) (source : Table S) (t : T) : Table S :=
  source.filter fun s => (cond t s).Holds

/-- `UPDATE … FROM source WHERE cond`; a row changed to `none` is deleted. -/
def updateFrom (cond : T → S → Truth) (change : T → S → Option T) (source : Table S) (target : Table T) :
    Option (Table T) :=
  if ∀ t ∈ target, (matching cond source t).card ≤ 1 then
    some (target.bind fun t =>
      if (matching cond source t).card = 0 then {t}
      else (matching cond source t).bind fun s => ((change t s).elim 0 ({·})))
  else none

/-- `NOT EXISTS (SELECT 1 FROM table WHERE cond)`. -/
def notExists (cond : R → Truth) (table : Table R) : Truth :=
  .ofBool (decide (∀ r ∈ table, ¬ (cond r).Holds))

/-- `SELECT * FROM table WHERE cond`. -/
def select (cond : R → Truth) (table : Table R) : Table R := table.filter fun r => (cond r).Holds

/-- `DELETE FROM table WHERE cond`. -/
def deleteWhere (cond : R → Truth) (table : Table R) : Table R := table.filter fun r => ¬ (cond r).Holds

/-- `INSERT INTO target SELECT row FROM source WHERE cond`. -/
def insertSelect (cond : S → Truth) (row : S → T) (source : Table S) (target : Table T) : Table T :=
  target + (select cond source).map row

/-- `DELETE FROM target USING source WHERE cond`. -/
def deleteUsing (cond : T → S → Truth) (source : Table S) (target : Table T) : Table T :=
  target.filter fun t => (matching cond source t).card = 0

/-- `MERGE INTO target USING source ON on WHEN MATCHED AND matched THEN change
WHEN NOT MATCHED THEN INSERT insert`. -/
structure Merge (T S : Type) where
  on : T → S → Truth
  matched : T → S → Truth
  change : T → S → Option T
  insert : Option (S → T)

def Merge.exec (m : Merge T S) (source : Table S) (target : Table T) : Option (Table T) :=
  (updateFrom (fun t s => (m.on t s).and (m.matched t s)) m.change source target).map fun changed =>
    match m.insert with
    | some row => insertSelect (fun s => notExists (fun t => m.on t s) target) row source changed
    | none => changed

/-- The rows with `ROW_NUMBER() OVER (PARTITION BY part ORDER BY rank DESC) = 1`,
when no two rows of a partition have one rank. -/
def rowNumberOne [DecidableEq K] {O : Type} [LE O] [DecidableLE O] (part : S → K) (rank : S → O)
    (source : Table S) : Table S :=
  source.filter fun s => ∀ s' ∈ source, part s' = part s → rank s' ≤ rank s

/-! ## One key at a time -/

section AtKey
variable [DecidableEq K]

def atKey (key : R → K) (k : K) (table : Table R) : Table R := table.filter fun r => key r = k

variable {key : R → K} {k : K} {keyT : T → K} {keyS : S → K} {source : Table S}

@[simp] theorem mem_atKey {table : Table R} {r : R} :
    r ∈ atKey key k table ↔ r ∈ table ∧ key r = k := by
  rw [atKey, Multiset.mem_filter]

@[simp] theorem atKey_add (key : R → K) (k : K) (a b : Table R) :
    atKey key k (a + b) = atKey key k a + atKey key k b := by
  rw [atKey, Multiset.filter_add]
  rfl

theorem select_atKey (key : R → K) (k : K) (cond : R → Truth) (table : Table R) :
    atKey key k (select cond table) = select cond (atKey key k table) := by
  rw [atKey, select, Multiset.filter_comm]
  rfl

theorem card_select_atKey {table : Table R} (hone : ∀ k, (atKey key k table).card ≤ 1)
    (cond : R → Truth) (k : K) : (atKey key k (select cond table)).card ≤ 1 := by
  rw [select_atKey]
  exact (Multiset.card_le_card (Multiset.filter_le _ _)).trans (hone k)

theorem select_select (cond cond' : R → Truth) (table : Table R) :
    select cond' (select cond table) = select (fun r => (cond r).and (cond' r)) table := by
  rw [select, select, Multiset.filter_filter, select]
  refine Multiset.filter_congr ?_
  intro r _
  rw [Truth.holds_and, and_comm]

theorem atKey_bind {f : R → Table R} (hkey : ∀ r, ∀ r' ∈ f r, key r' = key r) (table : Table R) :
    atKey key k (table.bind f) = (atKey key k table).bind f := by
  induction table using Multiset.induction_on with
  | empty => rfl
  | cons r table ih =>
    rw [Multiset.cons_bind, atKey_add, ih, atKey, atKey, atKey, Multiset.filter_cons]
    by_cases hr : key r = k
    · rw [if_pos hr, Multiset.singleton_add, Multiset.cons_bind]
      congr 1
      rw [Multiset.filter_eq_self]
      intro r' hr'
      rw [hkey r r' hr', hr]
    · rw [if_neg hr, Multiset.zero_add]
      have hnone : (f r).filter (fun r' => key r' = k) = 0 := by
        rw [Multiset.filter_eq_nil]
        intro r' hr'
        rw [hkey r r' hr']
        exact hr
      rw [hnone, Multiset.zero_add]

theorem notExists_atKey {cond : R → Truth} (hkey : ∀ r, (cond r).Holds → key r = k)
    (table : Table R) : notExists cond (atKey key k table) = notExists cond table := by
  have hiff : (∀ r ∈ atKey key k table, ¬ (cond r).Holds) ↔ ∀ r ∈ table, ¬ (cond r).Holds := by
    constructor
    · intro h r hr hc
      exact h r (mem_atKey.2 ⟨hr, hkey r hc⟩) hc
    · intro h r hr
      exact h r (mem_atKey.1 hr).1
  rw [notExists, notExists]
  simp only [hiff]

section Source
variable {keyT : T → K} {keyS : S → K} {cond : T → S → Truth}
  (hcond : ∀ t s, (cond t s).Holds → keyT t = keyS s)
include hcond

theorem matching_atKey (source : Table S) (t : T) :
    matching cond (atKey keyS (keyT t) source) t = matching cond source t := by
  rw [matching, atKey, Multiset.filter_filter, matching]
  refine Multiset.filter_congr fun s _ => ?_
  exact and_iff_left_of_imp fun h => (hcond t s h).symm

variable {source : Table S}

theorem card_matching_le (hone : ∀ k, (atKey keyS k source).card ≤ 1) (t : T) :
    (matching cond source t).card ≤ 1 := by
  rw [← matching_atKey hcond]
  exact (Multiset.card_le_card (Multiset.filter_le _ _)).trans (hone (keyT t))

theorem updateFrom_isSome (hone : ∀ k, (atKey keyS k source).card ≤ 1) (change : T → S → Option T)
    (target : Table T) : (updateFrom cond change source target).isSome := by
  rw [updateFrom, if_pos fun t _ => card_matching_le hcond hone t]
  rfl

theorem updateFrom_atKey {change : T → S → Option T} {target changed : Table T}
    (hkey : ∀ t s t', (cond t s).Holds → change t s = some t' → keyT t' = keyT t)
    (h : updateFrom cond change source target = some changed) (k : K) :
    updateFrom cond change (atKey keyS k source) (atKey keyT k target) = some (atKey keyT k changed) := by
  have hmatching : ∀ t ∈ atKey keyT k target,
      matching cond (atKey keyS k source) t = matching cond source t := by
    intro t ht
    obtain ⟨-, rfl⟩ := mem_atKey.1 ht
    exact matching_atKey hcond source t
  obtain ⟨hcard, h⟩ := Option.ite_none_right_eq_some.1 h
  rw [updateFrom, if_pos]
  · rw [← Option.some.inj h, atKey_bind]
    · congr 1
      refine Multiset.bind_congr fun t ht => ?_
      rw [hmatching t ht]
    · intro t t' ht'
      split at ht'
      · rw [Multiset.mem_singleton.1 ht']
      · obtain ⟨s, hs, ht'⟩ := Multiset.mem_bind.1 ht'
        cases hc : change t s with
        | none =>
          rw [hc] at ht'
          exact absurd ht' (Multiset.notMem_zero _)
        | some t'' =>
          rw [hc] at ht'
          rw [Multiset.mem_singleton.1 ht']
          exact hkey t s t'' (Multiset.mem_filter.1 hs).2 hc
  · intro t ht
    rw [hmatching t ht]
    exact hcard t (mem_atKey.1 ht).1

end Source

theorem insertSelect_atKey {row : S → T} (hrow : ∀ s, keyT (row s) = keyS s) (cond : S → Truth)
    (k : K) (source : Table S) (target : Table T) :
    atKey keyT k (insertSelect cond row source target) =
      insertSelect cond row (atKey keyS k source) (atKey keyT k target) := by
  rw [insertSelect, atKey_add, insertSelect]
  congr 1
  rw [atKey, Multiset.filter_map, atKey, select, select, Multiset.filter_comm]
  simp only [Function.comp_def, hrow]

theorem Merge.exec_atKey {m : Merge T S} {target changed : Table T}
    (hon : ∀ t s, (m.on t s).Holds → keyT t = keyS s)
    (hkey : ∀ t s t', (m.on t s).Holds → m.change t s = some t' → keyT t' = keyT t)
    (hrow : ∀ row ∈ m.insert, ∀ s, keyT (row s) = keyS s) (h : m.exec source target = some changed)
    (k : K) : m.exec (atKey keyS k source) (atKey keyT k target) = some (atKey keyT k changed) := by
  obtain ⟨updated, hupdated, rfl⟩ := Option.map_eq_some_iff.1 h
  have hcond : ∀ t s, ((m.on t s).and (m.matched t s)).Holds → keyT t = keyS s :=
    fun t s hc => hon t s ((Truth.holds_and _ _).1 hc).1
  have hlocal := updateFrom_atKey hcond (fun t s t' hc => hkey t s t' ((Truth.holds_and _ _).1 hc).1) hupdated k
  rw [Merge.exec, hlocal, Option.map_some]
  congr 1
  cases hinsert : m.insert with
  | none => rfl
  | some row =>
    dsimp only
    rw [insertSelect_atKey (hrow row hinsert), insertSelect, insertSelect, select, select]
    congr 2
    refine Multiset.filter_congr fun s hs => ?_
    obtain ⟨-, rfl⟩ := mem_atKey.1 hs
    rw [notExists_atKey fun t ht => hon t s ht]

theorem Merge.exec_isSome {m : Merge T S} (hon : ∀ t s, (m.on t s).Holds → keyT t = keyS s)
    (hone : ∀ k, (atKey keyS k source).card ≤ 1) (target : Table T) :
    (m.exec source target).isSome := by
  rw [Merge.exec, Option.isSome_map]
  exact updateFrom_isSome (fun t s hc => hon t s ((Truth.holds_and _ _).1 hc).1) hone m.change target

/-- **The first of every partition.** -/
theorem atKey_rowNumberOne {O : Type} [LinearOrder O] {part : S → K} {rank : S → O}
    (hnodup : source.Nodup) (hrank : ∀ s ∈ source, ∀ s' ∈ source, rank s = rank s' → s = s')
    (hsome : atKey part k source ≠ 0) :
    ∃ w ∈ source, part w = k ∧ (∀ s ∈ source, part s = k → rank s ≤ rank w) ∧
      atKey part k (rowNumberOne part rank source) = {w} := by
  obtain ⟨w, hw, hmax⟩ : ∃ w ∈ atKey part k source, ∀ s ∈ atKey part k source, rank s ≤ rank w := by
    obtain ⟨s, hs⟩ := Multiset.exists_mem_of_ne_zero hsome
    classical
    obtain ⟨w, hw, hmax⟩ := (atKey part k source).toFinset.exists_max_image rank
      ⟨s, Multiset.mem_toFinset.2 hs⟩
    exact ⟨w, Multiset.mem_toFinset.1 hw, fun s hs => hmax s (Multiset.mem_toFinset.2 hs)⟩
  obtain ⟨hmem, hpart⟩ := mem_atKey.1 hw
  have hgreatest : ∀ s ∈ source, part s = k → rank s ≤ rank w :=
    fun s hs hk => hmax s (mem_atKey.2 ⟨hs, hk⟩)
  refine ⟨w, hmem, hpart, hgreatest, ?_⟩
  refine (Multiset.Nodup.ext ?_ (Multiset.nodup_singleton w)).2 ?_
  · exact (hnodup.filter _).filter _
  · intro s
    rw [mem_atKey, rowNumberOne, Multiset.mem_filter, Multiset.mem_singleton]
    constructor
    · intro h
      obtain ⟨⟨hs, hfirst⟩, hk⟩ := h
      exact hrank s hs w hmem (le_antisymm (hgreatest s hs hk) (hfirst w hmem (hpart.trans hk.symm)))
    · intro h
      subst h
      exact ⟨⟨hmem, fun s' hs' hk => hgreatest s' hs' (hk.trans hpart)⟩, hpart⟩

theorem atKey_rowNumberOne_of_none {O : Type} [LE O] [DecidableLE O] {part : S → K} {rank : S → O}
    (hnone : atKey part k source = 0) : atKey part k (rowNumberOne part rank source) = 0 := by
  rw [atKey, rowNumberOne, Multiset.filter_comm]
  rw [atKey] at hnone
  rw [hnone]
  rfl

end AtKey

/-! ## Tables of at most one row -/

section One

def ofOption : Option R → Table R
  | none => 0
  | some r => {r}

theorem card_ofOption_le (o : Option R) : (ofOption o).card ≤ 1 := by
  cases o <;> simp [ofOption]

theorem select_ofOption (cond : R → Truth) (o : Option R) :
    select cond (ofOption o) = ofOption (o.filter fun r => (cond r).Holds) := by
  cases o with
  | none => rfl
  | some r =>
    rw [ofOption, select, Multiset.filter_singleton, Option.filter_some]
    by_cases h : (cond r).Holds <;> simp [h, ofOption]

theorem notExists_ofOption (cond : R → Truth) (o : Option R) :
    (notExists cond (ofOption o)).Holds ↔ ∀ r ∈ o, ¬ (cond r).Holds := by
  cases o <;> simp [notExists, ofOption, Truth.holds_ofBool]

theorem matching_ofOption (cond : T → S → Truth) (w : Option S) (t : T) :
    matching cond (ofOption w) t = ofOption (w.filter fun s => (cond t s).Holds) :=
  select_ofOption (cond t) w

def updateOne (cond : T → S → Truth) (change : T → S → Option T) (w : Option S) (o : Option T) : Option T :=
  o.bind fun t => (w.filter fun s => (cond t s).Holds).elim (some t) (change t)

theorem updateFrom_ofOption (cond : T → S → Truth) (change : T → S → Option T) (w : Option S) (o : Option T) :
    updateFrom cond change (ofOption w) (ofOption o) = some (ofOption (updateOne cond change w o)) := by
  have hcard : ∀ t ∈ ofOption o, (matching cond (ofOption w) t).card ≤ 1 := by
    intro t _
    rw [matching_ofOption]
    exact card_ofOption_le _
  rw [updateFrom, if_pos hcard]
  congr 1
  cases o with
  | none => rfl
  | some t =>
    rw [ofOption, Multiset.singleton_bind, matching_ofOption, updateOne, Option.bind_some]
    cases w.filter fun s => (cond t s).Holds with
    | none => rfl
    | some s =>
      simp only [ofOption, Multiset.card_singleton, one_ne_zero, if_false, Multiset.singleton_bind,
        Option.elim_some]
      cases change t s <;> rfl

theorem insertSelect_ofOption {cond : S → Truth} (row : S → T) {w : Option S} {o : Option T}
    (h : o.isSome → ∀ s ∈ w, ¬ (cond s).Holds) :
    insertSelect cond row (ofOption w) (ofOption o) =
      ofOption (o.or ((w.filter fun s => (cond s).Holds).map row)) := by
  rw [insertSelect, select_ofOption]
  cases o with
  | none => cases w.filter fun s => (cond s).Holds <;> simp [ofOption]
  | some t =>
    have hnone : (w.filter fun s => (cond s).Holds) = none := by
      rw [Option.filter_eq_none_iff]
      intro s hs
      simpa using h rfl s hs
    rw [hnone]
    exact add_zero _

/-- What a row becomes by a merge with a row it is matched with. -/
def Merge.one (m : Merge T S) : Option S → Option T → Option T
  | none, o => o
  | some s, none => m.insert.map (· s)
  | some s, some t => if (m.matched t s).Holds then m.change t s else some t

theorem Merge.exec_ofOption (m : Merge T S) {w : Option S} {o : Option T}
    (hon : ∀ s ∈ w, ∀ t ∈ o, (m.on t s).Holds) :
    m.exec (ofOption w) (ofOption o) = some (ofOption (m.one w o)) := by
  rw [Merge.exec, updateFrom_ofOption, Option.map_some]
  congr 1
  cases w with
  | none =>
    have hsame : updateOne (fun t s => (m.on t s).and (m.matched t s)) m.change none o = o := by
      cases o <;> rfl
    rw [hsame]
    cases m.insert with
    | none => rfl
    | some row => exact add_zero _
  | some s =>
    cases o with
    | none =>
      cases hinsert : m.insert with
      | none => simp [Merge.one, updateOne, hinsert]
      | some row =>
        dsimp only
        have hnone : (notExists (fun t => m.on t s) (ofOption none)).Holds :=
          (notExists_ofOption _ none).2 fun t ht => by cases ht
        rw [updateOne, Option.bind_none, insertSelect_ofOption _ (fun h => by cases h), Option.filter_some]
        simp [hnone, Merge.one, hinsert]
    | some t =>
      have ht := hon s rfl t rfl
      have hchanged : updateOne (fun t s => (m.on t s).and (m.matched t s)) m.change (some s) (some t) =
          m.one (some s) (some t) := by
        rw [updateOne, Merge.one, Option.bind_some, Option.filter_some]
        simp only [Truth.holds_and, ht, true_and]
        by_cases hm : (m.matched t s).Holds <;> simp [hm]
      rw [hchanged]
      cases m.insert with
      | none => rfl
      | some row =>
        dsimp only
        have hexists : ¬ (notExists (fun t => m.on t s) (ofOption (some t))).Holds := by
          rw [notExists_ofOption]
          exact fun h => h t rfl ht
        rw [insertSelect, select_ofOption, Option.filter_some, if_neg (by simpa using hexists)]
        exact add_zero _

end One

/-! ## At most one row of a key -/

section OneOfKey
variable [DecidableEq K] {keyT : T → K} {keyS : S → K} {source : Table S} {target changed : Table T} {k : K}
  {w : Option S} {o : Option T} (hsource : atKey keyS k source = ofOption w)
  (htarget : atKey keyT k target = ofOption o)
include hsource

omit hsource in
theorem key_of_atKey {key : R → K} {table : Table R} {r : R} (h : atKey key k table = ofOption (some r)) :
    key r = k := by
  have hmem : r ∈ atKey key k table := h ▸ Multiset.mem_singleton_self r
  exact (mem_atKey.1 hmem).2

theorem select_ofKey (cond : S → Truth) :
    atKey keyS k (select cond source) = ofOption (w.filter fun s => (cond s).Holds) := by
  rw [select_atKey, hsource, select_ofOption]

include htarget

theorem Merge.exec_ofKey {m : Merge T S} (hon : ∀ t s, (m.on t s).Holds → keyT t = keyS s)
    (hkey : ∀ t s t', (m.on t s).Holds → m.change t s = some t' → keyT t' = keyT t)
    (hrow : ∀ row ∈ m.insert, ∀ s, keyT (row s) = keyS s) (h : m.exec source target = some changed)
    (hmatched : ∀ s ∈ w, ∀ t ∈ o, (m.on t s).Holds) : atKey keyT k changed = ofOption (m.one w o) := by
  have hlocal := Merge.exec_atKey hon hkey hrow h k
  rw [hsource, htarget, Merge.exec_ofOption m hmatched] at hlocal
  exact (Option.some.inj hlocal).symm

end OneOfKey

/-! ## Statements as merges -/

def Merge.updates (m : Merge T S) : Merge T S := { m with insert := none }

def Merge.inserts (m : Merge T S) : Merge T S := { m with matched := fun _ _ => .no }

section AsMerge
variable {m : Merge T S} {pred : S → Truth} {cond cond' : T → S → Truth} {source : Table S} {target : Table T}

theorem matching_select (h : ∀ t s, (cond t s).Holds ↔ (pred s).Holds ∧ (cond' t s).Holds) (t : T) :
    matching cond source t = matching cond' (select pred source) t := by
  rw [matching, matching, select, Multiset.filter_filter]
  exact Multiset.filter_congr fun s _ => (h t s).trans and_comm

theorem Merge.exec_updates
    (h : ∀ t s, (cond t s).Holds ↔ (pred s).Holds ∧ (m.on t s).Holds ∧ (m.matched t s).Holds) :
    m.updates.exec (select pred source) target = updateFrom cond m.change source target := by
  have hcond : ∀ t s, (cond t s).Holds ↔ (pred s).Holds ∧ ((m.on t s).and (m.matched t s)).Holds := by
    simpa using h
  simp only [updateFrom, matching_select hcond]
  exact Option.map_id'

theorem Merge.exec_inserts {row : S → T} (hrow : m.insert = some row) {cond : S → Truth}
    (h : ∀ s, (cond s).Holds ↔ (pred s).Holds ∧ (notExists (fun t => m.on t s) target).Holds) :
    m.inserts.exec (select pred source) target = some (insertSelect cond row source target) := by
  have hnone : ∀ t, matching (fun t s => (m.on t s).and .no) (select pred source) t = 0 := by
    intro t
    refine Multiset.filter_eq_nil.2 fun s _ hs => ?_
    cases ((Truth.holds_and _ _).1 hs).2
  have hsame : updateFrom (fun t s => (m.on t s).and .no) m.change (select pred source) target = some target := by
    rw [updateFrom, if_pos fun t _ => by simp [hnone]]
    simp only [hnone, Multiset.card_zero, if_true]
    exact congrArg some (Multiset.bind_singleton target id |>.trans (Multiset.map_id _))
  have hselect : select (fun s => notExists (fun t => m.on t s) target) (select pred source) =
      select cond source := by
    rw [select_select]
    exact Multiset.filter_congr fun s _ => by rw [Truth.holds_and, h]
  simp only [Merge.exec, Merge.inserts, hsame, Option.map_some, hrow, insertSelect, hselect]

theorem Merge.exec_deletes (hchange : ∀ t s, m.change t s = none) (hinsert : m.insert = none)
    (h : ∀ t s, (cond t s).Holds ↔ (pred s).Holds ∧ (m.on t s).Holds ∧ (m.matched t s).Holds)
    (hexec : (m.exec (select pred source) target).isSome) :
    m.exec (select pred source) target = some (deleteUsing cond source target) := by
  have hcond : ∀ t s, (cond t s).Holds ↔ (pred s).Holds ∧ ((m.on t s).and (m.matched t s)).Holds := by
    simpa using h
  simp only [Merge.exec, hinsert, updateFrom, ← matching_select hcond, Option.map_id'] at hexec ⊢
  split at hexec
  · rename_i hcard
    rw [if_pos hcard]
    refine congrArg some ?_
    clear hexec hcard
    simp only [hchange, Option.elim_none, Multiset.bind_zero]
    induction target using Multiset.induction_on with
    | empty => rfl
    | cons t target ih =>
      rw [Multiset.cons_bind, ih, deleteUsing, deleteUsing, Multiset.filter_cons]
  · cases hexec

theorem deleteWhere_eq (cond : T → S → Truth) (s : S) (target : Table T) :
    deleteWhere (fun t => cond t s) target = deleteUsing cond {s} target := by
  refine Multiset.filter_congr fun t _ => ?_
  rw [matching, Multiset.filter_singleton]
  by_cases h : (cond t s).Holds <;> simp [h]

theorem Merge.one_inserts_updates (hchange : ∀ t s, (m.change t s).isSome) (w : Option S) (o : Option T) :
    m.inserts.one w (m.updates.one w o) = m.one w o := by
  cases w with
  | none => rfl
  | some s =>
    cases o with
    | none => rfl
    | some t =>
      obtain ⟨t', ht'⟩ := Option.isSome_iff_exists.1 (hchange t s)
      have hno : ¬ Truth.no.Holds := by decide
      by_cases hm : (m.matched t s).Holds <;> simp [Merge.one, Merge.inserts, Merge.updates, hm, hno, ht']

end AsMerge

end Skippr.Sql
