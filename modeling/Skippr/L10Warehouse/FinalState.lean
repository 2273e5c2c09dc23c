import Skippr.Core.LTS
import Skippr.L10Warehouse.OneKey

/-!
# The final state of a warehouse table

Batches of CDC rows reach a table in any order, split and replayed in any way, by
the bulk statements of a dialect or by the guarded ones. After any of them the
live table should hold, for every business key, the row of the event with the
greatest order token, unless that event is a delete.
-/
namespace Skippr.L10

open Skippr.Sql Skippr.L6.Cdc

variable {V : Type} [DecidableEq V]

/-! ## Accepted batches -/

theorem validateColumns_ok {columns : List CdcApplyColumn} {names names' : List Text}
    (h : validateColumns names columns = .ok names') :
    (columns.map (·.name)).Nodup ∧ (∀ name ∈ columns.map (·.name), name ∉ names) ∧
      ∀ name, name ∈ names' ↔ name ∈ columns.map (·.name) ∨ name ∈ names := by
  induction columns generalizing names with
  | nil =>
    cases h
    simp
  | cons column columns ih =>
    obtain ⟨-, h⟩ := of_check h
    split at h
    · cases h
    rename_i hnew
    obtain ⟨hnodup, hdisjoint, hnames⟩ := ih h
    rw [List.map_cons]
    refine ⟨List.nodup_cons.2 ⟨?_, hnodup⟩, ?_, ?_⟩
    · intro hmem
      exact hdisjoint _ hmem List.mem_cons_self
    · exact List.forall_mem_cons.2
        ⟨hnew, fun name hname hmem => hdisjoint name hname (List.mem_cons_of_mem _ hmem)⟩
    · intro name
      rw [hnames, List.mem_cons, List.mem_cons]
      tauto

theorem validateRows_ok {width idx : Nat} {ordinals : List Nat} {rows : List CdcApplyRow}
    (h : validateRows width ordinals idx rows = .ok ()) :
    (∀ row ∈ rows, row.values.length = width) ∧ (rows.map (·.metadata.sourceOrdinal)).Nodup ∧
      ∀ row ∈ rows, row.metadata.sourceOrdinal ∉ ordinals := by
  induction rows generalizing ordinals idx with
  | nil => simp
  | cons row rows ih =>
    obtain ⟨hwidth, h⟩ := of_check h
    split at h
    · cases h
    split at h
    · cases h
    rename_i hnew
    obtain ⟨hwidths, hnodup, hdisjoint⟩ := ih h
    refine ⟨?_, ?_, ?_⟩
    · exact List.forall_mem_cons.2 ⟨not_not.1 hwidth, hwidths⟩
    · refine List.nodup_cons.2 ⟨?_, hnodup⟩
      intro hmem
      obtain ⟨row', hrow', heq⟩ := List.mem_map.1 hmem
      exact hdisjoint row' hrow' (heq ▸ List.mem_cons_self)
    · refine List.forall_mem_cons.2 ⟨hnew, ?_⟩
      intro row' hrow' hmem
      exact hdisjoint row' hrow' (List.mem_cons_of_mem _ hmem)

namespace Target
variable (t : Target V)

omit [DecidableEq V] in
theorem validate_ok {rows : List CdcApplyRow}
    (h : CdcApplyBatch.validate ⟨t.columns, t.businessKeyColumns, rows⟩ = .ok ()) :
    t.Valid ∧ (∀ row ∈ rows, row.values.length = t.columns.length) ∧
      (rows.map (·.metadata.sourceOrdinal)).Nodup := by
  obtain ⟨-, h⟩ := of_check h
  split at h
  · cases h
  split at h
  · cases h
  rename_i names hnames
  split at h
  · cases h
  rename_i hkeys
  obtain ⟨hnodup, -, hmem⟩ := validateColumns_ok hnames
  obtain ⟨hwidths, hordinals, -⟩ := validateRows_ok h
  refine ⟨⟨hnodup, ?_⟩, hwidths, hordinals⟩
  intro key hkey
  have hin := List.find?_eq_none.1 hkeys key hkey
  simpa [hmem] using hin

end Target

/-! ## The latest event of a key -/

structure ApplyEvent (V : Type) where
  mutation : CdcApplyMutation
  token : OrderToken
  cells : List (Option V)
deriving DecidableEq

def newest (latest : Option (ApplyEvent V)) (e : ApplyEvent V) : ApplyEvent V :=
  match latest with
  | none => e
  | some old => if old.token < e.token then e else old

def Settled : Option (ApplyEvent V) → Slot V → Prop
  | none, slot => slot.live = none ∧ slot.tombstone = none
  | some ⟨.upsert, token, cells⟩, slot =>
    slot.live = some ⟨cells, some token⟩ ∧ ∀ b ∈ slot.tombstone, b.token < token
  | some ⟨.delete, token, _⟩, slot => slot.live = none ∧ ∃ b ∈ slot.tombstone, b.token = token

omit [DecidableEq V] in
theorem Settled.withoutWinner {latest : Option (ApplyEvent V)} {slot : Slot V} (h : Settled latest slot) :
    Settled latest { slot with winner := none } :=
  match latest, h with
  | none, h | some ⟨.upsert, _, _⟩, h | some ⟨.delete, _, _⟩, h => h

section Settle
variable {t : Target V} {w : StageRow V} {slot : Slot V} {latest : Option (ApplyEvent V)}

theorem applied_upsert (hw : w.mutation = 0) :
    t.applied (some w) slot =
      { slot with
        live := if slot.buries w then slot.live else t.upsertMerge.one (some w) slot.live
        tombstone := slot.tombstone.filter fun b => ¬ b.token < w.token } := by
  have hclear : t.clearMerge.one (some w) slot.tombstone =
      slot.tombstone.filter fun b => ¬ b.token < w.token := by
    cases slot.tombstone with
    | none => rfl
    | some b => by_cases hlt : b.token < w.token <;> simp [Merge.one, Target.clearMerge, Option.filter_some, hlt]
  have hraise : t.upsertMerge.one ((some w).filter fun w => !slot.buries w) slot.live =
      if slot.buries w then slot.live else t.upsertMerge.one (some w) slot.live := by
    cases hb : slot.buries w <;> simp [Option.filter_some, hb, Merge.one]
  rw [← hclear, ← hraise]
  simp only [Target.applied, Option.filter_some, hw]
  rfl

theorem applied_delete (hw : w.mutation = 1) :
    t.applied (some w) slot =
      { slot with
        live := t.deleteMerge.one (some w) slot.live
        tombstone := t.tombstoneMerge.one (some w) slot.tombstone } := by
  simp only [Target.applied, Option.filter_some, hw]
  rfl

omit [DecidableEq V] in
theorem holds_older {cells : List (Option V)} {token : OrderToken} :
    (Target.older ⟨cells, some token⟩ w).Holds ↔ token < w.token := by
  simp [Target.older, Truth.holds_or, holds_isNull]

variable (hs : Settled latest slot)
include hs

theorem settled_upsert (ht : t.Valid) (hw : w.mutation = 0) (hwidth : w.cells.length = t.columns.length)
    (hlatest : ∀ e ∈ latest, e.cells.length = t.columns.length ∧ t.keyOf e.cells = t.keyOf w.cells) :
    Settled (some (newest latest ⟨.upsert, w.token, w.cells⟩)) (t.applied (some w) slot) := by
  rw [applied_upsert hw]
  match latest, hs with
  | none, hs =>
    obtain ⟨hlive, htombstone⟩ := hs
    refine ⟨?_, ?_⟩ <;> simp [hlive, htombstone, Slot.buries, Merge.one, Target.upsertMerge, Target.inserted]
  | some ⟨.upsert, token, cells⟩, hs =>
    obtain ⟨hlive, hstale⟩ := hs
    obtain ⟨hcells, hkey⟩ := hlatest _ rfl
    by_cases hlt : token < w.token
    · -- The row is there and older, and so is a tombstone.
      have hbelow : ∀ b ∈ slot.tombstone, b.token < w.token := fun b hb => (hstale b hb).trans hlt
      have hburies : slot.buries w = false := by
        rw [Slot.buries, Option.any_eq_false]
        intro b hb
        simpa using hbelow b hb
      rw [newest, if_pos hlt]
      refine ⟨?_, ?_⟩
      · rw [hburies, hlive]
        simp [Merge.one, Target.upsertMerge, holds_older, hlt, Target.updated,
          Target.assign_eq ht hcells hwidth hkey]
      · intro b hb
        obtain ⟨hb, hkept⟩ := Option.mem_filter_iff.1 hb
        simp [hbelow b hb] at hkept
    · rw [newest, if_neg hlt]
      refine ⟨?_, ?_⟩
      · rw [hlive]
        simp [Merge.one, Target.upsertMerge, holds_older, hlt]
      · intro b hb
        exact hstale b (Option.mem_filter_iff.1 hb).1
  | some ⟨.delete, token, cells⟩, hs =>
    obtain ⟨hlive, b, hb, rfl⟩ := hs
    by_cases hlt : b.token < w.token
    · rw [newest, if_pos hlt]
      refine ⟨?_, ?_⟩
      · simp [Slot.buries, Option.mem_def.1 hb, hlt, hlive, Merge.one, Target.upsertMerge, Target.inserted]
      · simp [Option.mem_def.1 hb, Option.filter_some, hlt]
    · -- The tombstone buries the row.
      rw [newest, if_neg hlt]
      refine ⟨?_, b, ?_, rfl⟩
      · simp [Slot.buries, Option.mem_def.1 hb, not_lt.1 hlt, hlive]
      · simp [Option.mem_def.1 hb, Option.filter_some, hlt]

theorem settled_delete (hw : w.mutation = 1)
    (htell : ∀ e ∈ latest, e.token = w.token → e = ⟨.delete, w.token, w.cells⟩) :
    Settled (some (newest latest ⟨.delete, w.token, w.cells⟩)) (t.applied (some w) slot) := by
  rw [applied_delete hw]
  match latest, hs with
  | none, hs =>
    obtain ⟨hlive, htombstone⟩ := hs
    refine ⟨?_, t.tombstoneOf w, ?_, rfl⟩
    · rw [hlive]
      rfl
    · rw [htombstone]
      rfl
  | some ⟨.upsert, token, cells⟩, hs =>
    obtain ⟨hlive, hstale⟩ := hs
    by_cases hlt : token < w.token
    · rw [newest, if_pos hlt]
      refine ⟨?_, ?_⟩
      · rw [hlive]
        simp [Merge.one, Target.deleteMerge, holds_older, hlt]
      · cases hb : slot.tombstone with
        | none => exact ⟨t.tombstoneOf w, rfl, rfl⟩
        | some b =>
          have hbelow : b.token < w.token := (hstale b hb).trans hlt
          exact ⟨{ b with token := w.token }, by simp [Merge.one, Target.tombstoneMerge, hbelow], rfl⟩
    · -- The row stays; it is not the delete, so its token is greater.
      have hne : token ≠ w.token := by
        intro heq
        have hsame := htell _ rfl heq
        cases hsame
      have habove : w.token < token := lt_of_le_of_ne (not_lt.1 hlt) (Ne.symm hne)
      rw [newest, if_neg hlt]
      refine ⟨?_, ?_⟩
      · rw [hlive]
        simp [Merge.one, Target.deleteMerge, holds_older, hlt]
      · intro b' hb'
        cases hb : slot.tombstone with
        | none =>
          rw [hb] at hb'
          cases hb'
          exact habove
        | some b =>
          rw [hb] at hb'
          by_cases hbw : b.token < w.token
          · simp only [Merge.one, Target.tombstoneMerge, holds_less, hbw, if_true] at hb'
            cases hb'
            exact habove
          · simp only [Merge.one, Target.tombstoneMerge, holds_less, hbw, if_false] at hb'
            cases hb'
            exact hstale b' hb
  | some ⟨.delete, token, cells⟩, hs =>
    obtain ⟨hlive, b, hb, rfl⟩ := hs
    have hkept : t.deleteMerge.one (some w) slot.live = none := by
      rw [hlive]
      rfl
    rw [Option.mem_def.1 hb]
    by_cases hlt : b.token < w.token
    · rw [newest, if_pos hlt]
      exact ⟨hkept, { b with token := w.token }, by simp [Merge.one, Target.tombstoneMerge, hlt], rfl⟩
    · rw [newest, if_neg hlt]
      exact ⟨hkept, b, by simp [Merge.one, Target.tombstoneMerge, hlt], rfl⟩

end Settle

/-! ## Runs -/

inductive Path
  | bulk
  | guarded
deriving DecidableEq, Repr

structure Label where
  path : Path
  rows : List CdcApplyRow
deriving DecidableEq, Repr

structure St (V : Type) where
  db : Db V
  events : List (ApplyEvent V)
deriving DecidableEq

def St.empty : St V := ⟨⟨0, 0, 0, 0⟩, []⟩

namespace Target
variable (t : Target V)

omit [DecidableEq V] in
def event (row : CdcApplyRow) : ApplyEvent V := ⟨row.metadata.mutation, row.metadata.orderToken, t.cells row⟩

def statements (l : Label) : Except CdcApplyBatchError (List (List (Statement V))) :=
  let batch : CdcApplyBatch := ⟨t.columns, t.businessKeyColumns, l.rows⟩
  match l.path with
  | .bulk =>
    match warehouseBulkCdcSql t.dialect t.evaluate batch with
    | .error e => .error e
    | .ok sql => .ok [sql.atomicStatements]
  | .guarded => guardedWarehouseCdcSql t.dialect t.evaluate batch

def step (s : St V) (l : Label) : Option (St V) :=
  match t.statements l with
  | .error _ => none
  | .ok transactions =>
    (runAll transactions.flatten s.db).map fun db => ⟨db, s.events ++ l.rows.map t.event⟩

/-- Different events of one key have different order tokens. -/
def TokensTell (events : List (ApplyEvent V)) : Prop :=
  ∀ e ∈ events, ∀ e' ∈ events, t.keyOf e.cells = t.keyOf e'.cells → e.token = e'.token → e = e'

instance (events : List (ApplyEvent V)) : Decidable (t.TokensTell events) :=
  inferInstanceAs (Decidable (∀ e ∈ events, ∀ e' ∈ events, _ → _ → _))

/-- Batches in any order, split and replayed in any way. -/
def system : LTS (St V) Label :=
  (LTS.ofFn (fun s => s = .empty) t.step).restrict fun s l => t.TokensTell (s.events ++ l.rows.map t.event)

/-- The columns have names of their own, and no key column is named twice. -/
structure PlainNames : Prop where
  reserved : ∀ name ∈ [stageOrdinal, stageMutation, stageToken, stageRank, targetToken], name ∉ t.names
  keys : t.businessKeyColumns.Nodup

/-- The columns are plainly named, no row has a NULL in a business key, and the
warehouse takes every literal. -/
def Clean (_ : St V) (l : Label) : Prop :=
  t.PlainNames ∧ ∀ row ∈ l.rows, Given (t.keyOf (t.cells row)) ∧ t.accepts row = true

def latest (events : List (ApplyEvent V)) (k : List (Option V)) : Option (ApplyEvent V) :=
  greatest ApplyEvent.token (events.filter fun e => t.keyOf e.cells = k)

/-- The live rows of every key are those of its latest event. -/
def FinalState (s : St V) : Prop :=
  ∀ k, atKey (fun r => t.keyOf r.cells) k s.db.live = match t.latest s.events k with
    | none => 0
    | some e => match e.mutation with
      | .upsert => {⟨e.cells, some e.token⟩}
      | .delete => 0

end Target

section Runs
variable {t : Target V}

variable {row : CdcApplyRow} {events : List (ApplyEvent V)} {rows : List CdcApplyRow} {db : Db V}

theorem settled_applied (ht : t.Valid) {latest : Option (ApplyEvent V)} {slot : Slot V}
    (hs : Settled latest slot) (hwidth : (t.cells row).length = t.columns.length)
    (hcells : ∀ e ∈ latest, e.cells.length = t.columns.length)
    (hkey : ∀ e ∈ latest, t.keyOf e.cells = t.keyOf (t.cells row))
    (htell : ∀ e ∈ latest, e.token = row.metadata.orderToken → e = t.event row) :
    Settled (some (newest latest (t.event row))) (t.applied (some (t.stageRow row)) slot) := by
  cases hm : row.metadata.mutation with
  | upsert =>
    have hevent : t.event row = ⟨.upsert, (t.stageRow row).token, (t.stageRow row).cells⟩ := by
      rw [Target.event, hm]
      rfl
    rw [hevent]
    refine settled_upsert hs ht (by simp [Target.stageRow, hm]) hwidth ?_
    intro e he
    exact ⟨hcells e he, hkey e he⟩
  | delete =>
    have hevent : t.event row = ⟨.delete, (t.stageRow row).token, (t.stageRow row).cells⟩ := by
      rw [Target.event, hm]
      rfl
    rw [hevent]
    refine settled_delete hs (by simp [Target.stageRow, hm]) ?_
    intro e he htoken
    rw [← hevent]
    exact htell e he htoken

def Wins (t : Target V) (rows : List CdcApplyRow) (k : List (Option V)) : Option (StageRow V) → Prop
  | none => ∀ row ∈ rows, t.keyOf (t.cells row) ≠ k
  | some w => ∃ row ∈ rows, w = t.stageRow row ∧ t.keyOf (t.cells row) = k ∧
      ∀ row' ∈ rows, t.keyOf (t.cells row') = k → row'.metadata.orderToken ≤ row.metadata.orderToken

structure Inv (t : Target V) (s : St V) : Prop where
  winners : s.db.winners = 0
  widths : ∀ e ∈ s.events, e.cells.length = t.columns.length
  tell : t.TokensTell s.events
  slots : ∀ k, (∀ e ∈ s.events, t.keyOf e.cells = k → Given k) →
    ∃ live tombstone, t.HasSlot k s.db ⟨live, tombstone, none⟩ ∧
      Settled (t.latest s.events k) ⟨live, tombstone, none⟩

theorem mem_of_latest {k : List (Option V)} {e : ApplyEvent V} (h : t.latest events k = some e) :
    e ∈ events ∧ t.keyOf e.cells = k := by
  simpa using mem_of_greatest _ h

theorem latest_append {k : List (Option V)} (htell : t.TokensTell (events ++ rows.map t.event))
    (hmem : row ∈ rows) (hkey : t.keyOf (t.cells row) = k)
    (hmax : ∀ row' ∈ rows, t.keyOf (t.cells row') = k → row'.metadata.orderToken ≤ row.metadata.orderToken) :
    t.latest (events ++ rows.map t.event) k = some (newest (t.latest events k) (t.event row)) := by
  have hin : t.event row ∈ (rows.map t.event).filter fun e => t.keyOf e.cells = k :=
    List.mem_filter.2 ⟨List.mem_map_of_mem hmem, decide_eq_true hkey⟩
  have hof : ∀ e ∈ (rows.map t.event).filter fun e => t.keyOf e.cells = k,
      ∃ row' ∈ rows, t.event row' = e ∧ t.keyOf e.cells = k := by
    intro e he
    obtain ⟨he, hk⟩ := List.mem_filter.1 he
    obtain ⟨row', hrow', rfl⟩ := List.mem_map.1 he
    exact ⟨row', hrow', rfl, by simpa using hk⟩
  rw [Target.latest, List.filter_append, greatest_append_of_max _ _ hin, greatest_concat, Target.latest]
  · cases greatest ApplyEvent.token (events.filter fun e => t.keyOf e.cells = k) with
    | none => rfl
    | some old =>
      dsimp only [newest]
      split <;> rfl
  · intro e he
    obtain ⟨row', hrow', rfl, hk⟩ := hof e he
    exact hmax row' hrow' hk
  · intro e he htoken
    obtain ⟨row', hrow', rfl, hk⟩ := hof e he
    exact htell _ (List.mem_append_right _ (List.mem_map_of_mem hrow')) _
      (List.mem_append_right _ (List.mem_map_of_mem hmem)) (hk.trans hkey.symm) htoken

omit [DecidableEq V] in
theorem length_cells (h : row.values.length = t.columns.length) :
    (t.cells row).length = t.columns.length := by
  rw [Target.cells, List.length_zipWith, h, min_self]

theorem Inv.applied (ht : t.Valid) {db' : Db V} (h : Inv t ⟨db, events⟩)
    (hwidths : ∀ row ∈ rows, row.values.length = t.columns.length)
    (htell : t.TokensTell (events ++ rows.map t.event)) (hwinners : db'.winners = 0)
    (hbatch : ∀ k, ∃ w, Wins t rows k w ∧ ∀ slot, slot.winner = none → (∀ s ∈ w, Given k) → t.HasSlot k db slot →
      t.HasSlot k db' { t.applied w slot with winner := none }) :
    Inv t ⟨db', events ++ rows.map t.event⟩ := by
  refine ⟨hwinners, ?_, htell, ?_⟩
  · refine List.forall_mem_append.2 ⟨h.widths, List.forall_mem_map.2 fun row hrow => ?_⟩
    exact length_cells (hwidths row hrow)
  · intro k hgiven
    obtain ⟨live, tombstone, hslot, hsettled⟩ :=
      h.slots k (List.forall_mem_append.1 hgiven).1
    obtain ⟨w, hw, happlied⟩ := hbatch k
    cases w with
    | none =>
      have hnone : (rows.map t.event).filter (fun e => t.keyOf e.cells = k) = [] := by
        rw [List.filter_eq_nil_iff]
        exact List.forall_mem_map.2 fun row hrow => fun hk => hw row hrow (of_decide_eq_true hk)
      refine ⟨live, tombstone, happlied _ rfl (fun s hs => by cases hs) hslot, ?_⟩
      rw [Target.latest, List.filter_append, hnone, List.append_nil]
      exact hsettled
    | some w =>
      obtain ⟨row, hrow, rfl, hkey, hmax⟩ := hw
      have hk : Given k := hgiven _ (List.mem_append_right _ (List.mem_map_of_mem hrow)) hkey
      refine ⟨_, _, happlied _ rfl (fun _ _ => hk) hslot, ?_⟩
      rw [latest_append htell hrow hkey hmax]
      have hnext := settled_applied ht hsettled (length_cells (hwidths row hrow))
        (fun e he => h.widths e (mem_of_latest he).1) (fun e he => (mem_of_latest he).2.trans hkey.symm)
        (fun e he htoken => htell e (List.mem_append_left _ (mem_of_latest he).1) _
          (List.mem_append_right _ (List.mem_map_of_mem hrow)) ((mem_of_latest he).2.trans hkey.symm) htoken)
      exact hnext.withoutWinner

omit [DecidableEq V] in
theorem runAll_append (a b : List (Statement V)) (db : Db V) :
    runAll (a ++ b) db = (runAll a db).bind (runAll b) :=
  List.foldlM_append

/-! ### The bulk path -/

def stagedRows (t : Target V) (rows : List CdcApplyRow) : Table (StageRow V) := ↑(rows.map t.stageRow)

omit [DecidableEq V] in
theorem mem_stagedRows {s : StageRow V} :
    s ∈ stagedRows t rows ↔ ∃ row ∈ rows, t.stageRow row = s := by
  rw [stagedRows, Multiset.mem_coe, List.mem_map]

def winnersOf (t : Target V) (rows : List CdcApplyRow) : Table (StageRow V) :=
  rowNumberOne (fun s => t.keyOf s.cells) Target.rank (stagedRows t rows)

theorem winnersOf_wins (hordinals : (rows.map (·.metadata.sourceOrdinal)).Nodup)
    (k : List (Option V)) :
    ∃ w, Wins t rows k w ∧ atKey (fun s => t.keyOf s.cells) k (winnersOf t rows) = ofOption w := by
  have hrank : ∀ s ∈ stagedRows t rows, ∀ s' ∈ stagedRows t rows,
      Target.rank s = Target.rank s' → s = s' := by
    intro s hs s' hs' heq
    obtain ⟨row, hrow, rfl⟩ := mem_stagedRows.1 hs
    obtain ⟨row', hrow', rfl⟩ := mem_stagedRows.1 hs'
    have hordinal : row.metadata.sourceOrdinal = row'.metadata.sourceOrdinal :=
      congrArg (fun r : OrderToken ×ₗ ℕᵒᵈ => OrderDual.ofDual (ofLex r).2) heq
    rw [List.inj_on_of_nodup_map hordinals hrow hrow' hordinal]
  have hnodup : (stagedRows t rows).Nodup := by
    refine Multiset.coe_nodup.2 (List.Nodup.of_map StageRow.ordinal ?_)
    rw [List.map_map]
    exact hordinals
  by_cases hnone : atKey (fun s => t.keyOf s.cells) k (stagedRows t rows) = 0
  · refine ⟨none, ?_, atKey_rowNumberOne_of_none hnone⟩
    intro row hrow hkey
    have hmem : t.stageRow row ∈ atKey (fun s => t.keyOf s.cells) k (stagedRows t rows) :=
      mem_atKey.2 ⟨mem_stagedRows.2 ⟨row, hrow, rfl⟩, hkey⟩
    rw [hnone] at hmem
    exact Multiset.notMem_zero _ hmem
  · obtain ⟨w, hw, hkey, hmax, hone⟩ := atKey_rowNumberOne hnodup hrank hnone
    obtain ⟨row, hrow, rfl⟩ := mem_stagedRows.1 hw
    refine ⟨some (t.stageRow row), ⟨row, hrow, rfl, hkey, ?_⟩, hone⟩
    intro row' hrow' hkey'
    have hle := hmax _ (mem_stagedRows.2 ⟨row', hrow', rfl⟩) hkey'
    exact Prod.Lex.monotone_fst _ _ hle

theorem bulk_run (ht : t.Valid) (h : Inv t ⟨db, events⟩)
    (hwidths : ∀ row ∈ rows, row.values.length = t.columns.length)
    (hordinals : (rows.map (·.metadata.sourceOrdinal)).Nodup)
    (htell : t.TokensTell (events ++ rows.map t.event)) (hn : t.Named)
    (haccepts : ∀ row ∈ rows, t.accepts row = true) :
    ∃ db', runAll (t.setupStatements rows ++ t.applyStatements ++ [Target.dropTables]) db = some db' ∧
      Inv t ⟨db', events ++ rows.map t.event⟩ := by
  obtain ⟨staged, hsetup, hlive, htombstones, hwinners⟩ : ∃ staged,
      runAll (t.setupStatements rows) db = some staged ∧
        staged.live = db.live ∧ staged.tombstones = db.tombstones ∧ staged.winners = winnersOf t rows := by
    rw [Target.setupStatements, Target.checked_eq hn.stage, Target.checked_eq hn.winners,
      Target.checked_eq (List.all_eq_true.2 haccepts)]
    refine ⟨_, rfl, rfl, rfl, ?_⟩
    dsimp only
    rw [zero_add]
    rfl
  have hone : t.OneWinner staged := by
    intro k
    obtain ⟨w, -, hw⟩ := winnersOf_wins (t := t) hordinals k
    rw [hwinners, hw]
    exact card_ofOption_le w
  obtain ⟨done, hdone, -, hslots⟩ := Target.does_applyStatements ht hn staged hone
  refine ⟨{ done with stage := 0, winners := 0 }, ?_, ?_⟩
  · rw [runAll_append, runAll_append, hsetup, Option.bind_some, hdone]
    rfl
  · refine h.applied ht hwidths htell rfl ?_
    intro k
    obtain ⟨w, hwins, hw⟩ := winnersOf_wins (t := t) hordinals k
    refine ⟨w, hwins, ?_⟩
    intro slot hnone hgiven hslot
    have hstaged : t.HasSlot k staged { slot with winner := w } := by
      refine ⟨?_, ?_, ?_⟩
      · rw [hlive]
        exact hslot.live
      · rw [htombstones]
        exact hslot.tombstone
      · rw [hwinners]
        exact hw
    have hdone := hslots k { slot with winner := w } hgiven hstaged
    exact ⟨hdone.live, hdone.tombstone, rfl⟩

/-! ### The guarded path -/

omit [DecidableEq V] in
theorem acceptsKey_of_accepts (h : t.accepts row = true) : t.acceptsKey row = true := by
  refine List.all_eq_true.2 fun i _ => ?_
  cases hx : (row.values.zip t.columns)[i]? with
  | none => rfl
  | some x => exact List.all_eq_true.1 h x (List.mem_of_getElem? hx)

omit [DecidableEq V] in
theorem map_checked {ok : Bool} (h : ok = true) (statements : List (Statement V)) :
    statements.map (checked ok) = statements := by
  rw [funext (Target.checked_eq h), List.map_id']

theorem does_guardedRow (ht : t.Valid) (hn : t.Named) (haccepts : t.accepts row = true) :
    t.Does (t.rowAt (t.stageRow row)) (runAll (t.guardedRow row)) fun k slot =>
      t.applied (t.rowAt (t.stageRow row) k slot) slot := by
  cases hm : row.metadata.mutation with
  | upsert =>
    simp only [Target.guardedRow, hm, map_checked haccepts]
    exact Target.does_upsertIfNewer ht hn (by simp [Target.stageRow, hm])
  | delete =>
    simp only [Target.guardedRow, hm, map_checked (acceptsKey_of_accepts haccepts)]
    exact Target.does_deleteIfNewer hn (by simp [Target.stageRow, hm])

theorem guardedRow_run (ht : t.Valid) (hn : t.Named) (haccepts : t.accepts row = true)
    (h : Inv t ⟨db, events⟩) (hwidth : row.values.length = t.columns.length)
    (htell : t.TokensTell (events ++ [t.event row])) :
    ∃ db', runAll (t.guardedRow row) db = some db' ∧ Inv t ⟨db', events ++ [t.event row]⟩ := by
  have hone : t.OneWinner db := by
    intro k
    rw [h.winners]
    exact Nat.zero_le 1
  obtain ⟨db', hrun, hwinners, hslots⟩ := does_guardedRow ht hn haccepts db hone
  have hnone : db'.winners = 0 := hwinners.trans h.winners
  have hwidths : ∀ row' ∈ [row], row'.values.length = t.columns.length := List.forall_mem_singleton.2 hwidth
  refine ⟨db', hrun, h.applied ht hwidths htell hnone ?_⟩
  intro k
  refine ⟨t.rowAt (t.stageRow row) k ⟨none, none, none⟩, ?_, ?_⟩
  · by_cases hkey : t.keyOf (t.cells row) = k
    · have hat : t.rowAt (t.stageRow row) k ⟨none, none, none⟩ = some (t.stageRow row) := if_pos hkey
      rw [hat]
      refine ⟨row, List.mem_singleton_self row, rfl, hkey, ?_⟩
      intro row' hrow' _
      rw [List.mem_singleton.1 hrow']
    · have hat : t.rowAt (t.stageRow row) k ⟨none, none, none⟩ = none := if_neg hkey
      rw [hat]
      exact List.forall_mem_singleton.2 hkey
  · intro slot _ hgiven hslot
    have hdone := hslots k slot hgiven hslot
    refine ⟨hdone.live, hdone.tombstone, ?_⟩
    rw [hnone]
    rfl

theorem guarded_run (ht : t.Valid) (hn : t.Named) (haccepts : ∀ row ∈ rows, t.accepts row = true)
    (h : Inv t ⟨db, events⟩)
    (hwidths : ∀ row ∈ rows, row.values.length = t.columns.length)
    (htell : t.TokensTell (events ++ rows.map t.event)) :
    ∃ db', runAll (rows.map t.guardedRow).flatten db = some db' ∧
      Inv t ⟨db', events ++ rows.map t.event⟩ := by
  induction rows generalizing db events with
  | nil => exact ⟨db, rfl, by simpa using h⟩
  | cons row rows ih =>
    obtain ⟨hwidth, hwidths⟩ := List.forall_mem_cons.1 hwidths
    obtain ⟨haccept, haccepts⟩ := List.forall_mem_cons.1 haccepts
    rw [List.map_cons, List.append_cons] at htell
    obtain ⟨db₁, hrun, h₁⟩ := guardedRow_run ht hn haccept h hwidth fun e he e' he' =>
      htell e (List.mem_append_left _ he) e' (List.mem_append_left _ he')
    obtain ⟨db', hrest, h'⟩ := ih haccepts h₁ hwidths htell
    refine ⟨db', ?_, ?_⟩
    · rw [List.map_cons, List.flatten_cons, runAll_append, hrun]
      exact hrest
    · rw [List.map_cons, List.append_cons]
      exact h'

/-! ### All runs -/

theorem statements_ok {l : Label} {transactions : List (List (Statement V))}
    (h : t.statements l = .ok transactions) :
    CdcApplyBatch.validate ⟨t.columns, t.businessKeyColumns, l.rows⟩ = .ok () ∧
      transactions = match l.path with
        | .bulk => [t.setupStatements l.rows ++ t.applyStatements ++ [Target.dropTables]]
        | .guarded => l.rows.map t.guardedRow := by
  cases hpath : l.path with
  | bulk =>
    simp only [Target.statements, hpath, warehouseBulkCdcSql] at h
    split at h
    · cases h
    rename_i sql hsql
    split at hsql
    · cases hsql
    rename_i hvalid
    split at hsql
    · cases hsql
    split at hsql
    · cases hsql
    cases hsql
    cases h
    exact ⟨hvalid, rfl⟩
  | guarded =>
    simp only [Target.statements, hpath, guardedWarehouseCdcSql] at h
    split at h
    · cases h
    rename_i hvalid
    cases h
    exact ⟨hvalid, rfl⟩

omit [DecidableEq V] in
theorem Target.PlainNames.named (hp : t.PlainNames) (ht : t.Valid) : t.Named := by
  have hnames : t.names.Nodup := ht.nodup
  have hr := hp.reserved
  simp only [List.mem_cons, List.not_mem_nil, or_false, forall_eq_or_imp, forall_eq] at hr
  obtain ⟨hordinal, hmutation, htoken, hrank, htarget⟩ := hr
  have hstage : ([stageOrdinal, stageMutation, stageToken] ++ t.names).Nodup := by
    refine List.nodup_append.2 ⟨by decide, hnames, ?_⟩
    rintro a ha b hb rfl
    simp only [List.mem_cons, List.not_mem_nil, or_false] at ha
    rcases ha with rfl | rfl | rfl
    · exact hordinal hb
    · exact hmutation hb
    · exact htoken hb
  have hlast : ∀ names : List Text, names.Nodup → targetToken ∉ names → (names ++ [targetToken]).Nodup := by
    intro names hnames hnot
    exact List.nodup_append.2 ⟨hnames, List.nodup_singleton _, by rintro a ha b hb rfl; simp_all⟩
  refine ⟨decide_eq_true hstage, decide_eq_true (List.nodup_cons.2 ⟨?_, hstage⟩),
    decide_eq_true (hlast _ hnames htarget), decide_eq_true (hlast _ hp.keys ?_)⟩
  · intro hmem
    rcases List.mem_append.1 hmem with hmem | hmem
    · exact absurd hmem (by decide)
    · exact hrank hmem
  · exact fun hmem => htarget (ht.keys _ hmem)

theorem step_spec {s : St V} {l : Label} {transactions : List (List (Statement V))} (h : Inv t s)
    (hclean : t.Clean s l) (htell : t.TokensTell (s.events ++ l.rows.map t.event))
    (hok : t.statements l = .ok transactions) : ∃ s', t.step s l = some s' ∧ Inv t s' := by
  obtain ⟨hvalid, htransactions⟩ := statements_ok hok
  obtain ⟨ht, hwidths, hordinals⟩ := t.validate_ok hvalid
  have hn := hclean.1.named ht
  have haccepts : ∀ row ∈ l.rows, t.accepts row = true := fun row hrow => (hclean.2 row hrow).2
  have hrun : ∃ db', runAll transactions.flatten s.db = some db' ∧ Inv t ⟨db', s.events ++ l.rows.map t.event⟩ := by
    rw [htransactions]
    cases l.path with
    | bulk =>
      simp only [List.flatten_singleton]
      exact bulk_run ht h hwidths hordinals htell hn haccepts
    | guarded => exact guarded_run ht hn haccepts h hwidths htell
  obtain ⟨db', hdb', h'⟩ := hrun
  refine ⟨_, ?_, h'⟩
  simp only [Target.step, hok]
  rw [hdb']
  rfl

theorem inv_inductive : (t.system.restrict t.Clean).Inductive (Inv t) where
  init s hs := by
    cases hs
    refine ⟨rfl, (fun e he => by cases he), (fun e he => by cases he), ?_⟩
    intro k _
    exact ⟨none, none, ⟨rfl, rfl, rfl⟩, rfl, rfl⟩
  step s l s' h hstep := by
    obtain ⟨hclean, htell, hstep⟩ := hstep
    have hsome : t.step s l = some s' := hstep
    cases hok : t.statements l with
    | error e => simp [Target.step, hok] at hsome
    | ok transactions =>
      obtain ⟨s'', hs'', h''⟩ := step_spec h hclean htell hok
      rw [hs''] at hsome
      cases hsome
      exact h''

theorem keysGiven_inductive :
    (t.system.restrict t.Clean).Inductive fun s => ∀ e ∈ s.events, Given (t.keyOf e.cells) where
  init s hs := by
    cases hs
    intro e he
    cases he
  step s l s' h hstep := by
    obtain ⟨hclean, -, hstep⟩ := hstep
    have hsome : t.step s l = some s' := hstep
    have hevents : s'.events = s.events ++ l.rows.map t.event := by
      rw [Target.step] at hsome
      split at hsome
      · cases hsome
      · obtain ⟨db, -, rfl⟩ := Option.map_eq_some_iff.1 hsome
        rfl
    rw [hevents]
    exact List.forall_mem_append.2 ⟨h, List.forall_mem_map.2 fun row hrow => (hclean.2 row hrow).1⟩

theorem Inv.finalState {s : St V} (h : Inv t s) (hgiven : ∀ e ∈ s.events, Given (t.keyOf e.cells)) :
    t.FinalState s := by
  intro k
  obtain ⟨live, tombstone, hslot, hsettled⟩ := h.slots k fun e he hk => hk ▸ hgiven e he
  rw [hslot.live]
  match t.latest s.events k, hsettled with
  | none, hsettled | some ⟨.upsert, token, cells⟩, hsettled
  | some ⟨.delete, token, cells⟩, hsettled => rw [hsettled.1]; rfl

end Runs

/-- **The final state.** If no row has a NULL in a business key, no column a name
twice or a reserved one and every literal is taken, every accepted batch is
executed, and the live table holds the rows of the latest events. -/
theorem final_state (t : Target V) (s : St V) (hs : (t.system.restrict t.Clean).Reachable s) :
    t.FinalState s ∧ ∀ l transactions, t.TokensTell (s.events ++ l.rows.map t.event) → t.Clean s l →
      t.statements l = .ok transactions → (t.step s l).isSome := by
  have hinv := inv_inductive.reachable s hs
  refine ⟨hinv.finalState (keysGiven_inductive.reachable s hs), ?_⟩
  intro l transactions htell hclean hok
  obtain ⟨s', hs', -⟩ := step_spec hinv hclean htell hok
  rw [hs']
  rfl

/-! ## A table with one key -/

def keyValueTable (dialect : CdcWarehouseDialect) : Target Text where
  dialect := dialect
  columns := [⟨['k'], ['I', 'N', 'T']⟩, ⟨['v'], ['I', 'N', 'T']⟩]
  businessKeyColumns := [['k']]
  evaluate literal _ :=
    if literal = ['N', 'a', 'N'] then none
    else if literal = ['N', 'U', 'L', 'L'] then some none
    else some (some literal)

theorem plainNames_keyValueTable (dialect : CdcWarehouseDialect) :
    (keyValueTable dialect).PlainNames where
  reserved := by
    have hnames : (keyValueTable dialect).names = [['k'], ['v']] := rfl
    rw [hnames]
    decide
  keys := List.nodup_singleton _

def keyValueRow (ordinal : Nat) (mutation : CdcApplyMutation) (position : Nat) (key value : CdcApplyValue) :
    CdcApplyRow where
  metadata := ⟨mutation, oneByte position, ordinal⟩
  values := [key, value]

/-- Three batches on different paths, the latest event first. -/
theorem final_state_reordered : ∃ s,
    ((keyValueTable .redshift).system.restrict (keyValueTable .redshift).Clean).Reachable s ∧
      (keyValueTable .redshift).FinalState s ∧
      s.db.live = {⟨[some ['1'], some ['7']], some (oneByte 3)⟩} := by
  let t := keyValueTable .redshift
  let labels : List Label :=
    [⟨.bulk, [keyValueRow 0 .upsert 3 (.signed 1) (.signed 7), keyValueRow 1 .upsert 1 (.signed 1) .null]⟩,
      ⟨.guarded, [keyValueRow 0 .delete 2 (.signed 1) .null]⟩,
      ⟨.bulk, [keyValueRow 0 .upsert 1 (.signed 1) .null, keyValueRow 1 .delete 5 (.signed 2) .null]⟩]
  have hrun : (exec (guarded (fun s (l : Label) => t.TokensTell (s.events ++ l.rows.map t.event)) t.step)
      .empty labels).any fun s => s.db.live = {⟨[some ['1'], some ['7']], some (oneByte 3)⟩} := by
    decide +kernel
  obtain ⟨s, hexec, hlive⟩ := (Option.any_eq_true ..).1 hrun
  have hclean : ∀ l ∈ labels, ∀ s, t.Clean s l := by
    intro l hl _
    have hall : ∀ l ∈ labels, ∀ row ∈ l.rows, Given (t.keyOf (t.cells row)) ∧ t.accepts row = true := by
      decide +kernel
    exact ⟨plainNames_keyValueTable .redshift, hall l hl⟩
  have hreach : (t.system.restrict t.Clean).Reachable s :=
    ⟨.empty, labels, rfl, (restrict_run_of_exec hexec).restrict hclean⟩
  exact ⟨s, hreach, (final_state t s hreach).1, of_decide_eq_true hlive⟩

/-- An upsert with a NULL key is replayed, then the key is deleted: two rows
are left. -/
theorem null_key_duplicated : ∃ s,
    (keyValueTable .snowflake).system.Reachable s ∧ ¬ (keyValueTable .snowflake).FinalState s := by
  let labels : List Label :=
    [⟨.bulk, [keyValueRow 0 .upsert 1 .null (.signed 7)]⟩,
      ⟨.bulk, [keyValueRow 0 .upsert 1 .null (.signed 7)]⟩,
      ⟨.guarded, [keyValueRow 0 .delete 2 .null .null]⟩]
  obtain ⟨s, hreach, hcard⟩ : ∃ s, (keyValueTable .snowflake).system.Reachable s ∧
      (atKey (fun r => (keyValueTable .snowflake).keyOf r.cells) [none] s.db.live).card = 2 :=
    exists_restrict_reachable labels rfl (by decide +kernel)
  refine ⟨s, hreach, ?_⟩
  intro hfinal
  rw [hfinal [none]] at hcard
  split at hcard
  · simp at hcard
  · split at hcard <;> simp at hcard

end Skippr.L10
