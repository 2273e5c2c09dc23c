import Skippr.L10Warehouse.CdcApply

/-!
# The generated statements, one key at a time

Every apply statement relates rows of one business key only, so what it does is
given by what it does to the rows of a key, at most one in each table (`Slot`,
`Does`). The three programs, MERGE dialects, Redshift and guarded, do the same.

Keys with a NULL match no row, so nothing is said of them when there is a row to
apply.
-/
namespace Skippr.L10

open Skippr.Sql Skippr.L6.Cdc

variable {V : Type} [DecidableEq V]

/-! ## Keys -/

theorem holds_keyMatch (a b : List (Option V)) :
    (keyMatch a b).Holds ↔ a = b ∧ ∀ c ∈ a, c ≠ none := by
  induction a generalizing b with
  | nil => cases b <;> simp [keyMatch, Truth.Holds]
  | cons x a ih =>
    cases b with
    | nil => simp [keyMatch, Truth.Holds]
    | cons y b =>
      rw [keyMatch, Truth.holds_and, holds_equals, ih, List.forall_mem_cons]
      constructor
      · intro h
        obtain ⟨⟨v, rfl, rfl⟩, rfl, hsome⟩ := h
        exact ⟨rfl, Option.some_ne_none v, hsome⟩
      · intro h
        obtain ⟨heq, hx, hsome⟩ := h
        cases heq
        obtain ⟨v, rfl⟩ := Option.ne_none_iff_exists'.1 hx
        exact ⟨⟨v, rfl, rfl⟩, rfl, hsome⟩

structure Target.Valid (t : Target V) : Prop where
  nodup : (t.columns.map (·.name)).Nodup
  keys : ∀ key ∈ t.businessKeyColumns, key ∈ t.columns.map (·.name)

namespace Target

section Assign
omit [DecidableEq V]
variable {t : Target V} (ht : t.Valid) {a b : List (Option V)}
include ht

theorem column_of_key {key : Text} (hkey : key ∈ t.businessKeyColumns) :
    ∃ column, t.columns[t.columns.findIdx (·.name = key)]? = some column ∧ column.name = key := by
  obtain ⟨column, hmem, hname⟩ := List.mem_map.1 (ht.keys key hkey)
  have hlt : t.columns.findIdx (·.name = key) < t.columns.length :=
    List.findIdx_lt_length_of_exists ⟨column, hmem, by simpa using hname⟩
  have hfound := List.findIdx_getElem (w := hlt)
  exact ⟨_, List.getElem?_eq_getElem hlt, by simpa using hfound⟩

omit ht in
theorem getElem?_assign {i : Nat} {column : CdcApplyColumn} {x y : Option V}
    (hcolumn : t.columns[i]? = some column) (hx : a[i]? = some x) (hy : b[i]? = some y) :
    (t.assign a b)[i]? = some (if column.name ∈ t.businessKeyColumns then x else y) := by
  have hzip : (a.zip b)[i]? = some (x, y) := List.getElem?_zip_eq_some.2 ⟨hx, hy⟩
  rw [assign, List.getElem?_zipWith, hcolumn, hzip]

theorem keyOf_assign (hkey : t.keyOf a = t.keyOf b) (hsome : ∀ c ∈ t.keyOf a, c ≠ none) :
    t.keyOf (t.assign a b) = t.keyOf a := by
  have hcell : ∀ (cells : List (Option V)) {i : Nat}, (cells[i]?).join ≠ none →
      ∃ x, cells[i]? = some x := by
    intro cells i h
    cases hc : cells[i]? with
    | none => simp [hc] at h
    | some x => exact ⟨x, rfl⟩
  refine List.map_congr_left ?_
  intro i hi
  have hsame : (a[i]?).join = (b[i]?).join := List.map_inj_left.1 hkey i hi
  have hgiven : (a[i]?).join ≠ none := hsome _ (List.mem_map_of_mem hi)
  obtain ⟨x, hx⟩ := hcell a hgiven
  obtain ⟨y, hy⟩ := hcell b (hsame ▸ hgiven)
  obtain ⟨key, hmem, rfl⟩ := List.mem_map.1 hi
  obtain ⟨column, hcolumn, hname⟩ := column_of_key ht hmem
  rw [getElem?_assign hcolumn hx hy, if_pos (hname.symm ▸ hmem), hx]

theorem findIdx_name {i : Nat} {column : CdcApplyColumn} (hcolumn : t.columns[i]? = some column)
    (hkey : column.name ∈ t.businessKeyColumns) : t.columns.findIdx (·.name = column.name) = i := by
  obtain ⟨column', hfound, hname⟩ := column_of_key ht hkey
  have hsame : (t.columns.map (·.name))[t.columns.findIdx (·.name = column.name)]? =
      (t.columns.map (·.name))[i]? := by
    rw [List.getElem?_map, List.getElem?_map, hcolumn, hfound]
    exact congrArg some hname
  have hlt : t.columns.findIdx (·.name = column.name) < (t.columns.map (·.name)).length := by
    rw [List.length_map]
    exact (List.getElem?_eq_some_iff.1 hfound).1
  exact (List.getElem?_inj hlt ht.nodup).1 hsame

theorem assign_eq (ha : a.length = t.columns.length) (hb : b.length = t.columns.length)
    (hkey : t.keyOf a = t.keyOf b) : t.assign a b = b := by
  apply List.ext_getElem?
  intro i
  by_cases hi : i < t.columns.length
  · have hcolumn := List.getElem?_eq_getElem hi
    have hx := List.getElem?_eq_getElem (ha.symm ▸ hi)
    have hy := List.getElem?_eq_getElem (hb.symm ▸ hi)
    rw [getElem?_assign hcolumn hx hy, hy]
    split
    · rename_i hmem
      -- The names differ, so the key's cells are those of this column.
      have hplace := List.map_inj_left.1 hkey _ (List.mem_map_of_mem hmem)
      rw [findIdx_name ht hcolumn hmem, hx, hy] at hplace
      exact congrArg some hplace
    · rfl
  · have hlength : (t.assign a b).length ≤ i := by
      rw [assign, List.length_zipWith]
      omega
    rw [List.getElem?_eq_none hlength, List.getElem?_eq_none (by omega)]

end Assign

end Target

/-! ## The rows of one key -/

structure Slot (V : Type) where
  live : Option (LiveRow V)
  tombstone : Option (Tombstone V)
  winner : Option (StageRow V)

structure Target.HasSlot (t : Target V) (k : List (Option V)) (db : Db V) (slot : Slot V) : Prop where
  live : atKey (fun r => t.keyOf r.cells) k db.live = ofOption slot.live
  tombstone : atKey Tombstone.key k db.tombstones = ofOption slot.tombstone
  winner : atKey (fun s => t.keyOf s.cells) k db.winners = ofOption slot.winner

def Slot.buries (slot : Slot V) (w : StageRow V) : Bool := slot.tombstone.any fun b => w.token ≤ b.token

def Given (k : List (Option V)) : Prop := ∀ c ∈ k, c ≠ none

instance (k : List (Option V)) : Decidable (Given k) := inferInstanceAs (Decidable (∀ c ∈ k, c ≠ none))

namespace Target

section Keys
variable {t : Target V} {k : List (Option V)} {w : StageRow V} {db : Db V} {slot : Slot V}

theorem holds_notBuried (hk : Given k) (h : t.HasSlot k db slot) (hw : t.keyOf w.cells = k) :
    (t.notBuried db.tombstones w).Holds ↔ slot.buries w = false := by
  have hkey : ∀ b, ((t.tombstoneMatch b w).and (atLeast (some b.token) (some w.token))).Holds →
      b.key = k := by
    intro b hb
    exact ((holds_keyMatch _ _).1 ((Truth.holds_and _ _).1 hb).1).1.trans hw
  rw [notBuried, ← notExists_atKey hkey, h.tombstone, notExists_ofOption, Slot.buries]
  cases hb : slot.tombstone with
  | none => simp
  | some b =>
    have hbk := key_of_atKey (h.tombstone.trans (congrArg ofOption hb))
    have hmatch : (t.tombstoneMatch b w).Holds := (holds_keyMatch _ _).2 ⟨hbk.trans hw.symm, hbk ▸ hk⟩
    simp [hmatch, holds_atLeast]

omit [DecidableEq V] in
@[simp] theorem holds_hasMutation (code : Nat) : (hasMutation code w).Holds ↔ w.mutation = code := by
  simp [hasMutation, holds_equals, eq_comm]

end Keys

/-! ## What a statement does to a key -/

def OneWinner (t : Target V) (db : Db V) : Prop :=
  ∀ k, (atKey (fun s => t.keyOf s.cells) k db.winners).card ≤ 1

/-- The row of a key that a program applies, given the rows of the key. -/
abbrev Source (V : Type) := List (Option V) → Slot V → Option (StageRow V)

def winner : Source V := fun _ slot => slot.winner

def rowAt (t : Target V) (row : StageRow V) : Source V := fun k _ =>
  if t.keyOf row.cells = k then some row else none

/-- The statement succeeds and changes the rows of a key as `f`, if there is no
row to apply or no NULL in the key. -/
def Does (t : Target V) (w : Source V) (statement : Statement V) (f : List (Option V) → Slot V → Slot V) :
    Prop :=
  ∀ db, t.OneWinner db → ∃ db', statement db = some db' ∧ db'.winners = db.winners ∧
    ∀ k slot, (∀ s ∈ w k slot, Given k) → t.HasSlot k db slot → t.HasSlot k db' (f k slot)

section Run
variable {t : Target V} {w : Source V}

theorem Does.nil : t.Does w (runAll []) fun _ slot => slot := by
  intro db _
  exact ⟨db, rfl, rfl, fun _ _ _ h => h⟩

theorem Does.cons {statement : Statement V} {statements : List (Statement V)}
    {f g : List (Option V) → Slot V → Slot V} (hf : t.Does w statement f) (hg : t.Does w (runAll statements) g)
    (hw : ∀ k slot, w k (f k slot) = w k slot) :
    t.Does w (runAll (statement :: statements)) fun k slot => g k (f k slot) := by
  intro db hone
  obtain ⟨db', hrun, hwinners, hslot⟩ := hf db hone
  have hone' : t.OneWinner db' := by
    intro k
    rw [hwinners]
    exact hone k
  obtain ⟨db'', hrun', hwinners', hslot'⟩ := hg db' hone'
  refine ⟨db'', ?_, hwinners'.trans hwinners, ?_⟩
  · rw [runAll, List.foldlM_cons, hrun]
    exact hrun'
  · intro k slot hk h
    exact hslot' k _ (hw k slot ▸ hk) (hslot k slot hk h)

theorem Does.of_eq {statement statement' : Statement V} {f : List (Option V) → Slot V → Slot V}
    (h : t.Does w statement f) (heq : ∀ db, t.OneWinner db → statement' db = statement db) :
    t.Does w statement' f := by
  intro db hone
  rw [heq db hone]
  exact h db hone

theorem Does.congr {statement : Statement V} {f g : List (Option V) → Slot V → Slot V}
    (h : t.Does w statement f) (hfg : ∀ k slot, f k slot = g k slot) : t.Does w statement g := by
  have heq : f = g := funext fun k => funext fun slot => hfg k slot
  exact heq ▸ h

end Run

/-! ### Merges -/

section Effects
variable (t : Target V)

def raised (w : Option (StageRow V)) (slot : Slot V) : Slot V :=
  { slot with live := t.upsertMerge.one (w.filter fun w => !slot.buries w) slot.live }

def lowered (w : Option (StageRow V)) (slot : Slot V) : Slot V :=
  { slot with live := t.deleteMerge.one w slot.live }

def advanced (w : Option (StageRow V)) (slot : Slot V) : Slot V :=
  { slot with tombstone := t.tombstoneMerge.one w slot.tombstone }

def cleared (w : Option (StageRow V)) (slot : Slot V) : Slot V :=
  { slot with tombstone := t.clearMerge.one w slot.tombstone }

end Effects

section Sources
variable {t : Target V} {source : Db V → Table (StageRow V)} {w w' : Source V}

/-- The rows a statement reads have at most one row of a key: `w'`, if it is the
one the program applies, `w`. -/
structure Reads (t : Target V) (w : Source V) (source : Db V → Table (StageRow V)) (w' : Source V) : Prop where
  one : ∀ db, t.OneWinner db → ∀ k, (atKey (fun s => t.keyOf s.cells) k (source db)).card ≤ 1
  slot : ∀ db k slot, (∀ s ∈ w k slot, Given k) → t.HasSlot k db slot →
    atKey (fun s => t.keyOf s.cells) k (source db) = ofOption (w' k slot)
  sub : ∀ k slot, ∀ s ∈ w' k slot, s ∈ w k slot

theorem Reads.winners : t.Reads winner Db.winners winner where
  one _ hone k := hone k
  slot _ _ _ _ h := h.winner
  sub _ _ _ h := h

theorem Reads.row (row : StageRow V) : t.Reads (t.rowAt row) (fun _ => {row}) (t.rowAt row) where
  one _ _ _ := (Multiset.card_le_card (Multiset.filter_le _ _)).trans (Multiset.card_singleton row).le
  slot _ k _ _ _ := by
    rw [atKey, Multiset.filter_singleton, rowAt]
    split <;> rfl
  sub _ _ _ h := h

theorem Reads.mutation (code : Nat) (h : t.Reads w source w') :
    t.Reads w (fun db => select (hasMutation code) (source db))
      fun k slot => (w' k slot).filter fun s => s.mutation = code where
  one db hone := card_select_atKey (h.one db hone) _
  slot db k slot hk hslot := by
    rw [select_ofKey (h.slot db k slot hk hslot)]
    simp only [holds_hasMutation]
  sub k slot s hs := h.sub k slot s (Option.mem_filter_iff.1 hs).1

theorem Reads.notBuried (h : t.Reads w source w') :
    t.Reads w (fun db => select (t.notBuried db.tombstones) (source db))
      fun k slot => (w' k slot).filter fun s => !slot.buries s where
  one db hone := card_select_atKey (h.one db hone) _
  slot db k slot hk hslot := by
    have hsource := h.slot db k slot hk hslot
    rw [select_ofKey hsource]
    congr 1
    cases hw : w' k slot with
    | none => rfl
    | some s =>
      have hkey := key_of_atKey (hsource.trans (congrArg ofOption hw))
      have hiff := holds_notBuried (hk s (h.sub k slot s hw)) hslot hkey
      rw [Option.filter_some, Option.filter_some]
      simp [hiff]
  sub k slot s hs := h.sub k slot s (Option.mem_filter_iff.1 hs).1

end Sources

/-! ### One table at a time -/

/-- One of the two tables that statements change, and its row in a slot. -/
structure Part (t : Target V) (T : Type) where
  key : T → List (Option V)
  on : T → StageRow V → Truth
  rows : Db V → Table T
  set : Db V → Table T → Db V
  row : Slot V → Option T
  put : Slot V → Option T → Slot V
  holds_on : ∀ r s, (on r s).Holds ↔ key r = t.keyOf s.cells ∧ Given (key r)
  winners_set : ∀ db table, (set db table).winners = db.winners
  get : ∀ {k db slot}, t.HasSlot k db slot → atKey key k (rows db) = ofOption (row slot)
  hasSlot : ∀ {k db slot table o}, t.HasSlot k db slot → atKey key k table = ofOption o →
    t.HasSlot k (set db table) (put slot o)

def liveRows (t : Target V) : t.Part (LiveRow V) where
  key r := t.keyOf r.cells
  on := t.liveMatch
  rows := Db.live
  set db live := { db with live := live }
  row := Slot.live
  put slot row := { slot with live := row }
  holds_on _ _ := holds_keyMatch _ _
  winners_set _ _ := rfl
  get h := h.live
  hasSlot h hrow := ⟨hrow, h.tombstone, h.winner⟩

def tombstoneRows (t : Target V) : t.Part (Tombstone V) where
  key := Tombstone.key
  on := t.tombstoneMatch
  rows := Db.tombstones
  set db tombstones := { db with tombstones := tombstones }
  row := Slot.tombstone
  put slot row := { slot with tombstone := row }
  holds_on _ _ := holds_keyMatch _ _
  winners_set _ _ := rfl
  get h := h.tombstone
  hasSlot h hrow := ⟨h.live, hrow, h.winner⟩

/-- The merge matches rows of one key and leaves rows their key. -/
structure Part.Fits {t : Target V} {T : Type} (p : t.Part T) (m : Merge T (StageRow V)) : Prop where
  on : m.on = p.on
  change : ∀ r s r', (p.on r s).Holds → m.change r s = some r' → p.key r' = p.key r
  insert : ∀ row ∈ m.insert, ∀ s, p.key (row s) = t.keyOf s.cells

section Parts
variable {t : Target V} {T : Type} {p : t.Part T} {m : Merge T (StageRow V)}
  {source : Db V → Table (StageRow V)} {w w' : Source V}

theorem Part.Fits.updates (h : p.Fits m) : p.Fits m.updates :=
  ⟨h.on, h.change, fun row hrow => by cases hrow⟩

theorem Part.Fits.inserts (h : p.Fits m) : p.Fits m.inserts := ⟨h.on, h.change, h.insert⟩

theorem Part.exec_isSome (h : p.Fits m) (hreads : t.Reads w source w') {db : Db V} (hone : t.OneWinner db) :
    (m.exec (source db) (p.rows db)).isSome :=
  Merge.exec_isSome (fun r s hrs => ((p.holds_on r s).1 (h.on ▸ hrs)).1) (hreads.one db hone) (p.rows db)

theorem Part.does_merge (h : p.Fits m) (hreads : t.Reads w source w') :
    t.Does w (fun db => (m.exec (source db) (p.rows db)).map (p.set db))
      fun k slot => p.put slot (m.one (w' k slot) (p.row slot)) := by
  intro db hone
  obtain ⟨table, hexec⟩ := Option.isSome_iff_exists.1 (exec_isSome h hreads hone)
  refine ⟨_, congrArg (Option.map _) hexec, p.winners_set .., ?_⟩
  intro k slot hk hslot
  have hsource := hreads.slot db k slot hk hslot
  refine p.hasSlot hslot (Merge.exec_ofKey hsource (p.get hslot) ?_ ?_ h.insert hexec ?_)
  · intro r s hrs
    exact ((p.holds_on r s).1 (h.on ▸ hrs)).1
  · intro r s r' hrs
    exact h.change r s r' (h.on ▸ hrs)
  · intro s hs r hr
    have hrk := key_of_atKey ((p.get hslot).trans (congrArg ofOption hr))
    have hsk := key_of_atKey (hsource.trans (congrArg ofOption hs))
    rw [h.on]
    exact (p.holds_on r s).2 ⟨hrk.trans hsk.symm, hrk ▸ hk s (hreads.sub k slot s hs)⟩

theorem fits_upsertMerge (ht : t.Valid) : t.liveRows.Fits t.upsertMerge where
  on := rfl
  change := by
    intro r s r' hrs hr'
    cases hr'
    obtain ⟨hkey, hsome⟩ := (holds_keyMatch _ _).1 hrs
    exact keyOf_assign ht hkey hsome
  insert := by
    intro row hrow s
    cases hrow
    rfl

theorem fits_deleteMerge : t.liveRows.Fits t.deleteMerge :=
  ⟨rfl, fun _ _ _ _ hr' => (by cases hr'), fun _ hrow => (by cases hrow)⟩

theorem fits_tombstoneMerge : t.tombstoneRows.Fits t.tombstoneMerge where
  on := rfl
  change := by
    intro b s b' _ hb'
    cases hb'
    rfl
  insert := by
    intro row hrow s
    cases hrow
    rfl

theorem fits_clearMerge : t.tombstoneRows.Fits t.clearMerge :=
  ⟨rfl, fun _ _ _ _ hb' => (by cases hb'), fun _ hrow => (by cases hrow)⟩

/-! ### Redshift and single rows -/

def riser (slot : Slot V) : Option (StageRow V) :=
  (slot.winner.filter fun s => s.mutation = 0).filter fun s => !slot.buries s

theorem reads_riser : t.Reads winner
    (fun db => select (fun s => (hasMutation 0 s).and (t.notBuried db.tombstones s)) db.winners)
    fun _ slot => riser slot := by
  have h := (Reads.winners.mutation (t := t) 0).notBuried
  simp only [select_select] at h
  exact h

section Selected
variable {pred : Db V → StageRow V → Truth} (h : p.Fits m)
  (hreads : t.Reads w (fun db => select (pred db) (source db)) w')
include h hreads

theorem Part.does_update {cond : Db V → T → StageRow V → Truth}
    (hcond : ∀ db r s, (cond db r s).Holds ↔ (pred db s).Holds ∧ (m.on r s).Holds ∧ (m.matched r s).Holds) :
    t.Does w (fun db => (updateFrom (cond db) m.change (source db) (p.rows db)).map (p.set db))
      fun k slot => p.put slot (m.updates.one (w' k slot) (p.row slot)) :=
  (does_merge h.updates hreads).of_eq fun db _ => by rw [Merge.exec_updates (hcond db)]

theorem Part.does_insert {row : StageRow V → T} (hrow : m.insert = some row) {cond : Db V → StageRow V → Truth}
    (hcond : ∀ db s, (cond db s).Holds ↔
      (pred db s).Holds ∧ (notExists (fun r => m.on r s) (p.rows db)).Holds) :
    t.Does w (fun db => some (p.set db (insertSelect (cond db) row (source db) (p.rows db))))
      fun k slot => p.put slot (m.inserts.one (w' k slot) (p.row slot)) :=
  (does_merge h.inserts hreads).of_eq fun db _ => by rw [Merge.exec_inserts hrow (hcond db), Option.map_some]

theorem Part.does_delete (hchange : ∀ r s, m.change r s = none) (hinsert : m.insert = none)
    {cond : Db V → T → StageRow V → Truth}
    (hcond : ∀ db r s, (cond db r s).Holds ↔ (pred db s).Holds ∧ (m.on r s).Holds ∧ (m.matched r s).Holds) :
    t.Does w (fun db => some (p.set db (deleteUsing (cond db) (source db) (p.rows db))))
      fun k slot => p.put slot (m.one (w' k slot) (p.row slot)) :=
  (does_merge h hreads).of_eq fun db hone => by
    rw [Merge.exec_deletes hchange hinsert (hcond db) (exec_isSome h hreads hone), Option.map_some]

end Selected

theorem does_updateUpserts (ht : t.Valid) : t.Does winner t.updateUpserts fun _ slot =>
    { slot with live := t.upsertMerge.updates.one (riser slot) slot.live } := by
  refine Part.does_update (fits_upsertMerge ht) reads_riser fun db r s => ?_
  simp only [Truth.holds_and, upsertMerge]
  tauto

theorem does_insertUpserts (ht : t.Valid) : t.Does winner t.insertUpserts fun _ slot =>
    { slot with live := t.upsertMerge.inserts.one (riser slot) slot.live } := by
  refine Part.does_insert (fits_upsertMerge ht) reads_riser rfl fun db s => ?_
  simp only [Truth.holds_and, upsertMerge, liveRows]
  tauto

theorem does_deleteTargets :
    t.Does winner t.deleteTargets fun _ slot => t.lowered (slot.winner.filter fun s => s.mutation = 1) slot :=
  Part.does_delete fits_deleteMerge (Reads.winners.mutation 1) (fun _ _ => rfl) rfl fun db r s => by
    simp only [Truth.holds_and, deleteMerge]

theorem does_updateTombstones : t.Does winner t.updateTombstones fun _ slot =>
    { slot with tombstone :=
        t.tombstoneMerge.updates.one (slot.winner.filter fun s => s.mutation = 1) slot.tombstone } :=
  Part.does_update fits_tombstoneMerge (Reads.winners.mutation 1) fun db b s => by
    simp only [Truth.holds_and, tombstoneMerge]

theorem does_insertTombstones : t.Does winner t.insertTombstones fun _ slot =>
    { slot with tombstone :=
        t.tombstoneMerge.inserts.one (slot.winner.filter fun s => s.mutation = 1) slot.tombstone } :=
  Part.does_insert fits_tombstoneMerge (Reads.winners.mutation 1) rfl fun db s => by
    simp only [Truth.holds_and, tombstoneMerge, tombstoneRows]

theorem does_clearTombstones :
    t.Does winner t.clearTombstones fun _ slot => t.cleared (slot.winner.filter fun s => s.mutation = 0) slot :=
  Part.does_delete fits_clearMerge (Reads.winners.mutation 0) (fun _ _ => rfl) rfl fun db b s => by
    simp only [Truth.holds_and, clearMerge]

theorem Part.does_deleteRow (h : p.Fits m) (hchange : ∀ r s, m.change r s = none) (hinsert : m.insert = none)
    (row : StageRow V) :
    t.Does (t.rowAt row) (fun db => some (p.set db (deleteWhere (fun r =>
        (m.on r row).and (m.matched r row)) (p.rows db))))
      fun k slot => p.put slot (m.one (t.rowAt row k slot) (p.row slot)) := by
  have hreads : t.Reads (t.rowAt row) (fun _ => select (fun _ => .yes) {row}) (t.rowAt row) := by
    have hall : select (fun _ => Truth.yes) {row} = {row} :=
      Multiset.filter_eq_self.2 fun _ _ => rfl
    rw [hall]
    exact Reads.row row
  have hdoes := does_delete h hreads hchange hinsert (fun db r s => (by
    rw [← Truth.holds_and]
    exact (and_iff_right rfl).symm))
  simp only [← deleteWhere_eq] at hdoes
  exact hdoes

end Parts

/-! ### Programs -/

def applied (t : Target V) (w : Option (StageRow V)) (slot : Slot V) : Slot V :=
  t.cleared (w.filter fun s => s.mutation = 0) (t.advanced (w.filter fun s => s.mutation = 1)
    (t.lowered (w.filter fun s => s.mutation = 1) (t.raised (w.filter fun s => s.mutation = 0) slot)))

structure Named (t : Target V) : Prop where
  stage : t.stageNamed = true
  winners : t.winnersNamed = true
  live : t.liveNamed = true
  tombstones : t.tombstonesNamed = true

omit [DecidableEq V] in
theorem checked_eq {ok : Bool} (h : ok = true) (statement : Statement V) :
    checked ok statement = statement := by
  subst h
  rfl

section Programs
variable {t : Target V} (ht : t.Valid) (hn : t.Named)

include hn

include ht in
theorem does_redshift (hdialect : t.dialect = .redshift) :
    t.Does winner (runAll t.applyStatements) fun _ slot => t.applied slot.winner slot := by
  have hclear := (does_clearTombstones (t := t)).cons Does.nil fun _ _ => rfl
  have hinsert := does_insertTombstones.cons hclear fun _ _ => rfl
  have hupdate := does_updateTombstones.cons hinsert fun _ _ => rfl
  have hdelete := does_deleteTargets.cons hupdate fun _ _ => rfl
  have hrun := (does_updateUpserts ht).cons ((does_insertUpserts ht).cons hdelete fun _ _ => rfl) fun _ _ => rfl
  simp only [applyStatements, hdialect, checked_eq hn.live, checked_eq hn.tombstones]
  refine hrun.congr ?_
  intro k slot
  simp only [applied, cleared, advanced, lowered, raised]
  rw [← Merge.one_inserts_updates (m := t.upsertMerge) (fun _ _ => rfl),
    ← Merge.one_inserts_updates (m := t.tombstoneMerge) (fun _ _ => rfl)]
  rfl

include ht in
theorem does_merges (hdialect : t.dialect ≠ .redshift) :
    t.Does winner (runAll t.applyStatements) fun _ slot => t.applied slot.winner slot := by
  have hstatements : t.applyStatements =
      [t.applyUpserts, t.applyDeletes, t.applyTombstones, t.clearStaleTombstones] := by
    simp only [applyStatements, checked_eq hn.live, checked_eq hn.tombstones]
  have hupserts : t.Does winner t.applyUpserts fun _ slot =>
      t.raised (slot.winner.filter fun s => s.mutation = 0) slot :=
    Part.does_merge (fits_upsertMerge ht) reads_riser
  have hdeletes : t.Does winner t.applyDeletes _ :=
    Part.does_merge fits_deleteMerge (Reads.winners.mutation 1)
  have htombstones : t.Does winner t.applyTombstones _ :=
    Part.does_merge fits_tombstoneMerge (Reads.winners.mutation 1)
  have hclear : t.Does winner t.clearStaleTombstones _ :=
    Part.does_merge fits_clearMerge (Reads.winners.mutation 0)
  have hrest := htombstones.cons (hclear.cons Does.nil fun _ _ => rfl) fun _ _ => rfl
  rw [hstatements]
  exact hupserts.cons (hdeletes.cons hrest fun _ _ => rfl) fun _ _ => rfl

include ht in
/-- **The bulk path.** Every dialect does the same to a key. -/
theorem does_applyStatements :
    t.Does winner (runAll t.applyStatements) fun _ slot => t.applied slot.winner slot := by
  by_cases hdialect : t.dialect = .redshift
  · exact does_redshift ht hn hdialect
  · exact does_merges ht hn hdialect

include ht in
/-- **The guarded path, upserts.** -/
theorem does_upsertIfNewer {row : StageRow V} (hrow : row.mutation = 0) :
    t.Does (t.rowAt row) (runAll (t.upsertIfNewer row)) fun k slot => t.applied (t.rowAt row k slot) slot := by
  have hclear := (Part.does_deleteRow (fits_clearMerge (t := t)) (fun _ _ => rfl) rfl row).cons Does.nil
    fun _ _ => rfl
  have hrun := (Part.does_merge (fits_upsertMerge ht) (Reads.row row).notBuried).cons hclear fun _ _ => rfl
  simp only [upsertIfNewer, checked_eq hn.live]
  refine hrun.congr ?_
  intro k slot
  dsimp only [applied, rowAt]
  split
  · simp only [Option.filter_some, hrow]
    rfl
  · rfl

/-- **The guarded path, deletes.** -/
theorem does_deleteIfNewer {row : StageRow V} (hrow : row.mutation = 1) :
    t.Does (t.rowAt row) (runAll (t.deleteIfNewer row)) fun k slot => t.applied (t.rowAt row k slot) slot := by
  have hdelete := Part.does_deleteRow (fits_deleteMerge (t := t)) (fun _ _ => rfl) rfl row
  have hmerge := (Part.does_merge (fits_tombstoneMerge (t := t)) (Reads.row row)).cons Does.nil fun _ _ => rfl
  simp only [deleteIfNewer, checked_eq hn.tombstones]
  refine (hdelete.cons hmerge fun _ _ => rfl).congr ?_
  intro k slot
  dsimp only [applied, rowAt]
  split
  · simp only [Option.filter_some, hrow]
    rfl
  · rfl

end Programs

end Target

end Skippr.L10
