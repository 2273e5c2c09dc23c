import Skippr.L8Stream.StreamState

/-!
# Measures against the rows they are taken over

A history inserts entities, updates them and deletes them; an entity is known by
its columns that are neither key fields nor summed. `apply_events` sees the
history in batches and should leave, under every key, the sum (or the count) over
the current rows of the entities with that key.

It remembers one row per key, not one per entity, so an update or a delete takes
back what the last row under the entity's key counted. That is the entity's own
row as long as no other entity has touched the key since (`Undisturbed`).
-/
namespace Skippr.L8.Stream

open Skippr.L6.Cdc (MutationKind)

/-! ## Histories -/

structure Event where
  cells : List (Text × Cell)
  info : WalRowMeta
deriving DecidableEq, Repr

def Event.row (e : Event) : Row := exactRow e.cells

/-- `array_value` reads every column as it is. -/
def Event.Readable (e : Event) : Prop := ∀ c ∈ e.cells, c.2.readable = true

instance (e : Event) : Decidable e.Readable := List.decidableBAll _ _

abbrev Entity := Row

structure Entities where
  /-- the current row of each live entity -/
  live : Map Entity Row
  /-- the entities inserted so far -/
  seen : List Entity
  /-- the entity whose row was last put under a key, unless it has left since -/
  owner : Map Text Entity

def Entities.none : Entities := ⟨∅, [], ∅⟩

section History
variable (agg : TransformAggregate)

def Entities.leave (g : Entities) (x : Entity) : Map Text Entity :=
  match Map.get g.live x with
  | some old => g.owner.erase (encodeKey agg.keyFields old)
  | .none => g.owner

def track (g : Entities) (e : Event) : Entities :=
  let x := leftover agg e.row
  let key := encodeKey agg.keyFields e.row
  match e.info.mutation with
  | .insert | .snapshot => ⟨g.live.insert x e.row, x :: g.seen, g.owner.insert key x⟩
  | .update => ⟨g.live.insert x e.row, g.seen, (g.leave agg x).insert key x⟩
  | .delete => ⟨g.live.erase x, g.seen, (g.leave agg x).erase key⟩

/-- An entity is inserted once, and updated or deleted while it is live. -/
def Allowed (g : Entities) (e : Event) : Prop :=
  match e.info.mutation with
  | .insert | .snapshot => leftover agg e.row ∉ g.seen
  | .update | .delete => (Map.get g.live (leftover agg e.row)).isSome

/-- An entity that is updated or deleted is the last one to have touched the
key of its current row. -/
def Undisturbed (g : Entities) (e : Event) : Prop :=
  match e.info.mutation with
  | .insert | .snapshot => True
  | .update | .delete => ∀ old, Map.get g.live (leftover agg e.row) = some old →
      Map.get g.owner (encodeKey agg.keyFields old) = some (leftover agg e.row)

/-- A condition met by every event of a history, when its turn comes. -/
def Along (ok : Entities → Event → Prop) : Entities → List Event → Prop
  | _, [] => True
  | g, e :: es => ok g e ∧ Along ok (track agg g e) es

end History

def value (parse : Text → Int) (m : AggregateMeasure) (row : Row) : Int :=
  if m.count.isSome then 1 else jsonF64 parse (column row (m.sum.getD []))

def valueAt (parse : Text → Int) (agg : TransformAggregate) (key : Text) (m : AggregateMeasure)
    (row : Row) : Int :=
  if encodeKey agg.keyFields row = key then value parse m row else 0

/-- The sum, or the count, over the current rows of the live entities whose key
encodes to `key`. -/
def total (parse : Text → Int) (agg : TransformAggregate) (key : Text) (m : AggregateMeasure)
    (live : Map Entity Row) : Int :=
  Map.sum (valueAt parse agg key m) live

structure Call where
  cursor : WalCursor
  events : List Event
  startRow : Nat

def Call.history (c : Call) : List Event := c.events.drop c.startRow

def applyCall (st : StreamState) (agg : TransformAggregate) (store : Store) (c : Call) :
    Except StreamError Store :=
  (st.applyEvents agg store c.cursor (c.events.map fun e => rowValues e.cells)
    (some (c.events.map (·.info))) c.startRow).map Prod.snd

def applyCalls (st : StreamState) (agg : TransformAggregate) (store : Store) (calls : List Call) :
    Except StreamError Store :=
  calls.foldlM (applyCall st agg) store

structure Fresh (st : StreamState) (agg : TransformAggregate) (store : Store) : Prop where
  measures : ∀ key, Map.get store.measures (st.stateKey agg.id key) = none
  dedup : ∀ eventId, Map.get store.dedup (st.dedupKey agg.id eventId) = none

/-! ## The deltas of one row -/

section Deltas
variable (parse : Text → Int) (agg : TransformAggregate)

/-- `AggregateMeasure::validate`, as far as it is used: one of the two is set. -/
def AggregateMeasure.Set (m : AggregateMeasure) : Prop := m.sum.isSome ∨ m.count.isSome

theorem measureValue_eq_ok (m : AggregateMeasure) (row : Row) (v : Int) :
    measureValue parse m row = .ok v ↔ m.Set ∧ v = value parse m row := by
  obtain ⟨sum, count⟩ := m
  cases count with
  | some c =>
    simp only [measureValue, value, AggregateMeasure.Set, Option.isSome_some, if_true, or_true,
      true_and, Except.ok.injEq]
    exact eq_comm
  | none =>
    cases sum with
    | none => simp [measureValue, AggregateMeasure.Set]
    | some name => simp [measureValue, value, AggregateMeasure.Set, eq_comm]

variable (hset : ∀ name m, Map.get agg.measures name = some m → m.Set)
include hset

theorem addEach_ok (key : Text) {delta : AggregateMeasure → Except StreamError Int}
    {d : AggregateMeasure → Int} (hd : ∀ m v, delta m = .ok v ↔ m.Set ∧ v = d m)
    (measures : Map Text (Map Text Int)) :
    ∃ measures', addEach agg key delta measures = .ok measures' ∧
      ∀ k name m, Map.get agg.measures name = some m →
        gathered measures' k name = gathered measures k name + if k = key then d m else 0 := by
  have hds : agg.measures.toList.mapM (fun m => (delta m.2).map fun v => (m.1, v)) =
      .ok (agg.measures.toList.map fun m => (m.1, d m.2)) := by
    refine (mapM_eq_ok (P := fun m => m.2.Set) (g := fun m => (m.1, d m.2)) ?_ _).2 ⟨?_, rfl⟩
    · intro m b
      rw [map_eq_ok]
      constructor
      · intro h
        obtain ⟨v, hv, rfl⟩ := h
        obtain ⟨hm, rfl⟩ := (hd _ _).1 hv
        exact ⟨hm, rfl⟩
      · intro h
        exact ⟨d m.2, (hd _ _).2 ⟨h.1, rfl⟩, h.2⟩
    · intro m hm
      exact hset m.1 m.2 ((Map.mem_toList _ _ _).1 hm)
  refine ⟨_, by rw [addEach, hds]; rfl, ?_⟩
  intro k name m hm
  have hnodup : ((agg.measures.toList.map fun m => (m.1, d m.2)).map Prod.fst).Nodup := by
    rw [List.map_map]
    exact Map.nodup_toList agg.measures
  unfold gathered
  rw [Map.get_insert]
  split
  · rename_i hk
    subst hk
    have hmem : (name, d m) ∈ agg.measures.toList.map fun m => (m.1, d m.2) :=
      List.mem_map.2 ⟨(name, m), (Map.mem_toList _ _ _).2 hm, rfl⟩
    rw [Option.getD_some, Map.amount_bumps_of_mem _ hnodup hmem]
  · omega

theorem addDeltas_ok (key : Text) (row : Row) (sign : Int) (measures : Map Text (Map Text Int)) :
    ∃ measures', addDeltas parse agg key row sign measures = .ok measures' ∧
      ∀ k name m, Map.get agg.measures name = some m →
        gathered measures' k name =
          gathered measures k name + if k = key then sign * value parse m row else 0 := by
  refine addEach_ok agg hset key ?_ measures
  intro m v
  rw [map_eq_ok]
  constructor
  · intro h
    obtain ⟨w, hw, rfl⟩ := h
    obtain ⟨hm, rfl⟩ := (measureValue_eq_ok _ _ _ _).1 hw
    exact ⟨hm, rfl⟩
  · intro h
    exact ⟨value parse m row, (measureValue_eq_ok _ _ _ _).2 ⟨h.1, rfl⟩, h.2⟩

theorem addMeasureDelta_ok (key : Text) (old new : Row) (measures : Map Text (Map Text Int)) :
    ∃ measures', addMeasureDelta parse agg key old new measures = .ok measures' ∧
      ∀ k name m, Map.get agg.measures name = some m →
        gathered measures' k name = gathered measures k name +
          if k = key then value parse m new - value parse m old else 0 := by
  refine addEach_ok agg hset key ?_ measures
  intro m v
  rw [show ∀ x : Except StreamError Int, ∀ f : Int → Except StreamError Int,
    Except.bind x f = (x >>= f) from fun _ _ => rfl, bind_eq_ok]
  constructor
  · intro h
    obtain ⟨w, hw, hv⟩ := h
    obtain ⟨w', hw', rfl⟩ := map_eq_ok.1 hv
    obtain ⟨hm, rfl⟩ := (measureValue_eq_ok _ _ _ _).1 hw
    obtain ⟨-, rfl⟩ := (measureValue_eq_ok _ _ _ _).1 hw'
    exact ⟨hm, rfl⟩
  · intro h
    refine ⟨value parse m new, (measureValue_eq_ok _ _ _ _).2 ⟨h.1, rfl⟩, ?_⟩
    exact map_eq_ok.2 ⟨value parse m old, (measureValue_eq_ok _ _ _ _).2 ⟨h.1, rfl⟩, h.2⟩

end Deltas

/-! ## Remembered rows -/

def nameOf (x : Entity) : Text :=
  [unitSeparator].intercalate (x.map fun c => c.1 ++ '=' :: jsonKeyPart c.2)

variable {agg : TransformAggregate} {row : Row}

theorem entityIdentity_eq (h : leftover agg row ≠ []) :
    entityIdentity agg row = some (nameOf (leftover agg row)) := by
  unfold entityIdentity
  split
  · rename_i hnil
    exact absurd hnil h
  · rfl

theorem nonEmpty_some (h : row ≠ []) : nonEmpty (some row) = some row := by
  simp [nonEmpty, h]

theorem ne_nil_of_leftover (h : leftover agg row ≠ []) : row ≠ [] := by
  intro hnil
  subst hnil
  exact h rfl

section Remembered
variable (st : StreamState) (agg : TransformAggregate) (store : Store)

/-- The row of an entity is found under a key: in the batch, or in the store when
the batch has touched neither of the two. -/
def Remembered (p : Pending) (key name : Text) (row : Row) : Prop :=
  (Map.get p.entityIndex name = some key ∧ Map.get p.lastRows key = some row) ∨
    (Map.get p.entityIndex name = none ∧ Map.get p.lastRows key = none ∧
      Map.get store.entities (st.stateKey agg.id name) = some key ∧
      Map.get store.rows (st.stateKey agg.id key) = some row)

variable {st agg store}

theorem Remembered.frame {p p' : Pending} {key name : Text} {row : Row}
    (h : Remembered st agg store p key name row)
    (hindex : Map.get p'.entityIndex name = Map.get p.entityIndex name)
    (hrows : Map.get p'.lastRows key = Map.get p.lastRows key) :
    Remembered st agg store p' key name row := by
  unfold Remembered
  rw [hindex, hrows]
  exact h

theorem loadPreviousRow_of_remembered {p : Pending} {key newKey : Text} {row newRow : Row}
    (hx : leftover agg newRow ≠ []) (hrow : row ≠ [])
    (h : Remembered st agg store p key (nameOf (leftover agg newRow)) row) :
    st.loadPreviousRow agg store newKey newRow p.lastRows p.entityIndex = some row := by
  unfold StreamState.loadPreviousRow
  rw [entityIdentity_eq hx]
  rcases h with ⟨hindex, hget⟩ | ⟨hindex, hget, hentity, hstored⟩
  · simp [hindex, hget, nonEmpty_some hrow]
  · have hlast : st.loadLastRow store agg.id key = some row := by
      rw [StreamState.loadLastRow, hstored, nonEmpty_some hrow]
    simp [hindex, hget, hentity, hlast, nonEmpty]

end Remembered

/-! ## One row -/

section Rows
variable {st : StreamState} {agg : TransformAggregate} {store : Store}
variable (hset : ∀ name m, Map.get agg.measures name = some m → m.Set)
include hset

variable {info : WalRowMeta} {row : Row}

theorem applyNew_insert (store : Store) (p : Pending)
    (hm : info.mutation = .insert ∨ info.mutation = .snapshot) (hx : leftover agg row ≠ []) :
    ∃ measures', st.applyNew agg store p (some info) row = .ok { p with
        measures := measures'
        lastRows := p.lastRows.insert (encodeKey agg.keyFields row) row
        entityIndex := p.entityIndex.insert (nameOf (leftover agg row)) (encodeKey agg.keyFields row) } ∧
      ∀ k name m, Map.get agg.measures name = some m →
        gathered measures' k name = gathered p.measures k name + valueAt st.parse agg k m row := by
  obtain ⟨measures', hok, hval⟩ :=
    addDeltas_ok st.parse agg hset (encodeKey agg.keyFields row) row 1 p.measures
  refine ⟨measures', ?_, ?_⟩
  · rcases hm with hm | hm
    · simp [StreamState.applyNew, hm, applyMutation, hok, Except.map, entityIdentity_eq hx]
    · simp [StreamState.applyNew, hm, applyMutation, hok, Except.map, entityIdentity_eq hx]
  · intro k name m hname
    rw [hval k name m hname, valueAt]
    simp only [eq_comm (a := k), one_mul]

theorem applyNew_update (p : Pending) {old : Row} {key : Text} (hm : info.mutation = .update)
    (hx : leftover agg row ≠ []) (hold : old ≠ [])
    (hrem : Remembered st agg store p key (nameOf (leftover agg row)) old) :
    ∃ measures' lastRows', st.applyNew agg store p (some info) row = .ok { p with
        measures := measures'
        lastRows := lastRows'
        entityIndex := p.entityIndex.insert (nameOf (leftover agg row)) (encodeKey agg.keyFields row) } ∧
      (∀ k, Map.get lastRows' k = if k = encodeKey agg.keyFields row then some row
        else if k = encodeKey agg.keyFields old then some [] else Map.get p.lastRows k) ∧
      ∀ k name m, Map.get agg.measures name = some m → gathered measures' k name =
        gathered p.measures k name - valueAt st.parse agg k m old + valueAt st.parse agg k m row := by
  have hload : st.loadPreviousRow agg store (encodeKey agg.keyFields row) row p.lastRows p.entityIndex =
      some old := loadPreviousRow_of_remembered hx hold hrem
  by_cases hkey : encodeKey agg.keyFields old = encodeKey agg.keyFields row
  · obtain ⟨measures', hok, hval⟩ :=
      addMeasureDelta_ok st.parse agg hset (encodeKey agg.keyFields row) old row p.measures
    refine ⟨measures', p.lastRows.insert (encodeKey agg.keyFields row) row, ?_, ?_, ?_⟩
    · simp [StreamState.applyNew, hm, hload, applyMutation, hkey, hok, Except.map, entityIdentity_eq hx]
    · intro k
      rw [Map.get_insert, hkey]
      split
      · rfl
      · rfl
    · intro k name m hname
      rw [hval k name m hname, valueAt, valueAt, hkey]
      simp only [eq_comm (a := k)]
      split
      · omega
      · omega
  · obtain ⟨measures₁, hok₁, hval₁⟩ :=
      addDeltas_ok st.parse agg hset (encodeKey agg.keyFields old) old (-1) p.measures
    obtain ⟨measures', hok, hval⟩ :=
      addDeltas_ok st.parse agg hset (encodeKey agg.keyFields row) row 1 measures₁
    refine ⟨measures', (p.lastRows.insert (encodeKey agg.keyFields old) []).insert
      (encodeKey agg.keyFields row) row, ?_, ?_, ?_⟩
    · simp [StreamState.applyNew, hm, hload, applyMutation, hkey, hok₁, hok, Except.map, Except.bind,
        entityIdentity_eq hx]
    · intro k
      rw [Map.get_insert, Map.get_insert]
    · intro k name m hname
      rw [hval k name m hname, hval₁ k name m hname, valueAt, valueAt]
      simp only [eq_comm (a := k)]
      split
      · split <;> omega
      · split <;> omega

theorem applyNew_delete (p : Pending) {old : Row} {key : Text} (hm : info.mutation = .delete)
    (hx : leftover agg row ≠ []) (hold : old ≠ [])
    (hrem : Remembered st agg store p key (nameOf (leftover agg row)) old) :
    ∃ measures' lastRows', st.applyNew agg store p (some info) row = .ok { p with
        measures := measures'
        lastRows := lastRows'
        entityIndex := p.entityIndex.erase (nameOf (leftover agg row)) } ∧
      (∀ k, Map.get lastRows' k = if k = encodeKey agg.keyFields row ∨ k = encodeKey agg.keyFields old
        then some [] else Map.get p.lastRows k) ∧
      ∀ k name m, Map.get agg.measures name = some m →
        gathered measures' k name = gathered p.measures k name - valueAt st.parse agg k m old := by
  have hload : st.loadPreviousRow agg store (encodeKey agg.keyFields row) row p.lastRows p.entityIndex =
      some old := loadPreviousRow_of_remembered hx hold hrem
  obtain ⟨measures', hok, hval⟩ :=
    addDeltas_ok st.parse agg hset (encodeKey agg.keyFields old) old (-1) p.measures
  refine ⟨measures', if encodeKey agg.keyFields old = encodeKey agg.keyFields row
    then p.lastRows.insert (encodeKey agg.keyFields row) []
    else (p.lastRows.insert (encodeKey agg.keyFields row) []).insert (encodeKey agg.keyFields old) [],
    ?_, ?_, ?_⟩
  · simp [StreamState.applyNew, hm, hload, applyMutation, hok, Except.map, entityIdentity_eq hx]
  · intro k
    split
    · rename_i hkey
      simp only [Map.get_insert, hkey, or_self]
    · rw [Map.get_insert, Map.get_insert]
      grind
  · intro k name m hname
    rw [hval k name m hname, valueAt]
    simp only [eq_comm (a := k)]
    split
    · omega
    · omega

end Rows

/-! ## The invariant -/

structure Distinct (Known : Entity → Prop) : Prop where
  ne : ∀ x, Known x → x ≠ []
  inj : ∀ x y, Known x → Known y → nameOf x = nameOf y → x = y

section Invariant
variable (st : StreamState) (agg : TransformAggregate) (Known : Entity → Prop) (store : Store)

structure Inv (p : Pending) (g : Entities) (ids : List (List (Fin 256))) : Prop where
  known : ∀ x ∈ g.seen, Known x
  live : ∀ x row, Map.get g.live x = some row → leftover agg row = x ∧ x ∈ g.seen
  /-- an entity has one row in the batch, under the key it is indexed by -/
  indexed : ∀ key row, Map.get p.lastRows key = some row → row ≠ [] →
    leftover agg row ∈ g.seen ∧ Map.get p.entityIndex (nameOf (leftover agg row)) = some key
  owned : ∀ key x, Map.get g.owner key = some x → ∃ row, Map.get g.live x = some row ∧
    encodeKey agg.keyFields row = key ∧ Remembered st agg store p key (nameOf x) row
  total : ∀ key name m, Map.get agg.measures name = some m →
    st.measure store agg.id key name + gathered p.measures key name =
      total st.parse agg key m g.live
  dedup : ∀ eventId, st.dedupKey agg.id eventId ∈ p.dedup ∨
    (Map.get store.dedup (st.dedupKey agg.id eventId)).isSome → eventId ∈ ids

variable {st agg Known store}
variable {p : Pending} {g : Entities} {ids : List (List (Fin 256))} {e : Event}

theorem Inv.name_ne (hK : Distinct Known) (h : Inv st agg Known store p g ids) {x y : Entity}
    (hy : y ∈ g.seen) (hx : Known x) (hne : y ≠ x) : nameOf y ≠ nameOf x :=
  fun heq => hne (hK.inj _ _ (h.known y hy) hx heq)

theorem Inv.markSeen (h : Inv st agg Known store p g ids) (hid : e.info.eventId ∉ ids) :
    ∃ p₁, st.markSeen agg store p (some e.info) = some p₁ ∧
      Inv st agg Known store p₁ g (ids ++ [e.info.eventId]) := by
  by_cases hnil : e.info.eventId = []
  · refine ⟨p, by simp [StreamState.markSeen, hnil], { h with dedup := ?_ }⟩
    intro eventId hin
    exact List.mem_append_left _ (h.dedup eventId hin)
  · have hnew : ¬ ((Map.get store.dedup (st.dedupKey agg.id e.info.eventId)).isSome ∨
        st.dedupKey agg.id e.info.eventId ∈ p.dedup) := fun hin => hid (h.dedup _ hin.symm)
    refine ⟨{ p with dedup := p.dedup ++ [st.dedupKey agg.id e.info.eventId] },
      by rw [StreamState.markSeen, if_neg hnil, if_neg hnew],
      ⟨h.known, h.live, h.indexed, h.owned, h.total, ?_⟩⟩
    intro eventId hin
    rcases hin with hin | hin
    · rcases List.mem_append.1 hin with hin | hin
      · exact List.mem_append_left _ (h.dedup eventId (.inl hin))
      · have heq := (dedupKey_inj st).1 (List.mem_singleton.1 hin)
        exact List.mem_append_right _ (heq ▸ List.mem_singleton_self _)
    · exact List.mem_append_left _ (h.dedup eventId (.inr hin))

theorem Inv.only_row (h : Inv st agg Known store p g ids) {old : Row}
    (howner : Map.get g.owner (encodeKey agg.keyFields old) = some (leftover agg e.row))
    {key : Text} {row : Row} (hrow : Map.get p.lastRows key = some row) (hne : row ≠ [])
    (hx' : leftover agg row = leftover agg e.row) : key = encodeKey agg.keyFields old := by
  have hindex := (h.indexed key row hrow hne).2
  rw [hx'] at hindex
  obtain ⟨_, _, _, hrem⟩ := h.owned _ _ howner
  rcases hrem with ⟨hin, -⟩ | ⟨hout, -⟩
  · rw [hindex] at hin
    exact Option.some.inj hin
  · rw [hindex] at hout
    cases hout

section Step
variable (hK : Distinct Known) (hset : ∀ name m, Map.get agg.measures name = some m → m.Set)
  (hx : Known (leftover agg e.row))
include hK hset hx

theorem Inv.insert (h : Inv st agg Known store p g ids)
    (hm : e.info.mutation = .insert ∨ e.info.mutation = .snapshot) (hnew : leftover agg e.row ∉ g.seen) :
    ∃ p', st.applyNew agg store p (some e.info) e.row = .ok p' ∧
      Inv st agg Known store p' (track agg g e) ids := by
  obtain ⟨measures', hok, hval⟩ := applyNew_insert hset store p hm (hK.ne _ hx)
  refine ⟨_, hok, ?_⟩
  have htrack : track agg g e = ⟨g.live.insert (leftover agg e.row) e.row,
      leftover agg e.row :: g.seen, g.owner.insert (encodeKey agg.keyFields e.row) (leftover agg e.row)⟩ := by
    rcases hm with hm | hm <;> simp [track, hm]
  have hother : ∀ y ∈ g.seen, y ≠ leftover agg e.row := fun y hy heq => hnew (heq ▸ hy)
  rw [htrack]
  constructor
  case known =>
    exact List.forall_mem_cons.2 ⟨hx, h.known⟩
  case live =>
    intro x row hget
    rcases Map.get_insert_cases hget with ⟨heq, rfl⟩ | ⟨-, hget⟩
    · exact ⟨heq.symm, heq ▸ List.mem_cons_self⟩
    · obtain ⟨hrow, hmem⟩ := h.live x row hget
      exact ⟨hrow, List.mem_cons_of_mem _ hmem⟩
  case indexed =>
    intro key row hget hne
    rcases Map.get_insert_cases hget with ⟨heq, rfl⟩ | ⟨-, hget⟩
    · refine ⟨List.mem_cons_self, ?_⟩
      rw [Map.get_insert, if_pos rfl, heq]
    · obtain ⟨hmem, hindex⟩ := h.indexed key row hget hne
      refine ⟨List.mem_cons_of_mem _ hmem, ?_⟩
      rw [Map.get_insert, if_neg (h.name_ne hK hmem hx (hother _ hmem))]
      exact hindex
  case owned =>
    intro key x howner
    rcases Map.get_insert_cases howner with ⟨heq, rfl⟩ | ⟨hne, howner⟩
    · refine ⟨e.row, by rw [Map.get_insert, if_pos rfl], heq.symm, .inl ⟨?_, ?_⟩⟩
      · rw [Map.get_insert, if_pos rfl, heq]
      · rw [Map.get_insert, if_pos heq]
    · obtain ⟨row, hlive, hkey, hrem⟩ := h.owned key x howner
      have hmem := (h.live x row hlive).2
      refine ⟨row, by rw [Map.get_insert, if_neg (hother x hmem), hlive], hkey, hrem.frame ?_ ?_⟩
      · rw [Map.get_insert, if_neg (h.name_ne hK hmem hx (hother x hmem))]
      · rw [Map.get_insert, if_neg hne]
  case total =>
    intro key name m hname
    have hnone : Map.get g.live (leftover agg e.row) = none := by
      cases hget : Map.get g.live (leftover agg e.row) with
      | none => rfl
      | some row => exact absurd (h.live _ row hget).2 hnew
    have htotal := h.total key name m hname
    unfold Stream.total at htotal ⊢
    rw [hval key name m hname, Map.sum_insert, hnone, Map.count_none]
    omega
  case dedup => exact h.dedup

theorem Inv.update (h : Inv st agg Known store p g ids) (hm : e.info.mutation = .update) {old : Row}
    (hlive : Map.get g.live (leftover agg e.row) = some old)
    (howner : Map.get g.owner (encodeKey agg.keyFields old) = some (leftover agg e.row)) :
    ∃ p', st.applyNew agg store p (some e.info) e.row = .ok p' ∧
      Inv st agg Known store p' (track agg g e) ids := by
  obtain ⟨hold, hseen⟩ := h.live _ old hlive
  obtain ⟨old', hlive', -, hrem⟩ := h.owned _ _ howner
  obtain rfl : old = old' := Option.some.inj (hlive.symm.trans hlive')
  have holdne : old ≠ [] := ne_nil_of_leftover (hold ▸ hK.ne _ hx)
  obtain ⟨measures', lastRows', hok, hrows, hval⟩ :=
    applyNew_update hset p hm (hK.ne _ hx) holdne hrem
  refine ⟨_, hok, ?_⟩
  have htrack : track agg g e = ⟨g.live.insert (leftover agg e.row) e.row, g.seen,
      (g.owner.erase (encodeKey agg.keyFields old)).insert (encodeKey agg.keyFields e.row)
        (leftover agg e.row)⟩ := by
    simp [track, hm, Entities.leave, hlive]
  rw [htrack]
  constructor
  case known => exact h.known
  case live =>
    intro x row hget
    rcases Map.get_insert_cases hget with ⟨heq, rfl⟩ | ⟨-, hget⟩
    · exact ⟨heq.symm, heq ▸ hseen⟩
    · exact h.live x row hget
  case indexed =>
    intro key row hget hne
    rw [hrows] at hget
    split at hget
    · rename_i heq
      cases hget
      refine ⟨hseen, ?_⟩
      rw [Map.get_insert, if_pos rfl, heq]
    · split at hget
      · cases hget
        exact absurd rfl hne
      · rename_i hkeyold
        obtain ⟨hmem, hindex⟩ := h.indexed key row hget hne
        refine ⟨hmem, ?_⟩
        have hother : leftover agg row ≠ leftover agg e.row := fun heq =>
          hkeyold (h.only_row howner hget hne heq)
        rw [Map.get_insert, if_neg (h.name_ne hK hmem hx hother)]
        exact hindex
  case owned =>
    intro key x hown
    rcases Map.get_insert_cases hown with ⟨heq, rfl⟩ | ⟨hkeynew, hown⟩
    · refine ⟨e.row, by rw [Map.get_insert, if_pos rfl], heq.symm, .inl ⟨?_, ?_⟩⟩
      · rw [Map.get_insert, if_pos rfl, heq]
      · rw [hrows, if_pos heq]
    · obtain ⟨hkeyold, hown⟩ := Map.of_get_erase hown
      obtain ⟨row, hliverow, hkey, hremrow⟩ := h.owned key x hown
      have hother : x ≠ leftover agg e.row := by
        intro heq
        rw [heq, hlive] at hliverow
        cases hliverow
        exact hkeyold hkey.symm
      have hmem := (h.live x row hliverow).2
      refine ⟨row, by rw [Map.get_insert, if_neg hother, hliverow], hkey, hremrow.frame ?_ ?_⟩
      · rw [Map.get_insert, if_neg (h.name_ne hK hmem hx hother)]
      · rw [hrows, if_neg hkeynew, if_neg hkeyold]
  case total =>
    intro key name m hname
    have htotal := h.total key name m hname
    unfold Stream.total at htotal ⊢
    rw [hval key name m hname, Map.sum_insert, hlive, Map.count_some]
    omega
  case dedup => exact h.dedup

theorem Inv.delete (h : Inv st agg Known store p g ids) (hm : e.info.mutation = .delete) {old : Row}
    (hlive : Map.get g.live (leftover agg e.row) = some old)
    (howner : Map.get g.owner (encodeKey agg.keyFields old) = some (leftover agg e.row)) :
    ∃ p', st.applyNew agg store p (some e.info) e.row = .ok p' ∧
      Inv st agg Known store p' (track agg g e) ids := by
  have hold := (h.live _ old hlive).1
  obtain ⟨old', hlive', -, hrem⟩ := h.owned _ _ howner
  obtain rfl : old = old' := Option.some.inj (hlive.symm.trans hlive')
  have holdne : old ≠ [] := ne_nil_of_leftover (hold ▸ hK.ne _ hx)
  obtain ⟨measures', lastRows', hok, hrows, hval⟩ :=
    applyNew_delete hset p hm (hK.ne _ hx) holdne hrem
  refine ⟨_, hok, ?_⟩
  have htrack : track agg g e = ⟨g.live.erase (leftover agg e.row), g.seen,
      (g.owner.erase (encodeKey agg.keyFields old)).erase (encodeKey agg.keyFields e.row)⟩ := by
    simp [track, hm, Entities.leave, hlive]
  rw [htrack]
  constructor
  case known => exact h.known
  case live =>
    intro x row hget
    exact h.live x row (Map.of_get_erase hget).2
  case indexed =>
    intro key row hget hne
    rw [hrows] at hget
    split at hget
    · cases hget
      exact absurd rfl hne
    · rename_i hkeys
      obtain ⟨hmem, hindex⟩ := h.indexed key row hget hne
      refine ⟨hmem, ?_⟩
      have hother : leftover agg row ≠ leftover agg e.row := fun heq =>
        hkeys (.inr (h.only_row howner hget hne heq))
      rw [Map.get_erase, if_neg (h.name_ne hK hmem hx hother)]
      exact hindex
  case owned =>
    intro key x hown
    obtain ⟨hkeynew, hown⟩ := Map.of_get_erase hown
    obtain ⟨hkeyold, hown⟩ := Map.of_get_erase hown
    obtain ⟨row, hliverow, hkey, hremrow⟩ := h.owned key x hown
    have hother : x ≠ leftover agg e.row := by
      intro heq
      rw [heq, hlive] at hliverow
      cases hliverow
      exact hkeyold hkey.symm
    have hmem := (h.live x row hliverow).2
    refine ⟨row, by rw [Map.get_erase, if_neg hother, hliverow], hkey, hremrow.frame ?_ ?_⟩
    · rw [Map.get_erase, if_neg (h.name_ne hK hmem hx hother)]
    · rw [hrows, if_neg]
      rintro (heq | heq)
      · exact hkeynew heq
      · exact hkeyold heq
  case total =>
    intro key name m hname
    have htotal := h.total key name m hname
    unfold Stream.total at htotal ⊢
    rw [hval key name m hname, Map.sum_erase, hlive, Map.count_some]
    omega
  case dedup => exact h.dedup

theorem applyRow_inv (h : Inv st agg Known store p g ids) {cdc : Option (List WalRowMeta)} {i : Nat}
    (hinfo : (cdc.bind fun rows => rows[i]?) = some e.info) (hid : e.info.eventId ∉ ids)
    (hallowed : Allowed agg g e) (hund : Undisturbed agg g e) :
    ∃ p', st.applyRow agg store cdc p (.ok e.row, i) = .ok p' ∧
      Inv st agg Known store p' (track agg g e) (ids ++ [e.info.eventId]) := by
  obtain ⟨p₁, hmark, h₁⟩ := h.markSeen hid
  have hnew : ∃ p', st.applyNew agg store p₁ (some e.info) e.row = .ok p' ∧
      Inv st agg Known store p' (track agg g e) (ids ++ [e.info.eventId]) := by
    unfold Allowed at hallowed
    unfold Undisturbed at hund
    cases hm : e.info.mutation with
    | insert =>
      rw [hm] at hallowed
      exact h₁.insert hK hset hx (.inl hm) hallowed
    | snapshot =>
      rw [hm] at hallowed
      exact h₁.insert hK hset hx (.inr hm) hallowed
    | update =>
      rw [hm] at hallowed hund
      obtain ⟨old, hlive⟩ := Option.isSome_iff_exists.1 hallowed
      exact h₁.update hK hset hx hm hlive (hund old hlive)
    | delete =>
      rw [hm] at hallowed hund
      obtain ⟨old, hlive⟩ := Option.isSome_iff_exists.1 hallowed
      exact h₁.delete hK hset hx hm hlive (hund old hlive)
  obtain ⟨p', hok, h'⟩ := hnew
  refine ⟨{ p' with rowIndex := i + 1 }, ?_, { h' with owned := h'.owned }⟩
  simp [StreamState.applyRow, hinfo, hmark, hok, Except.bind, Except.map]

omit hx in
theorem applyRows_inv (cdc : Option (List WalRowMeta)) : ∀ (l : List (Event × Nat)) {p : Pending}
    {g : Entities} {ids : List (List (Fin 256))}, Inv st agg Known store p g ids →
    (∀ r ∈ l, (cdc.bind fun rows => rows[r.2]?) = some r.1.info ∧ Known (leftover agg r.1.row)) →
    (ids ++ l.map (·.1.info.eventId)).Nodup →
    Along agg (Allowed agg) g (l.map Prod.fst) → Along agg (Undisturbed agg) g (l.map Prod.fst) →
    ∃ p', l.foldlM (fun p r => st.applyRow agg store cdc p (.ok r.1.row, r.2)) p = .ok p' ∧
      Inv st agg Known store p' ((l.map Prod.fst).foldl (track agg) g)
        (ids ++ l.map (·.1.info.eventId))
  | [], p, g, ids, h, _, _, _, _ => ⟨p, rfl, by simpa using h⟩
  | (e, i) :: l, p, g, ids, h, hl, hids, hallowed, hund => by
    obtain ⟨hinfo, hknown⟩ := hl _ List.mem_cons_self
    have hid : e.info.eventId ∉ ids := fun hin =>
      List.disjoint_of_nodup_append hids hin List.mem_cons_self
    obtain ⟨p₁, hstep, h₁⟩ := applyRow_inv hK hset hknown h hinfo hid hallowed.1 hund.1
    have happend : ids ++ ((e, i) :: l).map (·.1.info.eventId) =
        ids ++ [e.info.eventId] ++ l.map (·.1.info.eventId) := by simp
    rw [happend] at hids ⊢
    obtain ⟨p', hrest, h'⟩ := applyRows_inv cdc l h₁ (List.forall_mem_cons.1 hl).2 hids
      hallowed.2 hund.2
    refine ⟨p', ?_, h'⟩
    rw [List.foldlM_cons, hstep]
    exact hrest

end Step

theorem commitBatch_inv (hK : Distinct Known) (h : Inv st agg Known store p g ids)
    (cursor : WalCursor) (rowIndex : Nat) :
    Inv st agg Known (st.commitBatch agg store p cursor) ⟨∅, ∅, ∅, [], rowIndex⟩ g ids := by
  constructor
  case known => exact h.known
  case live => exact h.live
  case indexed =>
    intro key row hget
    cases hget
  case owned =>
    intro key x howner
    obtain ⟨row, hlive, hkey, hrem⟩ := h.owned key x howner
    obtain ⟨hleft, hmem⟩ := h.live x row hlive
    have hentity : ∀ row', entityIdentity agg row' = some (nameOf x) →
        row' ≠ [] ∧ (leftover agg row' ∈ g.seen → leftover agg row' = x) := by
      intro row' hident
      have hne : leftover agg row' ≠ [] := by
        intro hnil
        simp [entityIdentity, hnil] at hident
      rw [entityIdentity_eq hne] at hident
      refine ⟨ne_nil_of_leftover hne, fun hin => ?_⟩
      exact hK.inj _ _ (h.known _ hin) (h.known x hmem) (Option.some.inj hident)
    have hindexed : ∀ key' row', Map.get p.lastRows key' = some row' →
        entityIdentity agg row' = some (nameOf x) → Map.get p.entityIndex (nameOf x) = some key' := by
      intro key' row' hrow' hident
      obtain ⟨hne, heq⟩ := hentity row' hident
      obtain ⟨hseen, hindex⟩ := h.indexed key' row' hrow' hne
      rw [heq hseen] at hindex
      exact hindex
    refine ⟨row, hlive, hkey, .inr ⟨rfl, rfl, ?_⟩⟩
    rcases hrem with ⟨hindex, hrow⟩ | ⟨hindex, hrow, hentities, hstored⟩
    · have hident : entityIdentity agg row = some (nameOf x) := by
        rw [entityIdentity_eq (hleft ▸ hK.ne x (h.known x hmem)), hleft]
      constructor
      · refine commitBatch_entities_of_unique st agg store p cursor hrow hident ?_
        intro key' row' hrow' hident'
        have hother := hindexed key' row' hrow' hident'
        rw [hindex] at hother
        exact (Option.some.inj hother).symm
      · rw [commitBatch_rows, hrow]
        rfl
    · constructor
      · rw [commitBatch_entities_of_absent, hentities]
        intro key' row' hrow' hident'
        have hother := hindexed key' row' hrow' hident'
        rw [hindex] at hother
        cases hother
      · rw [commitBatch_rows, hrow]
        exact hstored
  case total =>
    intro key name m hname
    rw [commitBatch_measure, h.total key name m hname]
    show total st.parse agg key m g.live + 0 = _
    omega
  case dedup =>
    intro eventId hin
    rcases hin with hin | hin
    · cases hin
    · exact h.dedup eventId ((commitBatch_dedup st agg store p cursor _).1 hin)

/-! ## Batches and sequences of batches -/

theorem applyCall_inv (hK : Distinct Known)
    (hset : ∀ name m, Map.get agg.measures name = some m → m.Set) {rowIndex : Nat} (c : Call)
    (h : Inv st agg Known store ⟨∅, ∅, ∅, [], rowIndex⟩ g ids)
    (hread : ∀ e ∈ c.history, e.Readable) (hknown : ∀ e ∈ c.history, Known (leftover agg e.row))
    (hids : (ids ++ c.history.map (·.info.eventId)).Nodup)
    (hallowed : Along agg (Allowed agg) g c.history) (hund : Along agg (Undisturbed agg) g c.history) :
    ∃ store', applyCall st agg store c = .ok store' ∧
      Inv st agg Known store' ⟨∅, ∅, ∅, [], rowIndex⟩ (c.history.foldl (track agg) g)
        (ids ++ c.history.map (·.info.eventId)) := by
  by_cases hlen : c.events.length ≤ c.startRow
  · have hnil : c.history = [] := List.drop_eq_nil_of_le hlen
    refine ⟨store, ?_, by simpa [hnil] using h⟩
    simp [applyCall, StreamState.applyEvents, hlen, Except.map]
  · have hfst : (c.events.zipIdx.drop c.startRow).map Prod.fst = c.history := by
      rw [List.map_drop, List.zipIdx_map_fst]
      rfl
    have hidmap : (c.events.zipIdx.drop c.startRow).map (·.1.info.eventId) =
        c.history.map (·.info.eventId) := by
      rw [← hfst, List.map_map]
      rfl
    have hmem : ∀ r ∈ c.events.zipIdx.drop c.startRow, r.1 ∈ c.history :=
      fun r hr => hfst ▸ List.mem_map_of_mem hr
    have hrows : StreamState.rowsFrom (c.events.map fun e => rowValues e.cells) c.startRow =
        (c.events.zipIdx.drop c.startRow).map fun r => (.ok r.1.row, r.2) := by
      rw [StreamState.rowsFrom, List.zipIdx_map, ← List.map_drop]
      refine List.map_congr_left fun r hr => ?_
      rw [Prod.map_apply, rowValues_eq (hread r.1 (hmem r hr))]
      rfl
    have hstart : Inv st agg Known store ⟨∅, ∅, ∅, [], c.cursor.rowIndex⟩ g ids :=
      ⟨h.known, h.live, h.indexed, h.owned, h.total, h.dedup⟩
    obtain ⟨p', hfold, h'⟩ := applyRows_inv hK hset (some (c.events.map (·.info)))
      (c.events.zipIdx.drop c.startRow) hstart
      (by
        intro r hr
        have hget : c.events[r.2]? = some r.1 := List.mem_zipIdx_iff_getElem?.1 (List.mem_of_mem_drop hr)
        exact ⟨by simp [hget], hknown r.1 (hmem r hr)⟩)
      (hidmap ▸ hids) (hfst.symm ▸ hallowed) (hfst.symm ▸ hund)
    rw [hfst, hidmap] at h'
    refine ⟨_, ?_, commitBatch_inv hK h' { c.cursor with rowIndex := p'.rowIndex } rowIndex⟩
    rw [applyCall, StreamState.applyEvents, if_neg (by simpa using hlen), hrows, List.foldlM_map, hfold]
    rfl

theorem along_append {ok : Entities → Event → Prop} : ∀ (a b : List Event) (g : Entities),
    Along agg ok g (a ++ b) ↔ Along agg ok g a ∧ Along agg ok (a.foldl (track agg) g) b
  | [], b, g => by simp [Along]
  | e :: a, b, g => by
    rw [List.cons_append, Along, Along, along_append a b, and_assoc]
    rfl

theorem applyCalls_inv (hK : Distinct Known)
    (hset : ∀ name m, Map.get agg.measures name = some m → m.Set) {rowIndex : Nat} :
    ∀ (calls : List Call) {store : Store} {g : Entities} {ids : List (List (Fin 256))},
    Inv st agg Known store ⟨∅, ∅, ∅, [], rowIndex⟩ g ids →
    (∀ e ∈ calls.flatMap Call.history, e.Readable) →
    (∀ e ∈ calls.flatMap Call.history, Known (leftover agg e.row)) →
    (ids ++ (calls.flatMap Call.history).map (·.info.eventId)).Nodup →
    Along agg (Allowed agg) g (calls.flatMap Call.history) →
    Along agg (Undisturbed agg) g (calls.flatMap Call.history) →
    ∃ store', applyCalls st agg store calls = .ok store' ∧
      Inv st agg Known store' ⟨∅, ∅, ∅, [], rowIndex⟩
        ((calls.flatMap Call.history).foldl (track agg) g)
        (ids ++ (calls.flatMap Call.history).map (·.info.eventId))
  | [], store, g, ids, h, _, _, _, _, _ => ⟨store, rfl, by simpa using h⟩
  | c :: calls, store, g, ids, h, hread, hknown, hids, hallowed, hund => by
    rw [List.flatMap_cons] at hread hknown hids hallowed hund ⊢
    rw [List.map_append, ← List.append_assoc] at hids ⊢
    rw [along_append] at hallowed hund
    obtain ⟨store₁, hcall, h₁⟩ := applyCall_inv hK hset c h (List.forall_mem_append.1 hread).1
      (List.forall_mem_append.1 hknown).1 (List.Nodup.of_append_left hids)
      hallowed.1 hund.1
    obtain ⟨store', hrest, h'⟩ := applyCalls_inv hK hset calls h₁ (List.forall_mem_append.1 hread).2
      (List.forall_mem_append.1 hknown).2 hids hallowed.2 hund.2
    rw [List.foldl_append]
    refine ⟨store', ?_, h'⟩
    rw [applyCalls, List.foldlM_cons, hcall]
    exact hrest

end Invariant

def entities (agg : TransformAggregate) (history : List Event) : Entities :=
  history.foldl (track agg) .none

instance (agg : TransformAggregate) (g : Entities) (e : Event) : Decidable (Allowed agg g e) := by
  unfold Allowed
  split <;> infer_instance

instance (agg : TransformAggregate) (g : Entities) (e : Event) : Decidable (Undisturbed agg g e) := by
  unfold Undisturbed
  split <;> infer_instance

instance decidableAlong (agg : TransformAggregate) (ok : Entities → Event → Prop)
    [∀ g e, Decidable (ok g e)] : ∀ g es, Decidable (Along agg ok g es)
  | _, [] => .isTrue trivial
  | g, e :: es => @instDecidableAnd _ _ _ (decidableAlong agg ok (track agg g e) es)

theorem distinct_of_events {history : List Event} (hne : ∀ e ∈ history, leftover agg e.row ≠ [])
    (hinj : ∀ e ∈ history, ∀ e' ∈ history,
      nameOf (leftover agg e.row) = nameOf (leftover agg e'.row) →
        leftover agg e.row = leftover agg e'.row) :
    Distinct fun x => ∃ e ∈ history, leftover agg e.row = x := by
  constructor
  · intro x hx
    obtain ⟨e, he, rfl⟩ := hx
    exact hne e he
  · intro x y hx hy hname
    obtain ⟨e, he, rfl⟩ := hx
    obtain ⟨e', he', rfl⟩ := hy
    exact hinj e he e' he' hname

def invoiceTotals : TransformAggregate where
  id := ['t']
  keyFields := [['c']]
  measures := (∅ : Map Text AggregateMeasure).insert ['s'] ⟨some ['a'], none⟩

def invoiceState : StreamState where
  pipeline := ['p']
  aggregates := [invoiceTotals]
  configHash := []
  parse := fun _ => 0

def emptyStore : Store := ⟨∅, ∅, ∅, ∅, ∅⟩

theorem emptyStore_fresh : Fresh invoiceState invoiceTotals emptyStore :=
  ⟨fun _ => rfl, fun _ => rfl⟩

def invoice (mutation : MutationKind) (c i : Char) (amount : Int) (position : Nat) : Event :=
  ⟨[(['c'], .utf8 [c]), (['i'], .utf8 [i]), (['a'], .int amount)],
    ⟨mutation, L6.Cdc.oneByte position⟩⟩

/-- Two invoices under different customers; then the second moves to the first
one's customer and changes once more. -/
def movedInvoice : List Call :=
  [⟨.zero, [invoice .insert 'A' 'x' 10 1, invoice .insert 'B' 'y' 20 2], 0⟩,
    ⟨.zero, [invoice .update 'A' 'y' 25 3, invoice .update 'A' 'y' 30 4], 0⟩]

/-- Two invoices of one customer; then the first changes from 10 to 15. -/
def sharedKey : List Call :=
  [⟨.zero, [invoice .insert 'A' 'x' 10 1, invoice .insert 'A' 'y' 20 2], 0⟩,
    ⟨.zero, [invoice .update 'A' 'x' 15 3], 0⟩]

end Skippr.L8.Stream
