import Skippr.Core.Map
import Skippr.Core.Text

/-!
# MySQL CDC: resuming a binlog stream

`sync_cdc` reads the binlog from a file and a position, submits the rows of each
row event and then stores a checkpoint with the event's log position
(plugins/data_source/mysql/src/mysql.rs). Two things are kept across events: the
table maps the stream has read, without which a row event is skipped, and the
name of the file, which is that of the run's start.
-/
namespace Skippr.L11.Mysql

/-! ## The binlog -/

inductive MutationKind
  | insert
  | update
  | delete
deriving DecidableEq, Repr

/-- The events the loop tells apart. A row event has the images of its rows. -/
inductive Body (V : Type)
  | tableMap (tableId : Nat) (table : Text × Text)
  | writeRows (tableId : Nat) (after : List V)
  | updateRows (tableId : Nat) (images : List (V × V))
  | deleteRows (tableId : Nat) (before : List V)
  | other
deriving DecidableEq, Repr

structure Event (V : Type) where
  logPos : Nat
  body : Body V
deriving DecidableEq, Repr

structure RowsEvent (V : Type) where
  tableId : Nat
  mutation : MutationKind
  values : List V
deriving DecidableEq, Repr

variable {V : Type}

/-- INSERT and UPDATE use the after-image; DELETE uses the before-image.
mirrors mysql.rs:412-438 and 463-473 -/
def Body.rowsEvent : Body V → Option (RowsEvent V)
  | .writeRows tableId after => some ⟨tableId, .insert, after⟩
  | .updateRows tableId images => some ⟨tableId, .update, images.map Prod.snd⟩
  | .deleteRows tableId before => some ⟨tableId, .delete, before⟩
  | .tableMap _ _ => none
  | .other => none

def Body.maps : Body V → Option Nat
  | .tableMap tableId _ => some tableId
  | _ => none

structure File (V : Type) where
  name : Text
  start : Nat
  events : List (Event V)

structure Binlog (V : Type) where
  first : File V
  rest : List (File V)
  names : ((first :: rest).map File.name).Nodup
  increasing : ∀ f ∈ first :: rest, f.events.Pairwise fun a b => a.logPos < b.logPos
  started : ∀ f ∈ first :: rest, ∀ e ∈ f.events, f.start < e.logPos
  mapped : ∀ f ∈ first :: rest, ∀ e ∈ f.events, ∀ ev ∈ e.body.rowsEvent,
    ∃ m ∈ f.events, m.body.maps = some ev.tableId ∧ m.logPos < e.logPos

def Binlog.files (log : Binlog V) : List (File V) := log.first :: log.rest

structure MysqlCheckpoint where
  binlogFile : Text
  binlogPosition : Nat
deriving DecidableEq, Repr

def Binlog.captured (log : Binlog V) : MysqlCheckpoint := ⟨log.first.name, log.first.start⟩

/-! ## What the server sends -/

inductive Item (V : Type)
  | rotate (name : Text)
  | event (file : Nat) (e : Event V)

def itemsFrom (k : Nat) : List (File V) → List (Item V)
  | [] => []
  | f :: fs => .rotate f.name :: (f.events.map (.event k) ++ itemsFrom (k + 1) fs)

def File.Holds (f : File V) (position : Nat) : Prop :=
  position = f.start ∨ ∃ e ∈ f.events, e.logPos = position

instance (f : File V) (position : Nat) : Decidable (f.Holds position) :=
  inferInstanceAs (Decidable (position = f.start ∨ ∃ e ∈ f.events, e.logPos = position))

def File.after (f : File V) (position : Nat) : File V :=
  { f with events := f.events.filter fun e => position < e.logPos }

/-- The stream from a checkpoint; the server refuses a position that is not in
the file it names. -/
def dumpFrom (c : MysqlCheckpoint) (k : Nat) : List (File V) → List (Item V)
  | [] => []
  | f :: fs =>
    if f.name = c.binlogFile then
      if f.Holds c.binlogPosition then itemsFrom k (f.after c.binlogPosition :: fs) else []
    else dumpFrom c (k + 1) fs

def Binlog.dump (log : Binlog V) (c : MysqlCheckpoint) : List (Item V) := dumpFrom c 0 log.files

/-! ## `sync_cdc` -/

/-- A submitted row; `source` is where the row stands: the number of the file,
the position of the event, the number of the row. -/
structure Submission (V : Type) where
  source : Nat × Nat × Nat
  table : Text × Text
  mutation : MutationKind
  values : V
  eventId : Text × Nat
deriving DecidableEq, Repr

/-- `file` is the number of the file whose event the checkpoint is stored for. -/
inductive Effect (V : Type)
  | submit (s : Submission V)
  | store (file : Nat) (c : MysqlCheckpoint)
deriving DecidableEq, Repr

abbrev TableMaps := Map Nat (Text × Text)

def learn (maps : TableMaps) (e : Event V) : TableMaps :=
  match e.body with
  | .tableMap tableId table => maps.insert tableId table
  | _ => maps

/-- mirrors mysql.rs:404-517 -/
def process (binlogFile : Text) (maps : TableMaps) (file : Nat) (e : Event V) : List (Effect V) :=
  match e.body.rowsEvent with
  | none => []
  | some ev =>
    match maps.get ev.tableId with
    | none => []
    | some table =>
      (ev.values.zipIdx.map fun p => .submit
        ⟨(file, e.logPos, p.2), table, ev.mutation, p.1, (binlogFile, e.logPos)⟩) ++
        [.store file ⟨binlogFile, e.logPos⟩]

/-- The loop; a switch to another file clears the table maps and nothing else. -/
def run (binlogFile : Text) : TableMaps → List (Item V) → List (Effect V)
  | _, [] => []
  | _, .rotate _ :: items => run binlogFile ∅ items
  | maps, .event file e :: items =>
    process binlogFile maps file e ++ run binlogFile (learn maps e) items

/-- `includesSnapshot`: of the mode. The rows of the snapshot are left out.
mirrors mysql.rs:221-268 and 342-364 -/
def syncCdc (log : Binlog V) (includesSnapshot : Bool) (stored : Option MysqlCheckpoint) :
    List (Effect V) :=
  let c := stored.getD log.captured
  (if includesSnapshot && stored.isNone then [.store 0 c] else []) ++
    run c.binlogFile ∅ (log.dump c)

/-! ## What two runs submit -/

def storedCheckpoint (effects : List (Effect V)) : Option MysqlCheckpoint :=
  (effects.filterMap fun
    | .store _ c => some c
    | .submit _ => none).getLast?

def Submitted (effects : List (Effect V)) (source : Nat × Nat × Nat) : Prop :=
  ∃ s, Effect.submit s ∈ effects ∧ s.source = source

def sources (effects : List (Effect V)) : List (Nat × Nat × Nat) :=
  effects.filterMap fun
    | .submit s => some s.source
    | .store _ _ => none

theorem mem_sources {effects : List (Effect V)} {source : Nat × Nat × Nat} :
    source ∈ sources effects ↔ Submitted effects source := by
  unfold sources Submitted
  rw [List.mem_filterMap]
  constructor
  · rintro ⟨x, hx, heq⟩
    cases x with
    | submit s => exact ⟨s, hx, Option.some.inj heq⟩
    | store i c => cases heq
  · rintro ⟨s, hs, heq⟩
    exact ⟨.submit s, hs, congrArg some heq⟩

instance (effects : List (Effect V)) (source : Nat × Nat × Nat) :
    Decidable (Submitted effects source) :=
  decidable_of_iff _ mem_sources

/-- Every row of every row event has been submitted, and every checkpoint names
the file its event is in. -/
structure Resumed (log : Binlog V) (effects : List (Effect V)) : Prop where
  submitted : ∀ i f, log.files[i]? = some f → ∀ e ∈ f.events, ∀ ev ∈ e.body.rowsEvent,
    ∀ r < ev.values.length, Submitted effects (i, e.logPos, r)
  named : ∀ i c, Effect.store i c ∈ effects → ∃ f, log.files[i]? = some f ∧ c.binlogFile = f.name

/-- No row event is outside the first file, and each one that was not submitted
whole has its table map after the stored checkpoint. -/
structure Resumable (log : Binlog V) (cut : List (Effect V)) (c : MysqlCheckpoint) : Prop where
  oneFile : ∀ f ∈ log.rest, ∀ e ∈ f.events, e.body.rowsEvent = none
  mapped : ∀ e ∈ log.first.events, ∀ ev ∈ e.body.rowsEvent,
    (∃ r < ev.values.length, ¬ Submitted cut (0, e.logPos, r)) →
      ∃ m ∈ log.first.events, m.body.maps = some ev.tableId ∧
        c.binlogPosition < m.logPos ∧ m.logPos < e.logPos

/-! ## The loop -/

theorem get_learn (maps : TableMaps) (e : Event V) (tableId : Nat) :
    (learn maps e).get tableId ≠ none ↔ e.body.maps = some tableId ∨ maps.get tableId ≠ none := by
  unfold learn Body.maps
  cases e.body with
  | tableMap id table =>
    simp only [Map.get_insert, Option.some.injEq]
    by_cases h : tableId = id
    · simp [h]
    · simp [h, Ne.symm h]
  | writeRows id after | updateRows id images | deleteRows id before | other => simp

theorem get_foldl_learn (events : List (Event V)) (maps : TableMaps) (tableId : Nat) :
    (events.foldl learn maps).get tableId ≠ none ↔
      (∃ m ∈ events, m.body.maps = some tableId) ∨ maps.get tableId ≠ none := by
  induction events generalizing maps with
  | nil => simp
  | cons e events ih =>
    rw [List.foldl_cons, ih, get_learn, List.exists_mem_cons_iff]
    exact or_left_comm.trans or_assoc.symm

variable {binlogFile : Text}

theorem mem_run_events {x : Effect V} {k : Nat} {items : List (Item V)} (events : List (Event V))
    (maps : TableMaps) :
    x ∈ run binlogFile maps (events.map (.event k) ++ items) ↔
      (∃ pre e post, events = pre ++ e :: post ∧
        x ∈ process binlogFile (pre.foldl learn maps) k e) ∨
      x ∈ run binlogFile (events.foldl learn maps) items := by
  induction events generalizing maps with
  | nil => simp
  | cons e events ih =>
    rw [List.map_cons, List.cons_append, run, List.mem_append, ih, List.foldl_cons, ← or_assoc]
    refine or_congr_left ?_
    constructor
    · rintro (hx | ⟨pre, e', post, rfl, hx⟩)
      · exact ⟨[], e, events, rfl, hx⟩
      · exact ⟨e :: pre, e', post, rfl, hx⟩
    · rintro ⟨pre, e', post, heq, hx⟩
      cases pre with
      | nil =>
        obtain ⟨rfl, -⟩ := List.cons.inj heq
        exact .inl hx
      | cons e'' pre =>
        obtain ⟨rfl, htail⟩ := List.cons.inj heq
        exact .inr ⟨pre, e', post, htail, hx⟩

theorem run_itemsFrom (binlogFile : Text) (maps : TableMaps) (k : Nat) (files : List (File V)) :
    run binlogFile maps (itemsFrom k files) = run binlogFile ∅ (itemsFrom k files) := by
  cases files with
  | nil => rfl
  | cons f files => rfl

theorem mem_run_itemsFrom {x : Effect V} (files : List (File V)) (k : Nat) :
    x ∈ run binlogFile ∅ (itemsFrom k files) ↔
      ∃ j f, files[j]? = some f ∧ ∃ pre e post, f.events = pre ++ e :: post ∧
        x ∈ process binlogFile (pre.foldl learn ∅) (k + j) e := by
  induction files generalizing k with
  | nil => simp [itemsFrom, run]
  | cons f files ih =>
    rw [itemsFrom, run, mem_run_events, run_itemsFrom, ih]
    constructor
    · rintro (hx | ⟨j, g, hg, hx⟩)
      · exact ⟨0, f, rfl, hx⟩
      · refine ⟨j + 1, g, hg, ?_⟩
        rw [show k + (j + 1) = k + 1 + j by omega]
        exact hx
    · rintro ⟨j, g, hg, hx⟩
      cases j with
      | zero =>
        cases hg
        exact .inl hx
      | succ j =>
        rw [show k + (j + 1) = k + 1 + j by omega] at hx
        exact .inr ⟨j, g, hg, hx⟩

def Read (f : File V) (e : Event V) (ev : RowsEvent V) : Prop :=
  e ∈ f.events ∧ e.body.rowsEvent = some ev ∧
    ∃ m ∈ f.events, m.body.maps = some ev.tableId ∧ m.logPos < e.logPos

theorem mem_before {events pre post : List (Event V)} {e : Event V}
    (hsorted : events.Pairwise fun a b => a.logPos < b.logPos) (h : events = pre ++ e :: post)
    (m : Event V) : m ∈ pre ↔ m ∈ events ∧ m.logPos < e.logPos := by
  subst h
  obtain ⟨-, hpost, hcross⟩ := List.pairwise_append.1 hsorted
  constructor
  · intro hm
    exact ⟨List.mem_append_left _ hm, hcross m hm e List.mem_cons_self⟩
  · rintro ⟨hm, hlt⟩
    rcases List.mem_append.1 hm with hm | hm
    · exact hm
    · rcases List.mem_cons.1 hm with rfl | hm
      · exact absurd hlt (Nat.lt_irrefl _)
      · have := (List.pairwise_cons.1 hpost).1 m hm
        omega

theorem exists_process {k : Nat} {f : File V} {p : List (Effect V) → Prop}
    (hsorted : f.events.Pairwise fun a b => a.logPos < b.logPos) (hp : ¬ p [])
    (q : Event V → RowsEvent V → Prop)
    (hq : ∀ (e : Event V) ev table maps, e.body.rowsEvent = some ev →
      Map.get maps ev.tableId = some table → (p (process binlogFile maps k e) ↔ q e ev)) :
    (∃ pre e post, f.events = pre ++ e :: post ∧ p (process binlogFile (pre.foldl learn ∅) k e)) ↔
      ∃ e ev, Read f e ev ∧ q e ev := by
  constructor
  · rintro ⟨pre, e, post, heq, hx⟩
    cases hrows : e.body.rowsEvent with
    | none =>
      simp only [process, hrows] at hx
      exact absurd hx hp
    | some ev =>
      cases hmap : Map.get (pre.foldl learn ∅) ev.tableId with
      | none =>
        simp only [process, hrows, hmap] at hx
        exact absurd hx hp
      | some table =>
        have hknown : (pre.foldl learn ∅).get ev.tableId ≠ none := by simp [hmap]
        rcases (get_foldl_learn pre ∅ ev.tableId).1 hknown with ⟨m, hm, hmaps⟩ | hnone
        · obtain ⟨hm, hlt⟩ := (mem_before hsorted heq m).1 hm
          refine ⟨e, ev, ⟨?_, hrows, m, hm, hmaps, hlt⟩, (hq e ev table _ hrows hmap).1 hx⟩
          rw [heq]
          exact List.mem_append_right _ List.mem_cons_self
        · exact absurd rfl hnone
  · rintro ⟨e, ev, ⟨he, hrows, m, hm, hmaps, hlt⟩, hx⟩
    obtain ⟨pre, post, heq⟩ := List.append_of_mem he
    have hknown := (get_foldl_learn pre ∅ ev.tableId).2
      (.inl ⟨m, (mem_before hsorted heq m).2 ⟨hm, hlt⟩, hmaps⟩)
    obtain ⟨table, htable⟩ := Option.ne_none_iff_exists'.1 hknown
    exact ⟨pre, e, post, heq, (hq e ev table _ hrows htable).2 hx⟩

section Streams
variable {binlogFile : Text} {files : List (File V)} {k : Nat}

theorem store_mem_run (hsorted : ∀ f ∈ files, f.events.Pairwise fun a b => a.logPos < b.logPos)
    {i : Nat} {c : MysqlCheckpoint} :
    Effect.store i c ∈ run binlogFile ∅ (itemsFrom k files) ↔
      ∃ j f, files[j]? = some f ∧ ∃ e ev, Read f e ev ∧ i = k + j ∧ c = ⟨binlogFile, e.logPos⟩ := by
  rw [mem_run_itemsFrom]
  refine exists_congr fun j => exists_congr fun f => and_congr_right fun hf => ?_
  refine exists_process (p := fun l => Effect.store i c ∈ l) (hsorted f (List.mem_of_getElem? hf))
    List.not_mem_nil _ ?_
  intro e ev table maps hrows hmap
  simp [process, hrows, hmap]

theorem submitted_run (hsorted : ∀ f ∈ files, f.events.Pairwise fun a b => a.logPos < b.logPos)
    {source : Nat × Nat × Nat} :
    Submitted (run binlogFile ∅ (itemsFrom k files)) source ↔
      ∃ j f, files[j]? = some f ∧ ∃ e ev, Read f e ev ∧
        ∃ r < ev.values.length, source = (k + j, e.logPos, r) := by
  have hmem : Submitted (run binlogFile ∅ (itemsFrom k files)) source ↔
      ∃ j f, files[j]? = some f ∧ ∃ pre e post, f.events = pre ++ e :: post ∧
        Submitted (process binlogFile (pre.foldl learn ∅) (k + j) e) source := by
    constructor
    · rintro ⟨s, hs, rfl⟩
      obtain ⟨j, f, hf, pre, e, post, heq, hx⟩ := (mem_run_itemsFrom files k).1 hs
      exact ⟨j, f, hf, pre, e, post, heq, s, hx, rfl⟩
    · rintro ⟨j, f, hf, pre, e, post, heq, s, hx, rfl⟩
      exact ⟨s, (mem_run_itemsFrom files k).2 ⟨j, f, hf, pre, e, post, heq, hx⟩, rfl⟩
  rw [hmem]
  refine exists_congr fun j => exists_congr fun f => and_congr_right fun hf => ?_
  refine exists_process (p := fun l => Submitted l source) (hsorted f (List.mem_of_getElem? hf)) ?_ _ ?_
  · rintro ⟨s, hs, -⟩
    cases hs
  · intro e ev table maps hrows hmap
    simp only [Submitted, process, hrows, hmap, List.mem_append, List.mem_map, List.mem_singleton,
      reduceCtorEq, or_false]
    constructor
    · rintro ⟨s, ⟨p, hp, heq⟩, rfl⟩
      cases heq
      exact ⟨p.2, List.snd_lt_of_mem_zipIdx hp, rfl⟩
    · rintro ⟨r, hr, rfl⟩
      exact ⟨_, ⟨(ev.values[r], r), List.mem_zipIdx_iff_getElem?.2 (List.getElem?_eq_getElem hr), rfl⟩, rfl⟩

end Streams

/-! ## The two runs -/

section Runs
variable (log : Binlog V)

theorem increasing_after (position : Nat) : ∀ f ∈ log.first.after position :: log.rest,
    f.events.Pairwise fun a b => a.logPos < b.logPos := by
  obtain ⟨hfirst, hrest⟩ := List.forall_mem_cons.1 log.increasing
  exact List.forall_mem_cons.2 ⟨hfirst.filter _, hrest⟩

variable {c : MysqlCheckpoint} {i : Nat}

theorem dump_first (hfile : c.binlogFile = log.first.name)
    (hholds : log.first.Holds c.binlogPosition) :
    log.dump c = itemsFrom 0 (log.first.after c.binlogPosition :: log.rest) := by
  simp [Binlog.dump, Binlog.files, dumpFrom, hfile, hholds]

theorem read_after {position : Nat} {e : Event V} {ev : RowsEvent V} :
    Read (log.first.after position) e ev ↔
      e ∈ log.first.events ∧ e.body.rowsEvent = some ev ∧ ∃ m ∈ log.first.events,
        m.body.maps = some ev.tableId ∧ position < m.logPos ∧ m.logPos < e.logPos := by
  simp only [Read, File.after, List.mem_filter, decide_eq_true_eq]
  constructor
  · rintro ⟨⟨he, -⟩, hrows, m, ⟨hm, hpos⟩, hmaps, hlt⟩
    exact ⟨he, hrows, m, hm, hmaps, hpos, hlt⟩
  · rintro ⟨he, hrows, m, hm, hmaps, hpos, hlt⟩
    exact ⟨⟨he, by omega⟩, hrows, m, ⟨hm, hpos⟩, hmaps, hlt⟩

theorem store_of_first {includesSnapshot : Bool} (hfile : c.binlogFile = log.first.name)
    (hholds : log.first.Holds c.binlogPosition) {stored : Option MysqlCheckpoint}
    (hc : stored.getD log.captured = c) {c' : MysqlCheckpoint}
    (h : Effect.store i c' ∈ syncCdc log includesSnapshot stored) :
    (i = 0 ∧ c' = log.captured) ∨ ∃ f, log.files[i]? = some f ∧ ∃ e ∈ f.events,
      e.body.rowsEvent ≠ none ∧ c' = ⟨log.first.name, e.logPos⟩ := by
  unfold syncCdc at h
  rw [hc] at h
  simp only at h
  rw [dump_first log hfile hholds] at h
  rcases List.mem_append.1 h with h | h
  · split at h
    · rename_i hfirst
      have hnone : stored = none := by
        cases stored with
        | none => rfl
        | some c => simp at hfirst
      obtain ⟨rfl, rfl⟩ := Effect.store.inj (List.mem_singleton.1 h)
      rw [hnone] at hc
      exact .inl ⟨rfl, hc.symm⟩
    · cases h
  · right
    obtain ⟨j, f, hf, e, ev, hread, rfl, rfl⟩ := (store_mem_run (increasing_after log _)).1 h
    rw [Nat.zero_add]
    have hrows : e.body.rowsEvent ≠ none := by simp [hread.2.1]
    cases j with
    | zero =>
      cases hf
      exact ⟨log.first, rfl, e, ((read_after log).1 hread).1, hrows, by rw [hfile]⟩
    | succ j => exact ⟨f, hf, e, hread.1, hrows, by rw [hfile]⟩

theorem store_mem_of_stored {effects : List (Effect V)} (h : storedCheckpoint effects = some c) :
    ∃ i, Effect.store i c ∈ effects := by
  obtain ⟨x, hx, hc⟩ := List.mem_filterMap.1 (List.mem_of_getLast? h)
  cases x with
  | submit s => cases hc
  | store i c' =>
    cases hc
    exact ⟨i, hx⟩

theorem files_inj {f : File V} (hf : log.files[i]? = some f) (hname : f.name = log.first.name) :
    i = 0 := by
  have hnames : (log.files.map File.name)[i]? = (log.files.map File.name)[0]? := by
    rw [List.getElem?_map, hf, Option.map_some, hname]
    rfl
  have hlt : i < (log.files.map File.name).length := by
    rw [List.length_map]
    exact (List.getElem?_eq_some_iff.1 hf).1
  exact (List.getElem?_inj hlt log.names).1 hnames

theorem holds_of_store {includesSnapshot : Bool}
    (h : Effect.store i c ∈ syncCdc log includesSnapshot none) (hi : i = 0) :
    c.binlogFile = log.first.name ∧ log.first.Holds c.binlogPosition := by
  rcases store_of_first log rfl (.inl rfl) rfl h with ⟨-, rfl⟩ | ⟨f, hf, e, he, -, rfl⟩
  · exact ⟨rfl, .inl rfl⟩
  · subst hi
    cases hf
    exact ⟨rfl, .inr ⟨e, he, rfl⟩⟩

theorem run_of_stored (includesSnapshot : Bool) (hfile : c.binlogFile = log.first.name)
    (hholds : log.first.Holds c.binlogPosition) :
    syncCdc log includesSnapshot (some c) =
      run log.first.name ∅ (itemsFrom 0 (log.first.after c.binlogPosition :: log.rest)) := by
  simp [syncCdc, dump_first log hfile hholds, hfile]

variable {log} {includesSnapshot : Bool} {cut : List (Effect V)} {c : MysqlCheckpoint}

theorem resumable_of_resumed (hcut : cut <+: syncCdc log includesSnapshot none)
    (hstored : storedCheckpoint cut = some c)
    (h : Resumed log (cut ++ syncCdc log includesSnapshot (some c))) : Resumable log cut c := by
  -- The stored checkpoint is named after the first file, so its position is there.
  obtain ⟨k, hk⟩ := store_mem_of_stored hstored
  have hname : c.binlogFile = log.first.name := by
    rcases store_of_first log rfl (.inl rfl) rfl (hcut.subset hk) with ⟨-, rfl⟩ | ⟨f, -, e, -, -, rfl⟩
    · rfl
    · rfl
  have hzero : k = 0 := by
    obtain ⟨f, hf, hfname⟩ := h.named k c (List.mem_append_left _ hk)
    exact files_inj log hf (hfname.symm.trans hname)
  obtain ⟨hfile, hholds⟩ := holds_of_store log (hcut.subset hk) hzero
  have hrun := run_of_stored log includesSnapshot hfile hholds
  refine ⟨?_, ?_⟩
  · intro f hf e he
    cases hrows : e.body.rowsEvent with
    | none => rfl
    | some ev =>
      -- The second run reads the file from its beginning and stores its event.
      obtain ⟨j, hj⟩ := List.mem_iff_getElem?.1 hf
      have hread : Read f e ev :=
        ⟨he, hrows, log.mapped f (List.mem_cons_of_mem _ hf) e he ev hrows⟩
      have hstore : Effect.store (j + 1) ⟨log.first.name, e.logPos⟩ ∈
          syncCdc log includesSnapshot (some c) := by
        rw [hrun]
        exact (store_mem_run (increasing_after log _)).2 ⟨j + 1, f, hj, e, ev, hread, by omega, rfl⟩
      obtain ⟨f', hf', hfname⟩ := h.named _ _ (List.mem_append_right _ hstore)
      have := files_inj log hf' hfname.symm
      omega
  · intro e he ev hev hleft
    obtain ⟨r, hr, hnot⟩ := hleft
    obtain ⟨s, hs, hsource⟩ := h.submitted 0 log.first rfl e he ev hev r hr
    rcases List.mem_append.1 hs with hs | hs
    · exact absurd ⟨s, hs, hsource⟩ hnot
    · rw [hrun] at hs
      obtain ⟨j, f, hf, e', ev', hread, r', -, heq⟩ :=
        (submitted_run (increasing_after log _)).1 ⟨s, hs, hsource⟩
      obtain ⟨hj, hpos, -⟩ : 0 = 0 + j ∧ e.logPos = e'.logPos ∧ r = r' := by simpa using heq
      obtain rfl : j = 0 := by omega
      cases hf
      obtain ⟨he', hrows', m, hm, hmaps, hafter, hlt⟩ := (read_after log).1 hread
      -- Positions increase, so it is the same event.
      have hnodup := List.pairwise_map.2
        ((log.increasing log.first List.mem_cons_self).imp fun hlt => Nat.ne_of_lt hlt)
      obtain rfl := List.inj_on_of_nodup_map hnodup he he' hpos
      cases hrows'.symm.trans hev
      exact ⟨m, hm, hmaps, hafter, hlt⟩

theorem resumed_of_resumable (hcut : cut <+: syncCdc log includesSnapshot none)
    (hstored : storedCheckpoint cut = some c) (h : Resumable log cut c) :
    Resumed log (cut ++ syncCdc log includesSnapshot (some c)) := by
  -- Every row event is in the first file.
  have hfirst : ∀ i f, log.files[i]? = some f → ∀ e ∈ f.events, e.body.rowsEvent ≠ none → i = 0 := by
    intro i f hf e he hrows
    cases i with
    | zero => rfl
    | succ i => exact absurd (h.oneFile f (List.mem_of_getElem? hf) e he) hrows
  have hstores : ∀ i c', Effect.store i c' ∈ syncCdc log includesSnapshot none → i = 0 := by
    intro i c' hc'
    rcases store_of_first log rfl (.inl rfl) rfl hc' with ⟨rfl, -⟩ | ⟨f, hf, e, he, hrows, -⟩
    · rfl
    · exact hfirst i f hf e he hrows
  obtain ⟨k, hk⟩ := store_mem_of_stored hstored
  obtain ⟨hfile, hholds⟩ := holds_of_store log (hcut.subset hk) (hstores k c (hcut.subset hk))
  have hrun := run_of_stored log includesSnapshot hfile hholds
  refine ⟨?_, ?_⟩
  · intro i f hf e he ev hev r hr
    obtain rfl : i = 0 := hfirst i f hf e he (by simp [Option.mem_def.1 hev])
    cases hf
    by_cases hdone : Submitted cut (0, e.logPos, r)
    · obtain ⟨s, hs, hsource⟩ := hdone
      exact ⟨s, List.mem_append_left _ hs, hsource⟩
    · obtain ⟨m, hm, hmaps, hafter, hlt⟩ := h.mapped e he ev hev ⟨r, hr, hdone⟩
      have hread := (read_after log).2 ⟨he, hev, m, hm, hmaps, hafter, hlt⟩
      have hsecond : Submitted (syncCdc log includesSnapshot (some c)) (0, e.logPos, r) := by
        rw [hrun]
        exact (submitted_run (increasing_after log _)).2 ⟨0, _, rfl, e, ev, hread, r, hr, rfl⟩
      obtain ⟨s, hs, hsource⟩ := hsecond
      exact ⟨s, List.mem_append_right _ hs, hsource⟩
  · intro i c' hc'
    rcases List.mem_append.1 hc' with hc' | hc'
    · obtain rfl := hstores i c' (hcut.subset hc')
      exact ⟨log.first, rfl, (holds_of_store log (hcut.subset hc') rfl).1⟩
    · rcases store_of_first log hfile hholds rfl hc' with ⟨rfl, rfl⟩ | ⟨f, hf, e, he, hrows, rfl⟩
      · exact ⟨log.first, rfl, rfl⟩
      · obtain rfl := hfirst i f hf e he hrows
        exact ⟨log.first, rfl, rfl⟩

end Runs

/-- **Resuming.** Cut the first run anywhere after a checkpoint is stored, and
let a second run resume from it and read to the end. Every row has been
submitted, under checkpoints that name their files, exactly if all row events
are in the first file and each one not submitted whole by the first run has its
table map after the stored position. -/
theorem resumed_iff (log : Binlog V) (includesSnapshot : Bool) (cut : List (Effect V))
    (c : MysqlCheckpoint) (hcut : cut <+: syncCdc log includesSnapshot none)
    (hstored : storedCheckpoint cut = some c) :
    Resumed log (cut ++ syncCdc log includesSnapshot (some c)) ↔ Resumable log cut c :=
  ⟨resumable_of_resumed hcut hstored, resumed_of_resumable hcut hstored⟩

/-! ## One statement, two row events -/

def table : Text × Text := (['d'], ['t'])

def twoInserts : Binlog Nat where
  first := ⟨['a'], 4, [⟨10, .tableMap 7 table⟩, ⟨20, .writeRows 7 [1]⟩, ⟨30, .tableMap 7 table⟩,
    ⟨40, .writeRows 7 [2]⟩]⟩
  rest := [⟨['b'], 4, []⟩]
  names := by decide
  increasing := by decide
  started := by decide
  mapped := by decide

theorem resumed_twoInserts :
    Resumed twoInserts ((syncCdc twoInserts true none).take 3 ++
      syncCdc twoInserts true (some ⟨['a'], 20⟩)) := by
  refine (resumed_iff twoInserts true _ ⟨['a'], 20⟩ (List.take_prefix _ _) (by decide)).2 ⟨?_, ?_⟩
  · decide
  · intro e he ev hev hleft
    fin_cases he
    · cases hev
    · -- The first insert is in the checkpoint.
      cases hev
      obtain ⟨r, hr, hnot⟩ := hleft
      obtain rfl : r = 0 := Nat.lt_one_iff.1 hr
      exact absurd (by decide) hnot
    · cases hev
    · cases hev
      exact ⟨⟨30, .tableMap 7 table⟩, by decide⟩

def oneInsert : Binlog Nat where
  first := ⟨['a'], 4, [⟨10, .tableMap 7 table⟩, ⟨20, .writeRows 7 [1]⟩, ⟨30, .writeRows 7 [2]⟩]⟩
  rest := []
  names := by decide
  increasing := by decide
  started := by decide
  mapped := by decide

/-- The first run is cut after the checkpoint of the first row event; the run
from there has no table map for the second. -/
theorem resume_skips_rows :
    storedCheckpoint ((syncCdc oneInsert true none).take 3) = some ⟨['a'], 20⟩ ∧
      ¬ Resumed oneInsert ((syncCdc oneInsert true none).take 3 ++
        syncCdc oneInsert true (some ⟨['a'], 20⟩)) := by
  refine ⟨by decide, ?_⟩
  intro h
  have hsubmitted := h.submitted 0 _ rfl ⟨30, .writeRows 7 [2]⟩ (by decide) _ rfl 0 (by decide)
  exact absurd hsubmitted (by decide)

end Skippr.L11.Mysql
