import Skippr.Core.LTS
import Skippr.L6Lake.CdcFinalState

/-!
# DynamoDB CDC: an anchored scan and a stream from `LATEST`

In `SnapshotThenCdc` mode `sync_cdc` reads the clock, scans the table page by
page under that one order token, then asks every shard of the stream for an
iterator at `LATEST` and submits the records it reads from there
(plugins/data_source/dynamodb/src/dynamodb.rs). Meanwhile the table changes.

The token of the scan is the clock in 8 bytes, the token of a record its
sequence number in 16; a sink compares them byte by byte.
-/
namespace Skippr.L11.Dynamodb

open Skippr.L6.Cdc

/-! ## The table and its stream -/

inductive OperationType
  | insert
  | modify
  | remove
deriving DecidableEq, Repr

/-- A stream record, with new images, in the shard it was written to. -/
structure Record (K A : Type) where
  sequenceNumber : Nat
  shard : Nat
  eventName : OperationType
  keys : K
  newImage : Option A
deriving DecidableEq, Repr

/-- What a submitted row holds: the keys, and the other attributes unless the
image is that of the keys. -/
structure Row (K A : Type) where
  key : K
  attributes : Option A
deriving DecidableEq, Repr

variable {K A : Type}

/-! ## Tokens -/

/-- The clock in milliseconds, as 8 bytes.
mirrors dynamodb.rs:325-326 -/
def anchorBytes (millis : UInt64) : OrderToken := beBytes 8 millis.toNat

/-- A sequence number that is no `u128` is an error.
mirrors dynamodb.rs:657-666 -/
def sequenceNumberToOrderToken (seq : Nat) : Option OrderToken :=
  if seq < 2 ^ 128 then some (beBytes 16 seq) else none

/-! ## `consume_shard` -/

def mutationOf : OperationType → MutationKind
  | .insert => .insert
  | .modify => .update
  | .remove => .delete

/-- A delete is submitted with its keys, another change with its new image.
mirrors dynamodb.rs:523-548 -/
def Record.row (r : Record K A) : Row K A :=
  match mutationOf r.eventName with
  | .delete => ⟨r.keys, none⟩
  | _ => ⟨r.keys, r.newImage⟩

/-- mirrors dynamodb.rs:550-577 -/
def Record.event (r : Record K A) : Option (Event (Row K A)) :=
  (sequenceNumberToOrderToken r.sequenceNumber).map fun token =>
    ⟨mutationOf r.eventName, token, r.row⟩

/-- mirrors dynamodb.rs:212-241 -/
def scanEvent (anchor : UInt64) (k : K) (a : A) : Event (Row K A) :=
  ⟨.snapshot, anchorBytes anchor, ⟨k, some a⟩⟩

/-! ## The run -/

structure Scan (K : Type) where
  page : K → Nat
  pages : Nat
  covers : ∀ k, page k < pages

inductive Change (K A : Type)
  | scanned (k : K) (a : A)
  | record (r : Record K A)
deriving DecidableEq, Repr

structure St (K A : Type) where
  table : Map K A
  stream : List (Record K A)
  anchor : Option UInt64
  pagesRead : Nat
  /-- The shards `describe_stream` has listed. -/
  shards : Option (List Nat)
  /-- Per shard with an iterator, the place in the stream it reads next. -/
  iterators : Map Nat Nat
  submitted : List (Event (Row K A))
  /-- What is submitted or lies ahead of an iterator, as it came up. -/
  changes : List (Change K A)

inductive Lbl (K A : Type)
  | put (k : K) (a : A) (seq shard : Nat)
  | delete (k : K) (seq shard : Nat)
  | clock (millis : UInt64)
  | scanPage
  | describeStream (shards : List Nat)
  | getShardIterator (shard : Nat)
  | getRecords (shard : Nat)

section Step
variable [DecidableEq K]

def mutated (s : St K A) (table : Map K A) (r : Record K A) : St K A :=
  { s with
    table := table
    stream := s.stream ++ [r]
    changes := s.changes ++ if (s.iterators.get r.shard).isSome then [.record r] else [] }

def mutate (s : St K A) (table : Map K A) (r : Record K A) : Option (St K A) :=
  if ∀ r' ∈ s.stream, r'.sequenceNumber < r.sequenceNumber then some (mutated s table r) else none

def pageItems (scan : Scan K) (s : St K A) : List (K × A) :=
  s.table.toList.filter fun e => scan.page e.1 = s.pagesRead

/-- mirrors dynamodb.rs:157-271 -/
def scanPageStep (scan : Scan K) (s : St K A) (anchor : UInt64) : St K A :=
  let items := pageItems scan s
  { s with
    pagesRead := s.pagesRead + 1
    submitted := s.submitted ++ items.map fun e => scanEvent anchor e.1 e.2
    changes := s.changes ++ items.map fun e => .scanned e.1 e.2 }

/-- The record at the iterator, if it is of the shard, and the next place; a
record that cannot be submitted ends the sync.
mirrors dynamodb.rs:492-612 -/
def getRecordsStep (s : St K A) (shard pos : Nat) : Option (St K A) :=
  (s.stream[pos]?).bind fun r =>
    let iterators := s.iterators.insert shard (pos + 1)
    if r.shard = shard then
      r.event.map fun e => { s with iterators := iterators, submitted := s.submitted ++ [e] }
    else some { s with iterators := iterators }

/-- mirrors dynamodb.rs:282-358 and 385-436 -/
def step (scan : Scan K) (s : St K A) : Lbl K A → Option (St K A)
  | .put k a seq shard =>
    let eventName := if (s.table.get k).isSome then .modify else .insert
    mutate s (s.table.insert k a) ⟨seq, shard, eventName, k, some a⟩
  | .delete k seq shard => mutate s (s.table.erase k) ⟨seq, shard, .remove, k, none⟩
  | .clock millis => if s.anchor = none then some { s with anchor := some millis } else none
  | .scanPage =>
    s.anchor.bind fun anchor =>
      if s.pagesRead < scan.pages then some (scanPageStep scan s anchor) else none
  | .describeStream shards =>
    if s.pagesRead = scan.pages ∧ s.shards = none then some { s with shards := some shards } else none
  | .getShardIterator shard =>
    -- `LATEST`: from the end of the stream
    if (∃ shards ∈ s.shards, shard ∈ shards) ∧ s.iterators.get shard = none then
      some { s with iterators := s.iterators.insert shard s.stream.length }
    else none
  | .getRecords shard => (s.iterators.get shard).bind (getRecordsStep s shard)

def Initial (s : St K A) : Prop :=
  s.stream = [] ∧ s.anchor = none ∧ s.pagesRead = 0 ∧ s.shards = none ∧ s.iterators = ∅ ∧
    s.submitted = [] ∧ s.changes = []

def lts (scan : Scan K) : LTS (St K A) (Lbl K A) := LTS.ofFn Initial (step scan)

/-! ## The sink and the table -/

/-- Every listed shard has an iterator, and every iterator is at the end. -/
def ReadToEnd (s : St K A) : Prop :=
  (∃ shards ∈ s.shards, ∀ shard ∈ shards, s.iterators.get shard ≠ none) ∧
    ∀ shard pos, s.iterators.get shard = some pos → pos = s.stream.length

/-- The submitted event of greatest token leaves of every key what the table
has of it. -/
def SinkIsTable (s : St K A) : Prop :=
  ∀ k, (latest (fun row : Row K A => some row.key) k s.submitted).bind Event.effect =
    (s.table.get k).map fun a => ⟨k, some a⟩

/-- A change of `k` at this point: its page is still to be scanned; or the
stream is read from before it on, and its token is above the scan's. -/
def CaughtAt (scan : Scan K) (s : St K A) (k : K) (seq shard : Nat) : Prop :=
  s.pagesRead ≤ scan.page k ∨
    (s.iterators.get shard ≠ none ∧
      ((∃ e ∈ s.submitted, e.row.key = k ∧ e.mutation = .snapshot) →
        ∀ a ∈ s.anchor, a.toNat * 2 ^ 64 ≤ seq))

def Caught (scan : Scan K) (s : St K A) : Lbl K A → Prop
  | .put k _ seq shard => CaughtAt scan s k seq shard
  | .delete k seq shard => CaughtAt scan s k seq shard
  | _ => True

instance decidableCaughtAt (scan : Scan K) (s : St K A) (k : K) (seq shard : Nat) :
    Decidable (CaughtAt scan s k seq shard) :=
  -- not by trying every clock
  letI : Decidable (∀ a ∈ s.anchor, a.toNat * 2 ^ 64 ≤ seq) := Option.decidableForallMem _
  inferInstanceAs (Decidable (_ ∨ _ ∧ (_ → _)))

instance decidableCaught (scan : Scan K) (s : St K A) : DecidablePred (Caught scan s)
  | .put k _ seq shard => inferInstanceAs (Decidable (CaughtAt scan s k seq shard))
  | .delete k seq shard => inferInstanceAs (Decidable (CaughtAt scan s k seq shard))
  | .clock _ => .isTrue trivial
  | .scanPage => .isTrue trivial
  | .describeStream _ => .isTrue trivial
  | .getShardIterator _ => .isTrue trivial
  | .getRecords _ => .isTrue trivial

end Step

/-! ## The order of a key's events -/

def Change.key : Change K A → K
  | .scanned k _ => k
  | .record r => r.keys

def Change.event (anchor : UInt64) : Change K A → Option (Event (Row K A))
  | .scanned k a => some (scanEvent anchor k a)
  | .record r => r.event

def Change.leaves : Change K A → Option (Row K A)
  | .scanned k a => some ⟨k, some a⟩
  | .record r => if mutationOf r.eventName = .delete then none else some r.row

/-- The order of the tokens, in numbers: even for the scan, odd for records. -/
def Change.rank (anchor : UInt64) : Change K A → Nat
  | .scanned _ _ => 2 * (anchor.toNat * 2 ^ 64)
  | .record r => 2 * r.sequenceNumber + 1

variable {anchor : UInt64} {e : Event (Row K A)} {c : Change K A}

theorem scan_lt_record {seq : Nat} (hseq : seq < 2 ^ 128) :
    anchorBytes anchor < beBytes 16 seq ↔ anchor.toNat * 2 ^ 64 ≤ seq := by
  have ha : anchor.toNat < 256 ^ 8 := anchor.toNat_lt
  exact beBytes_lt_wider (v := 8) ha hseq (by decide)

theorem Record.event_some {r : Record K A} (h : r.event = some e) :
    r.sequenceNumber < 2 ^ 128 ∧ e = ⟨mutationOf r.eventName, beBytes 16 r.sequenceNumber, r.row⟩ := by
  unfold Record.event sequenceNumberToOrderToken at h
  split at h
  · rename_i hlt
    exact ⟨hlt, (Option.some.inj h).symm⟩
  · cases h

theorem token_lt_of_rank_lt {c' : Change K A} {e' : Event (Row K A)} (hc : c.event anchor = some e)
    (hc' : c'.event anchor = some e') (hlt : c.rank anchor < c'.rank anchor) :
    e.orderToken < e'.orderToken := by
  cases c with
  | scanned k a =>
    cases hc
    cases c' with
    | scanned k' a' => exact absurd hlt (Nat.lt_irrefl _)
    | record r' =>
      obtain ⟨hseq, rfl⟩ := r'.event_some hc'
      simp only [Change.rank] at hlt
      exact (scan_lt_record hseq).2 (by omega)
  | record r =>
    obtain ⟨hseq, rfl⟩ := r.event_some hc
    cases c' with
    | scanned k' a' =>
      cases hc'
      simp only [Change.rank] at hlt
      have hnot : ¬ anchorBytes anchor < beBytes 16 r.sequenceNumber := by
        rw [scan_lt_record hseq]
        omega
      -- The widths differ, so the tokens do.
      refine lt_of_le_of_ne (not_lt.1 hnot) ?_
      intro heq
      have hlen := congrArg List.length heq
      simp [anchorBytes, scanEvent] at hlen
    | record r' =>
      obtain ⟨hseq', rfl⟩ := r'.event_some hc'
      simp only [Change.rank] at hlt
      exact (beBytes_lt_iff hseq hseq').2 (by omega)

theorem Change.event_key (h : c.event anchor = some e) : e.row.key = c.key := by
  cases c with
  | scanned k a =>
    cases h
    rfl
  | record r =>
    obtain ⟨-, rfl⟩ := r.event_some h
    simp only [Record.row]
    split <;> rfl

theorem Change.event_effect (h : c.event anchor = some e) : e.effect = c.leaves := by
  cases c with
  | scanned k a =>
    cases h
    rfl
  | record r =>
    obtain ⟨-, rfl⟩ := r.event_some h
    rfl

/-! ## The invariant -/

section Invariant
variable [DecidableEq K] (scan : Scan K)

def St.anchorOf (s : St K A) : UInt64 := s.anchor.getD 0

def St.changesOf (s : St K A) (k : K) : List (Change K A) := ofKey (fun c => some c.key) k s.changes

def St.rowOf (s : St K A) (k : K) : Option (Row K A) := (s.table.get k).map fun a => ⟨k, some a⟩

/-- The changes of the key come in the order of their tokens, and the last of
them leaves what the table has. -/
def Settled (s : St K A) (k : K) : Prop :=
  (s.changesOf k).Pairwise (fun c c' => c.rank s.anchorOf < c'.rank s.anchorOf) ∧
    (s.changesOf k).getLast?.bind Change.leaves = s.rowOf k

def Ahead (s : St K A) (r : Record K A) : Prop :=
  ∃ i pos, s.stream[i]? = some r ∧ s.iterators.get r.shard = some pos ∧ pos ≤ i

structure Inv (s : St K A) : Prop where
  iterators : ∀ shard pos, s.iterators.get shard = some pos →
    s.pagesRead = scan.pages ∧ pos ≤ s.stream.length
  described : s.shards ≠ none → s.pagesRead = scan.pages
  anchored : s.anchor = none → s.changes = [] ∧ s.pagesRead = 0
  recorded : ∀ r, Change.record r ∈ s.changes → r ∈ s.stream
  ahead : ∀ r, Ahead s r → Change.record r ∈ s.changes
  came : ∀ c ∈ s.changes, (∃ e ∈ s.submitted, c.event s.anchorOf = some e) ∨
    ∃ r, c = .record r ∧ Ahead s r
  submitted : ∀ e ∈ s.submitted, ∃ c ∈ s.changes, c.event s.anchorOf = some e
  scanned : ∀ c ∈ s.changes, scan.page c.key < s.pagesRead
  settled : ∀ k, scan.page k < s.pagesRead → Settled s k

theorem inv_initial {s : St K A} (h : Initial s) : Inv scan s := by
  cases s
  obtain ⟨rfl, rfl, rfl, rfl, rfl, rfl, rfl⟩ := h
  refine ⟨?_, ?_, ?_, ?_, ?_, ?_, ?_, ?_, ?_⟩
  · intro shard pos hpos
    cases hpos
  · intro hne
    exact absurd rfl hne
  · intro _
    exact ⟨rfl, rfl⟩
  · intro r hr
    cases hr
  · rintro r ⟨i, pos, -, hpos, -⟩
    cases hpos
  · intro c hc
    cases hc
  · intro e he
    cases he
  · intro c hc
    cases hc
  · intro k hk
    exact absurd hk (Nat.not_lt_zero _)

theorem Inv.sinkIsTable {s : St K A} (h : Inv scan s) (hend : ReadToEnd s) : SinkIsTable s := by
  intro k
  obtain ⟨⟨shards, hshards, -⟩, hpos⟩ := hend
  have hpages := h.described (by rw [hshards]; exact Option.some_ne_none _)
  obtain ⟨hordered, hlast⟩ := h.settled k (by rw [hpages]; exact scan.covers k)
  -- Nothing lies ahead of an iterator any more.
  have hcame : ∀ c ∈ s.changes, ∃ e ∈ s.submitted, c.event s.anchorOf = some e := by
    intro c hc
    rcases h.came c hc with hdone | ⟨r, rfl, i, pos, hi, hget, hle⟩
    · exact hdone
    · have hlt := (List.getElem?_eq_some_iff.1 hi).1
      rw [hpos r.shard pos hget] at hle
      omega
  have hof : ∀ e ∈ ofKey (Event.key fun row : Row K A => some row.key) k s.submitted,
      ∃ c ∈ s.changesOf k, c.event s.anchorOf = some e := by
    intro e he
    obtain ⟨he, hkey⟩ := (mem_ofKey _ _).1 he
    obtain ⟨c, hc, hevent⟩ := h.submitted e he
    refine ⟨c, (mem_ofKey _ _).2 ⟨hc, ?_⟩, hevent⟩
    rw [← Change.event_key hevent]
    exact hkey
  change _ = s.rowOf k
  rw [← hlast, latest]
  rcases List.eq_nil_or_concat' (s.changesOf k) with hnil | ⟨before, c, hc⟩
  · have hempty : ofKey (Event.key fun row : Row K A => some row.key) k s.submitted = [] := by
      refine List.eq_nil_iff_forall_not_mem.2 fun e he => ?_
      obtain ⟨c, hc, -⟩ := hof e he
      rw [hnil] at hc
      cases hc
    rw [hnil, hempty]
    rfl
  · have hmem : c ∈ s.changesOf k := by
      rw [hc]
      exact List.mem_append_right _ (List.mem_singleton_self _)
    obtain ⟨hchange, hkey⟩ := (mem_ofKey _ _).1 hmem
    obtain ⟨e, he, hevent⟩ := hcame c hchange
    have hbelow : ∀ c' ∈ s.changesOf k, c' = c ∨ c'.rank s.anchorOf < c.rank s.anchorOf := by
      intro c' hc'
      rw [hc] at hordered hc'
      rcases List.mem_append.1 hc' with hc' | hc'
      · exact .inr ((List.pairwise_append.1 hordered).2.2 c' hc' c (List.mem_singleton_self _))
      · exact .inl (List.mem_singleton.1 hc')
    have hwins : ∀ e' ∈ ofKey (Event.key fun row : Row K A => some row.key) k s.submitted,
        e' = e ∨ e'.orderToken < e.orderToken := by
      intro e' he'
      obtain ⟨c', hc', hevent'⟩ := hof e' he'
      rcases hbelow c' hc' with rfl | hlt
      · exact .inl (Option.some.inj (hevent'.symm.trans hevent))
      · exact .inr (token_lt_of_rank_lt hevent' hevent hlt)
    have hgreatest := greatest_eq_some Event.orderToken
      ((mem_ofKey _ _).2 ⟨he, by rw [← hkey, ← Change.event_key hevent]; rfl⟩)
      (fun e' he' => (hwins e' he').elim (fun heq => heq ▸ le_refl _) le_of_lt)
      (fun e' he' heq => (hwins e' he').elim id fun hlt => absurd (heq ▸ hlt) (lt_irrefl _))
    rw [hgreatest, hc, List.getLast?_append]
    exact Change.event_effect hevent

/-! ## The steps keep it -/

variable {scan} {s : St K A}

variable {s' : St K A} {k : K}

theorem settled_of_same (h : Settled s k) (hanchor : s'.anchor = s.anchor)
    (hchanges : s'.changesOf k = s.changesOf k) (htable : s'.table.get k = s.table.get k) :
    Settled s' k := by
  unfold Settled St.rowOf St.anchorOf at *
  rw [hanchor, hchanges, htable]
  exact h

theorem changesOf_append {l : List (Change K A)} (h : s'.changes = s.changes ++ l) :
    s'.changesOf k = s.changesOf k ++ ofKey (fun c => some c.key) k l := by
  unfold St.changesOf
  rw [h, ofKey_append]

theorem ofKey_record {r : Record K A} :
    ofKey (fun c : Change K A => some c.key) k [.record r] = if r.keys = k then [.record r] else [] := by
  unfold ofKey
  by_cases hk : r.keys = k <;> simp [Change.key, hk]

theorem rank_lt_record (h : Inv scan s) {r : Record K A}
    (hseq : ∀ r' ∈ s.stream, r'.sequenceNumber < r.sequenceNumber)
    (hscan : (∃ e ∈ s.submitted, e.row.key = r.keys ∧ e.mutation = .snapshot) →
      ∀ a ∈ s.anchor, a.toNat * 2 ^ 64 ≤ r.sequenceNumber) :
    ∀ c ∈ s.changesOf r.keys, c.rank s.anchorOf < (Change.record r).rank s.anchorOf := by
  intro c hc
  obtain ⟨hc, hkey⟩ := (mem_ofKey _ _).1 hc
  cases c with
  | scanned k a =>
    -- The row of the scan is submitted, so the anchor is known to be below.
    obtain rfl : k = r.keys := Option.some.inj hkey
    have hanchored : s.anchor = some s.anchorOf := by
      cases hnone : s.anchor with
      | none =>
        rw [(h.anchored hnone).1] at hc
        cases hc
      | some a => simp [St.anchorOf, hnone]
    rcases h.came _ hc with ⟨e, he, hevent⟩ | ⟨r', hr', -⟩
    · cases hevent
      have hle := hscan ⟨_, he, rfl, rfl⟩ _ hanchored
      simp only [Change.rank]
      omega
    · cases hr'
  | record r' =>
    have hlt := hseq r' (h.recorded r' hc)
    simp only [Change.rank]
    omega

section Mutated
variable {table : Map K A} {r : Record K A}

omit [DecidableEq K] in
theorem mem_changes_mutated {c : Change K A} :
    c ∈ (mutated s table r).changes ↔
      c ∈ s.changes ∨ ((s.iterators.get r.shard).isSome ∧ c = .record r) := by
  simp only [mutated, List.mem_append]
  split
  · rename_i hsome
    simp [hsome]
  · rename_i hnone
    simp [hnone]

theorem ahead_mutated (h : Inv scan s) {r' : Record K A} :
    Ahead (mutated s table r) r' ↔ Ahead s r' ∨ ((s.iterators.get r.shard).isSome ∧ r' = r) := by
  constructor
  · rintro ⟨i, pos, hi, hget, hle⟩
    simp only [mutated] at hi hget
    by_cases hlt : i < s.stream.length
    · rw [List.getElem?_append_left hlt] at hi
      exact .inl ⟨i, pos, hi, hget, hle⟩
    · have hi' := (List.getElem?_eq_some_iff.1 hi).1
      rw [List.length_append, List.length_singleton] at hi'
      obtain rfl : i = s.stream.length := by omega
      rw [List.getElem?_concat_length] at hi
      cases hi
      exact .inr ⟨by rw [hget]; rfl, rfl⟩
  · rintro (⟨i, pos, hi, hget, hle⟩ | ⟨hsome, rfl⟩)
    · refine ⟨i, pos, ?_, hget, hle⟩
      simp only [mutated]
      rw [List.getElem?_append_left (List.getElem?_eq_some_iff.1 hi).1]
      exact hi
    · obtain ⟨pos, hpos⟩ := Option.isSome_iff_exists.1 hsome
      exact ⟨s.stream.length, pos, List.getElem?_concat_length, hpos, (h.iterators _ _ hpos).2⟩

theorem settled_mutated (h : Inv scan s)
    (hcaught : CaughtAt scan s r.keys r.sequenceNumber r.shard)
    (hseq : ∀ r' ∈ s.stream, r'.sequenceNumber < r.sequenceNumber)
    (hother : ∀ k, k ≠ r.keys → table.get k = s.table.get k)
    (hleaves : (Change.record r).leaves = (table.get r.keys).map fun a => ⟨r.keys, some a⟩)
    {k : K} (hk : scan.page k < s.pagesRead) : Settled (mutated s table r) k := by
  have hsettled := h.settled k hk
  by_cases hkey : k = r.keys
  · subst hkey
    -- The page of the key is scanned, so the stream is read from before here.
    rcases hcaught with hpage | ⟨hiterator, hscan⟩
    · omega
    · have hof : (mutated s table r).changesOf r.keys = s.changesOf r.keys ++ [.record r] := by
        rw [changesOf_append (s := s) (l := [.record r]), ofKey_record, if_pos rfl]
        simp [mutated, Option.isSome_iff_ne_none, hiterator]
      refine ⟨?_, ?_⟩
      · rw [hof, List.pairwise_append]
        refine ⟨hsettled.1, List.pairwise_singleton _ _, ?_⟩
        intro c hc c' hc'
        rw [List.mem_singleton.1 hc']
        exact rank_lt_record h hseq hscan c hc
      · rw [hof, List.getLast?_append]
        exact hleaves
  · refine settled_of_same hsettled rfl ?_ (hother k hkey)
    rw [changesOf_append (s := s) rfl]
    split
    · rw [ofKey_record, if_neg (Ne.symm hkey), List.append_nil]
    · rw [ofKey_nil, List.append_nil]

theorem inv_mutate (h : Inv scan s) {s' : St K A} (hstep : mutate s table r = some s')
    (hcaught : CaughtAt scan s r.keys r.sequenceNumber r.shard)
    (hother : ∀ k, k ≠ r.keys → table.get k = s.table.get k)
    (hleaves : (Change.record r).leaves = (table.get r.keys).map fun a => ⟨r.keys, some a⟩) :
    Inv scan s' := by
  obtain ⟨hseq, rfl⟩ := of_guard hstep
  -- A shard with an iterator means that the scan is over.
  have hpages : (s.iterators.get r.shard).isSome → s.pagesRead = scan.pages := by
    intro hsome
    obtain ⟨pos, hpos⟩ := Option.isSome_iff_exists.1 hsome
    exact (h.iterators _ _ hpos).1
  refine ⟨?_, h.described, ?_, ?_, ?_, ?_, ?_, ?_, ?_⟩
  · intro shard pos hpos
    obtain ⟨hread, hle⟩ := h.iterators shard pos hpos
    refine ⟨hread, ?_⟩
    simp only [mutated, List.length_append]
    omega
  · intro hnone
    obtain ⟨hchanges, hzero⟩ := h.anchored hnone
    refine ⟨?_, hzero⟩
    have hno : ¬ (s.iterators.get r.shard).isSome := by
      intro hsome
      have hcovers := scan.covers r.keys
      have hread := hpages hsome
      omega
    simp [mutated, hchanges, hno]
  · intro r' hr'
    rcases mem_changes_mutated.1 hr' with hold | ⟨-, hnew⟩
    · exact List.mem_append_left _ (h.recorded r' hold)
    · cases hnew
      exact List.mem_append_right _ (List.mem_singleton_self _)
  · intro r' hr'
    rcases (ahead_mutated h).1 hr' with hold | ⟨hsome, rfl⟩
    · exact mem_changes_mutated.2 (.inl (h.ahead r' hold))
    · exact mem_changes_mutated.2 (.inr ⟨hsome, rfl⟩)
  · intro c hc
    rcases mem_changes_mutated.1 hc with hold | ⟨hsome, rfl⟩
    · rcases h.came c hold with hdone | ⟨r', rfl, hr'⟩
      · exact .inl hdone
      · exact .inr ⟨r', rfl, (ahead_mutated h).2 (.inl hr')⟩
    · exact .inr ⟨r, rfl, (ahead_mutated h).2 (.inr ⟨hsome, rfl⟩)⟩
  · intro e he
    obtain ⟨c, hc, hevent⟩ := h.submitted e he
    exact ⟨c, mem_changes_mutated.2 (.inl hc), hevent⟩
  · intro c hc
    rcases mem_changes_mutated.1 hc with hold | ⟨hsome, rfl⟩
    · exact h.scanned c hold
    · show scan.page r.keys < s.pagesRead
      rw [hpages hsome]
      exact scan.covers r.keys
  · intro k hk
    exact settled_mutated h hcaught hseq hother hleaves hk

end Mutated

/-! ### The scan -/

theorem inv_clock (h : Inv scan s) (hnone : s.anchor = none) (millis : UInt64) :
    Inv scan { s with anchor := some millis } := by
  obtain ⟨hchanges, hzero⟩ := h.anchored hnone
  have hsubmitted : s.submitted = [] := by
    refine List.eq_nil_iff_forall_not_mem.2 fun e he => ?_
    obtain ⟨c, hc, -⟩ := h.submitted e he
    rw [hchanges] at hc
    cases hc
  refine ⟨h.iterators, h.described, ?_, h.recorded, h.ahead, ?_, ?_, h.scanned, ?_⟩
  · intro hcontra
    cases hcontra
  · intro c hc
    simp only [hchanges] at hc
    cases hc
  · intro e he
    simp only [hsubmitted] at he
    cases he
  · intro k hk
    simp only [hzero] at hk
    exact absurd hk (Nat.not_lt_zero _)

theorem ofKey_pageItems (hk : scan.page k = s.pagesRead) :
    ofKey (fun c : Change K A => some c.key) k
        ((pageItems scan s).map fun e => Change.scanned e.1 e.2) =
      (s.table.get k).toList.map (Change.scanned k) := by
  rw [ofKey_map]
  have hfilter : ofKey (fun e : K × A => some (Change.scanned e.1 e.2).key) k (pageItems scan s) =
      s.table.toList.filter fun e => e.1 = k := by
    unfold ofKey pageItems
    rw [List.filter_filter]
    refine List.filter_congr ?_
    rintro ⟨k', a⟩ -
    by_cases heq : k' = k
    · simp [Change.key, heq, hk]
    · simp [Change.key, heq]
  rw [hfilter, Map.filter_toList, List.map_map]
  rfl

omit [DecidableEq K] in
theorem page_of_item {e : K × A} (he : e ∈ pageItems scan s) : scan.page e.1 = s.pagesRead := by
  simpa using (List.mem_filter.1 he).2

theorem settled_scanPage (h : Inv scan s) (anchor : UInt64) (hk : scan.page k < s.pagesRead + 1) :
    Settled (scanPageStep scan s anchor) k := by
  have hof : (scanPageStep scan s anchor).changesOf k = s.changesOf k ++ ofKey (fun c => some c.key) k
      ((pageItems scan s).map fun e => Change.scanned e.1 e.2) := changesOf_append rfl
  by_cases hpage : scan.page k < s.pagesRead
  · refine settled_of_same (h.settled k hpage) rfl ?_ rfl
    rw [hof]
    refine List.append_right_eq_self.2 (List.eq_nil_iff_forall_not_mem.2 fun c hc => ?_)
    obtain ⟨hc, hkey⟩ := (mem_ofKey _ _).1 hc
    obtain ⟨e, he, rfl⟩ := List.mem_map.1 hc
    obtain rfl : e.1 = k := Option.some.inj hkey
    have := page_of_item he
    omega
  · -- The page is that of the key, which had no change before.
    have hk' : scan.page k = s.pagesRead := by omega
    have hnil : s.changesOf k = [] := by
      refine List.eq_nil_iff_forall_not_mem.2 fun c hc => ?_
      obtain ⟨hchange, hkey⟩ := (mem_ofKey _ _).1 hc
      obtain rfl : c.key = k := Option.some.inj hkey
      exact hpage (h.scanned c hchange)
    rw [hnil, List.nil_append, ofKey_pageItems hk'] at hof
    unfold Settled St.rowOf
    rw [hof, show (scanPageStep scan s anchor).table = s.table from rfl]
    cases s.table.get k with
    | none => exact ⟨List.Pairwise.nil, rfl⟩
    | some a => exact ⟨List.pairwise_singleton _ _, rfl⟩

theorem inv_scanPage (h : Inv scan s) {anchor : UInt64} (hanchor : s.anchor = some anchor)
    (hlt : s.pagesRead < scan.pages) : Inv scan (scanPageStep scan s anchor) := by
  have hanchorOf : s.anchorOf = anchor := by simp [St.anchorOf, hanchor]
  have hno : ∀ shard, s.iterators.get shard = none := by
    intro shard
    cases hget : s.iterators.get shard with
    | none => rfl
    | some pos =>
      have := (h.iterators shard pos hget).1
      omega
  have hevent : ∀ item : K × A, (Change.scanned item.1 item.2).event s.anchorOf =
      some (scanEvent anchor item.1 item.2) := by
    intro item
    rw [hanchorOf]
    rfl
  refine ⟨?_, ?_, ?_, ?_, ?_, ?_, ?_, ?_, ?_⟩
  · intro shard pos hpos
    rw [show (scanPageStep scan s anchor).iterators = s.iterators from rfl, hno] at hpos
    cases hpos
  · intro hshards
    have := h.described hshards
    omega
  · intro hnone
    rw [show (scanPageStep scan s anchor).anchor = s.anchor from rfl, hanchor] at hnone
    cases hnone
  · intro r hr
    rcases List.mem_append.1 hr with hold | hnew
    · exact h.recorded r hold
    · obtain ⟨e, -, heq⟩ := List.mem_map.1 hnew
      cases heq
  · rintro r ⟨i, pos, -, hget, -⟩
    rw [show (scanPageStep scan s anchor).iterators = s.iterators from rfl, hno] at hget
    cases hget
  · intro c hc
    left
    rcases List.mem_append.1 hc with hold | hnew
    · rcases h.came c hold with ⟨e, he, hevent⟩ | ⟨r, -, i, pos, -, hget, -⟩
      · exact ⟨e, List.mem_append_left _ he, hevent⟩
      · rw [hno] at hget
        cases hget
    · obtain ⟨e, he, rfl⟩ := List.mem_map.1 hnew
      exact ⟨_, List.mem_append_right _ (List.mem_map_of_mem he), hevent e⟩
  · intro e he
    rcases List.mem_append.1 he with hold | hnew
    · obtain ⟨c, hc, hevent⟩ := h.submitted e hold
      exact ⟨c, List.mem_append_left _ hc, hevent⟩
    · obtain ⟨item, hitem, rfl⟩ := List.mem_map.1 hnew
      exact ⟨_, List.mem_append_right _ (List.mem_map_of_mem hitem), hevent item⟩
  · intro c hc
    show scan.page c.key < s.pagesRead + 1
    rcases List.mem_append.1 hc with hold | hnew
    · have := h.scanned c hold
      omega
    · obtain ⟨e, he, rfl⟩ := List.mem_map.1 hnew
      have := page_of_item he
      simp only [Change.key]
      omega
  · intro k hk
    exact settled_scanPage h anchor hk

/-! ### The stream -/

theorem inv_stream (h : Inv scan s) (iterators : Map Nat Nat) {l : List (Event (Row K A))}
    (hs' : s' = { s with iterators := iterators, submitted := s.submitted ++ l })
    (hiterators : ∀ shard pos, iterators.get shard = some pos →
      s.pagesRead = scan.pages ∧ pos ≤ s.stream.length) (hahead : ∀ r, Ahead s' r → Ahead s r)
    (hcame : ∀ r, Ahead s r → Ahead s' r ∨ ∃ e ∈ l, r.event = some e)
    (hl : ∀ e ∈ l, ∃ r, Ahead s r ∧ r.event = some e) : Inv scan s' := by
  subst hs'
  refine ⟨hiterators, h.described, h.anchored, h.recorded, fun r hr => h.ahead r (hahead r hr), ?_, ?_,
    h.scanned, h.settled⟩
  · intro c hc
    rcases h.came c hc with ⟨e, he, hevent⟩ | ⟨r, rfl, hr⟩
    · exact .inl ⟨e, List.mem_append_left _ he, hevent⟩
    · rcases hcame r hr with hr' | ⟨e, he, hevent⟩
      · exact .inr ⟨r, rfl, hr'⟩
      · exact .inl ⟨e, List.mem_append_right _ he, hevent⟩
  · intro e he
    rcases List.mem_append.1 he with hold | hnew
    · exact h.submitted e hold
    · obtain ⟨r, hr, hevent⟩ := hl e hnew
      exact ⟨.record r, h.ahead r hr, hevent⟩

theorem inv_getShardIterator (h : Inv scan s) {shard : Nat} (hpages : s.pagesRead = scan.pages)
    (hnone : s.iterators.get shard = none) :
    Inv scan { s with iterators := s.iterators.insert shard s.stream.length } := by
  refine inv_stream (l := []) h (s.iterators.insert shard s.stream.length) (by simp) ?_ ?_ ?_ ?_
  · intro shard' pos hpos
    rcases Map.get_insert_cases hpos with ⟨-, rfl⟩ | ⟨-, hpos⟩
    · exact ⟨hpages, le_refl _⟩
    · exact h.iterators shard' pos hpos
  · rintro r ⟨i, pos, hi, hget, hle⟩
    rcases Map.get_insert_cases hget with ⟨-, rfl⟩ | ⟨-, hget⟩
    · exact absurd (List.getElem?_eq_some_iff.1 hi).1 (not_lt.2 hle)
    · exact ⟨i, pos, hi, hget, hle⟩
  · rintro r ⟨i, pos, hi, hget, hle⟩
    left
    refine ⟨i, pos, hi, ?_, hle⟩
    have hne : r.shard ≠ shard := by
      intro heq
      rw [heq, hnone] at hget
      cases hget
    simp only [Map.get_insert, if_neg hne]
    exact hget
  · intro e he
    cases he

theorem inv_getRecords (h : Inv scan s) {shard pos : Nat} (hpos : s.iterators.get shard = some pos)
    (hstep : getRecordsStep s shard pos = some s') : Inv scan s' := by
  unfold getRecordsStep at hstep
  obtain ⟨r, hr, hstep⟩ := Option.bind_eq_some_iff.1 hstep
  have hread : ∀ l : List (Event (Row K A)), (r.shard = shard → ∃ e ∈ l, r.event = some e) →
      (∀ e ∈ l, r.shard = shard ∧ r.event = some e) →
      Inv scan { s with iterators := s.iterators.insert shard (pos + 1), submitted := s.submitted ++ l } := by
    intro l hsent hl
    refine inv_stream h _ rfl ?_ ?_ ?_ ?_
    · intro shard' pos' hget
      rcases Map.get_insert_cases hget with ⟨-, rfl⟩ | ⟨-, hold⟩
      · exact ⟨(h.iterators shard pos hpos).1, (List.getElem?_eq_some_iff.1 hr).1⟩
      · exact h.iterators shard' pos' hold
    · rintro r' ⟨i, pos', hi, hget, hle⟩
      rcases Map.get_insert_cases hget with ⟨heq, rfl⟩ | ⟨-, hold⟩
      · exact ⟨i, pos, hi, heq ▸ hpos, by omega⟩
      · exact ⟨i, pos', hi, hold, hle⟩
    · -- What lay ahead still does, apart from the record read.
      rintro r' ⟨i, pos', hi, hget, hle⟩
      by_cases heq : r'.shard = shard
      · obtain rfl : pos = pos' := by
          rw [heq, hpos] at hget
          exact Option.some.inj hget
        by_cases hat : i = pos
        · subst hat
          obtain rfl : r' = r := Option.some.inj (hi.symm.trans hr)
          exact .inr (hsent heq)
        · exact .inl ⟨i, pos + 1, hi, (Map.get_insert ..).trans (if_pos heq), by omega⟩
      · exact .inl ⟨i, pos', hi, (Map.get_insert ..).trans ((if_neg heq).trans hget), hle⟩
    · intro e he
      obtain ⟨hshard, hevent⟩ := hl e he
      exact ⟨r, ⟨pos, pos, hr, hshard ▸ hpos, le_refl _⟩, hevent⟩
  split at hstep
  · rename_i hshard
    obtain ⟨e, he, rfl⟩ := Option.map_eq_some_iff.1 hstep
    exact hread [e] (fun _ => ⟨e, List.mem_singleton_self _, he⟩)
      fun e' he' => ⟨hshard, List.mem_singleton.1 he' ▸ he⟩
  · rename_i hshard
    cases hstep
    have hnone := hread [] (absurd · hshard) nofun
    rw [List.append_nil] at hnone
    exact hnone

/-! ### A whole run -/

theorem inv_step {l : Lbl K A} (h : Inv scan s) (hcaught : Caught scan s l)
    (hstep : step scan s l = some s') : Inv scan s' := by
  cases l with
  | put k a seq shard =>
    refine inv_mutate h hstep hcaught ?_ ?_
    · intro k' hk'
      rw [Map.get_insert, if_neg hk']
    · rw [Map.get_insert, if_pos rfl]
      cases s.table.get k <;> rfl
  | delete k seq shard =>
    refine inv_mutate h hstep hcaught ?_ ?_
    · intro k' hk'
      rw [Map.get_erase, if_neg hk']
    · rw [Map.get_erase, if_pos rfl]
      rfl
  | clock millis =>
    obtain ⟨hguard, rfl⟩ := of_guard hstep
    exact inv_clock h hguard millis
  | scanPage =>
    obtain ⟨anchor, hanchor, hstep⟩ := Option.bind_eq_some_iff.1 hstep
    obtain ⟨hguard, rfl⟩ := of_guard hstep
    exact inv_scanPage h hanchor hguard
  | describeStream shards =>
    obtain ⟨hguard, rfl⟩ := of_guard hstep
    exact { h with described := fun _ => hguard.1 }
  | getShardIterator shard =>
    obtain ⟨⟨⟨shards, hshards, -⟩, hnone⟩, rfl⟩ := of_guard hstep
    refine inv_getShardIterator h (h.described ?_) hnone
    rw [hshards]
    exact Option.some_ne_none _
  | getRecords shard =>
    obtain ⟨pos, hpos, hstep⟩ := Option.bind_eq_some_iff.1 hstep
    exact inv_getRecords h hpos hstep

theorem inv_inductive : ((lts (A := A) scan).restrict (Caught scan)).Inductive (Inv scan) := by
  refine ⟨fun s h => inv_initial scan h, ?_⟩
  rintro s l s' h ⟨hcaught, hstep⟩
  exact inv_step h hcaught hstep

/-- If every change of the table is one of a key still to be scanned, or comes
when its shard is being read and with a token above the scan's, then a sink that
has the stream read to its end has the table. -/
theorem caught_up (scan : Scan K) (s : St K A)
    (h : ((lts scan).restrict (Caught scan)).Reachable s) (hend : ReadToEnd s) : SinkIsTable s :=
  (inv_inductive.reachable s h).sinkIsTable scan hend

end Invariant

/-! ## A run that catches up, and one that does not -/

theorem readToEnd_iff {s : St K A} : ReadToEnd s ↔
    (∃ shards ∈ s.shards, ∀ shard ∈ shards, s.iterators.get shard ≠ none) ∧
      ∀ e ∈ s.iterators.toList, e.2 = s.stream.length := by
  unfold ReadToEnd
  simp only [Map.mem_toList, Prod.forall]

instance decidableReadToEnd (s : St K A) : Decidable (ReadToEnd s) := decidable_of_iff' _ readToEnd_iff

def onePage : Scan Nat := ⟨fun _ => 0, 1, fun _ => Nat.one_pos⟩

def oneRow : St Nat Nat := ⟨AList.insert 1 7 ∅, [], none, 0, none, ∅, [], []⟩

theorem initial_oneRow : Initial oneRow := ⟨rfl, rfl, rfl, rfl, rfl, rfl, rfl⟩

def synced : List (Lbl Nat Nat) :=
  [.clock 1700000000000, .scanPage, .describeStream [0], .getShardIterator 0]

theorem caught_up_twoChanges :
    ∃ s : St Nat Nat, ((lts onePage).restrict (Caught onePage)).Reachable s ∧ s.submitted.length = 3 ∧
      ReadToEnd s ∧ SinkIsTable s := by
  obtain ⟨s, hreach, hlen, hend⟩ : ∃ s, ((lts onePage).restrict (Caught onePage)).Reachable s ∧
      s.submitted.length = 3 ∧ ReadToEnd s :=
    exists_restrict_reachable (synced ++ [.put 2 5 400000000000000000000000000 0,
      .delete 1 4000000000000000000000000000000000 0, .getRecords 0, .getRecords 0]) initial_oneRow
      (by decide +kernel)
  exact ⟨s, hreach, hlen, hend, caught_up onePage s hreach hend⟩

/-- The third byte of the clock is 1 and that of a sequence number of 28 digits
is 0, so the row of the scan has the greater token. -/
theorem update_under_anchor :
    ∃ s : St Nat Nat, (lts onePage).Reachable s ∧ ReadToEnd s ∧ ¬ SinkIsTable s := by
  obtain ⟨s, hreach, hend, hne⟩ : ∃ s, (lts onePage).Reachable s ∧ ReadToEnd s ∧
      (latest (fun row : Row Nat Nat => some row.key) 1 s.submitted).bind Event.effect ≠
        (s.table.get 1).map fun a => ⟨1, some a⟩ :=
    exists_reachable (synced ++ [.put 1 8 4421584500000000017450439091 0, .getRecords 0])
      initial_oneRow (by decide +kernel)
  exact ⟨s, hreach, hend, fun hsink => hne (hsink 1)⟩

end Skippr.L11.Dynamodb
