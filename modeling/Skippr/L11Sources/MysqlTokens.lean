import Skippr.L11Sources.MysqlBinlog
import Skippr.L6Lake.CdcFinalState

/-!
# Order tokens of the MySQL binlog

The order token of a row packs the header's timestamp and position, not the file
the position is in (plugins/data_source/mysql/src/mysql.rs).
-/
namespace Skippr.L11.Mysql
open Skippr.L6.Cdc (OrderToken latest)

/-- mirrors mysql.rs:198-201 -/
def binlogOrderToken (timestamp : UInt32) (position : UInt64) : OrderToken :=
  beBytes 8 ((timestamp.toUInt64 <<< 32) ||| (position &&& 0xFFFFFFFF)).toNat

theorem packed (t : UInt32) (p : UInt64) :
    ((t.toUInt64 <<< 32) ||| (p &&& 0xFFFFFFFF)).toNat = t.toNat * 2 ^ 32 + p.toNat % 2 ^ 32 := by
  have ht := t.toNat_lt
  have hmask : p.toNat &&& 0xFFFFFFFF = p.toNat % 2 ^ 32 := Nat.and_two_pow_sub_one_eq_mod _ 32
  rw [UInt64.toNat_or, UInt64.toNat_and, UInt64.toNat_shiftLeft, UInt32.toNat_toUInt64]
  simp only [UInt64.reduceToNat, Nat.reduceMod, hmask]
  rw [Nat.mod_eq_of_lt (by omega), ← Nat.shiftLeft_add_eq_or_of_lt (by omega), Nat.shiftLeft_eq]

theorem binlogOrderToken_lt_iff {t t' : UInt32} (h : t ≤ t') (p p' : UInt64) :
    binlogOrderToken t p < binlogOrderToken t' p' ↔
      (t = t' → p.toNat % 2 ^ 32 < p'.toNat % 2 ^ 32) := by
  have ht := t.toNat_lt
  have ht' := t'.toNat_lt
  rw [UInt32.le_iff_toNat_le] at h
  rw [binlogOrderToken, binlogOrderToken, packed, packed, beBytes_lt_iff (by omega) (by omega),
    ← UInt32.toNat_inj]
  omega

variable {V K : Type}

/-- An event as the stream gives it, with its header and the file it stands in. -/
structure Logged (V : Type) where
  file : Nat
  timestamp : UInt32
  logPos : UInt32
  body : Body V

/-- Binlog order: positions grow in a file and restart in the next. -/
def Logged.Before (a b : Logged V) : Prop :=
  a.timestamp ≤ b.timestamp ∧ (a.file < b.file ∨ a.file = b.file ∧ a.logPos < b.logPos)

structure Change (V : Type) where
  source : Logged V
  mutation : MutationKind
  values : V

def changes (e : Logged V) : List (Change V) :=
  match e.body.rowsEvent with
  | none => []
  | some ev => ev.values.map (⟨e, ev.mutation, ·⟩)

def MutationKind.wal : MutationKind → L6.Cdc.MutationKind
  | .insert => .insert
  | .update => .update
  | .delete => .delete

/-- mirrors mysql.rs:454-503 -/
def Change.event (c : Change V) : L6.Cdc.Event V :=
  ⟨c.mutation.wal, binlogOrderToken c.source.timestamp c.source.logPos.toUInt64, c.values⟩

/-- The snapshot, taken at the captured position, then the binlog.
mirrors mysql.rs:267 and 305-322 -/
def cdcEvents (binlogPos : UInt64) (rows : List V) (log : List (Logged V)) : List (L6.Cdc.Event V) :=
  rows.map (⟨.snapshot, binlogOrderToken 0 binlogPos, ·⟩) ++ (log.flatMap changes).map Change.event

theorem source_of_mem {e : Logged V} {c : Change V} (h : c ∈ changes e) : c.source = e := by
  unfold changes at h
  split at h
  · cases h
  · obtain ⟨v, -, rfl⟩ := List.mem_map.1 h
    rfl

theorem changes_ordered {log : List (Logged V)} (h : log.Pairwise Logged.Before) :
    (log.flatMap changes).Pairwise fun a b => a.source.timestamp ≤ b.source.timestamp := by
  refine List.pairwise_flatMap.2 ⟨fun e _ => ?_, h.imp fun hab a ha b hb => ?_⟩
  · refine List.pairwise_of_forall_mem_list fun a ha b hb => ?_
    rw [source_of_mem ha, source_of_mem hb]
    exact UInt32.le_refl _
  · rw [source_of_mem ha, source_of_mem hb]
    exact hab.1

variable [DecidableEq K]

def keyChanges (key : V → Option K) (k : K) (log : List (Logged V)) : List (Change V) :=
  ofKey (fun c => key c.values) k (log.flatMap changes)

variable {key : V → Option K} {k : K} {binlogPos : UInt64} {log : List (Logged V)}

theorem latest_of_increasing {c : Change V} (rows : List V)
    (hinc : (keyChanges key k log).Pairwise (·.event.orderToken < ·.event.orderToken))
    (habove : ∀ c ∈ keyChanges key k log, binlogOrderToken 0 binlogPos < c.event.orderToken)
    (hlast : (keyChanges key k log).getLast? = some c) :
    latest key k (cdcEvents binlogPos rows log) = some c.event := by
  obtain ⟨l, hl⟩ := List.getLast?_eq_some_iff.1 hlast
  rw [hl] at hinc habove
  have hof : ofKey (L6.Cdc.Event.key key) k ((log.flatMap changes).map Change.event) =
      (l ++ [c]).map Change.event := by rw [← hl]; exact ofKey_map ..
  have hbelow : ∀ e ∈ ofKey (L6.Cdc.Event.key key) k (cdcEvents binlogPos rows log),
      e = c.event ∨ e.orderToken < c.event.orderToken := by
    intro e he
    rw [cdcEvents, ofKey_append, hof, List.mem_append] at he
    rcases he with he | he
    · obtain ⟨row, -, rfl⟩ := List.mem_map.1 ((mem_ofKey _ _).1 he).1
      exact .inr (habove c (by simp))
    · obtain ⟨b, hb, rfl⟩ := List.mem_map.1 he
      rcases List.mem_append.1 hb with hb | hb
      · exact .inr ((List.pairwise_append.1 hinc).2.2 b hb c (List.mem_singleton_self c))
      · exact .inl (by rw [List.mem_singleton.1 hb])
  refine greatest_eq_some _ (by simp [cdcEvents, hof]) (fun e he => ?_) fun e he h => ?_
  · rcases hbelow e he with rfl | h
    · exact le_rfl
    · exact h.le
  · exact (hbelow e he).resolve_right h.not_lt

/-- **When the last change of a key wins.** In a log read in order, the tokens
of a key increase from the snapshot's on, and its last change is the final
state, exactly when of two of its rows in one second the later one has the
greater position, and no row of second 0 is at or below the snapshot. -/
theorem last_wins_iff (key : V → Option K) (k : K) (binlogPos : UInt64) (rows : List V)
    (log : List (Logged V)) (hlog : log.Pairwise Logged.Before) :
    ((keyChanges key k log).Pairwise (·.event.orderToken < ·.event.orderToken) ∧
      (∀ c ∈ keyChanges key k log, binlogOrderToken 0 binlogPos < c.event.orderToken) ∧
      ∀ c, (keyChanges key k log).getLast? = some c →
        latest key k (cdcEvents binlogPos rows log) = some c.event) ↔
    (keyChanges key k log).Pairwise (fun a b =>
        a.source.timestamp = b.source.timestamp → a.source.logPos < b.source.logPos) ∧
      ∀ c ∈ keyChanges key k log,
        0 = c.source.timestamp → binlogPos.toNat % 2 ^ 32 < c.source.logPos.toNat := by
  have hpos (x : UInt32) : x.toUInt64.toNat % 2 ^ 32 = x.toNat := Nat.mod_eq_of_lt x.toNat_lt
  have hord := (changes_ordered hlog).filter fun c => key c.values = some k
  have hiff {a b : Change V} (h : a.source.timestamp ≤ b.source.timestamp) :
      a.event.orderToken < b.event.orderToken ↔
        (a.source.timestamp = b.source.timestamp → a.source.logPos < b.source.logPos) := by
    simp only [Change.event, binlogOrderToken_lt_iff h, hpos, UInt32.lt_iff_toNat_lt]
  have habove (c : Change V) : binlogOrderToken 0 binlogPos < c.event.orderToken ↔
      (0 = c.source.timestamp → binlogPos.toNat % 2 ^ 32 < c.source.logPos.toNat) := by
    rw [Change.event, binlogOrderToken_lt_iff UInt32.zero_le, hpos]
  constructor
  · rintro ⟨hinc, h0, -⟩
    exact ⟨(hord.and hinc).imp fun ⟨ht, h⟩ => (hiff ht).1 h, fun c hc => (habove c).1 (h0 c hc)⟩
  · rintro ⟨hsecond, h0⟩
    have hinc := (hord.and hsecond).imp fun ⟨ht, h⟩ => (hiff ht).2 h
    have h0 := fun c hc => (habove c).2 (h0 c hc)
    exact ⟨hinc, h0, fun c hc => latest_of_increasing rows hinc h0 hc⟩

def rotated (second : UInt32) : List (Logged Nat) :=
  [⟨1, 7, 900, .writeRows 1 [5]⟩, ⟨2, second, 300, .deleteRows 1 [5]⟩]

theorem last_wins_rotated : (rotated 8).Pairwise Logged.Before ∧
    ∀ c, (keyChanges some 5 (rotated 8)).getLast? = some c →
      latest some 5 (cdcEvents 0 [] (rotated 8)) = some c.event := by
  have hlog : (rotated 8).Pairwise Logged.Before := by simp [rotated, Logged.Before]
  exact ⟨hlog, ((last_wins_iff some 5 0 [] _ hlog).2 (by decide +kernel)).2.2⟩

/-- Within one second the row that was deleted last stays. -/
theorem rotated_resurrects : (rotated 7).Pairwise Logged.Before ∧
    (keyChanges some 5 (rotated 7)).getLast?.map Change.mutation = some .delete ∧
    latest some 5 (cdcEvents 0 [] (rotated 7)) = some ⟨.insert, binlogOrderToken 7 900, 5⟩ :=
  ⟨by simp [rotated, Logged.Before], by decide +kernel, by decide +kernel⟩

end Skippr.L11.Mysql
