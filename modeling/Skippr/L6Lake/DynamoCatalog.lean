import Skippr.Core.LTS
import Skippr.Core.Map

/-!
# `DynamoDbCatalog`: the pointer of a table

`update_table` reads the table's item, writes new metadata, and moves the pointer
to it by an update conditional on what it has read; an update whose response is
lost is sent again. When the condition fails the pointer is read once more, and a
call that finds its own metadata has committed
(crates/skippr-iceberg-catalog-dynamodb/src/lib.rs).
-/
namespace Skippr.L6.DynamoCatalog

/-- Metadata, by the call that staged it and the metadata it was staged from. Its
location has a fresh uuid, so equal locations mean equal metadata. -/
inductive Metadata
  | created
  | staged (call : Nat) (current : Metadata)
deriving DecidableEq

structure Pointer where
  location : Metadata
  generation : Nat
deriving DecidableEq

/-- `conflict` is "Iceberg catalog pointer CAS conflict". -/
inductive Outcome
  | ok
  | conflict
  | failed
deriving DecidableEq

/-- The next request of a call: the update, or the pointer after a failed check. -/
inductive Pc
  | update (expected : Pointer) (attempt : Nat)
  | reread (expected : Pointer) (attempt : Nat)
  | returned (outcome : Outcome)
deriving DecidableEq

/-- `older` has the pointers before the item, the latest first. -/
structure St where
  item : Pointer
  older : List Pointer
  calls : Map Nat Pc

inductive Response
  | answered
  | responseLost
  | requestLost
deriving DecidableEq

/-- `fail`: the staging fails, or a read of the pointer. -/
inductive Lbl
  | load (call : Nat)
  | fail (call : Nat)
  | update (call : Nat) (response : Response)
  | reread (call : Nat)

def catalogMaxRetries : Nat := 8

def St.goTo (s : St) (n : Nat) (pc : Pc) : St := { s with calls := s.calls.insert n pc }

def St.commit (s : St) (n : Nat) : St :=
  { s with
    item := ⟨.staged n s.item.location, s.item.generation + 1⟩
    older := s.item :: s.older }

/-- After an error of an attempt. -/
def retry (attempt : Nat) (pc : Pc) : Pc :=
  if catalogMaxRetries ≤ attempt then .returned .failed else pc

/-- mirrors lib.rs:484-554 -/
def step (s : St) : Lbl → Option St
  | .load n => if s.calls.get n = none then some (s.goTo n (.update s.item 0)) else none
  | .fail n =>
    match s.calls.get n with
    | none | some (.update _ 0) | some (.reread _ _) => some (s.goTo n (.returned .failed))
    | _ => none
  | .update n response =>
    match s.calls.get n with
    | some (.update expected attempt) =>
      let again := retry (attempt + 1) (.update expected (attempt + 1))
      let check := retry (attempt + 1) (.reread expected (attempt + 1))
      if s.item = expected ∧ response ≠ .requestLost then
        some ((s.commit n).goTo n (if response = .answered then .returned .ok else again))
      else some (s.goTo n (if response = .answered then check else again))
    | _ => none
  | .reread n =>
    match s.calls.get n with
    | some (.reread expected attempt) =>
      if s.item.location = .staged n expected.location then some (s.goTo n (.returned .ok))
      else if s.item.location = expected.location then
        some (s.goTo n (.update ⟨expected.location, s.item.generation⟩ attempt))
      else some (s.goTo n (.returned .conflict))
    | _ => none

def lts : LTS St Lbl :=
  LTS.ofFn (fun s => s.item.location = .created ∧ s.older = [] ∧ s.calls = ∅) step

def Metadata.call : Metadata → Option Nat
  | .created => none
  | .staged n _ => some n

/-- How many of the pointers a call has set. -/
def St.contributed (s : St) (n : Nat) : Nat :=
  (s.item :: s.older).countP (·.location.call = some n)

/-- Staged from the metadata before, at the next generation. -/
def Follows (p q : Pointer) : Prop :=
  (∃ n, p.location = .staged n q.location) ∧ p.generation = q.generation + 1

def Pc.isReturned : Pc → Bool
  | .returned _ => true
  | _ => false

/-- The call that moved the pointer last has returned, or sends the update itself. -/
def Timely (s : St) : Lbl → Prop
  | .update n _ => ∀ m ∈ s.item.location.call, m = n ∨ (s.calls.get m).all Pc.isReturned
  | _ => True

instance decidableTimely (s : St) (l : Lbl) : Decidable (Timely s l) := by
  unfold Timely
  split <;> infer_instance

/-- A call in its loop that has set the pointer will find it there. -/
def Pc.Ok (s : St) (n : Nat) : Pc → Prop
  | .update expected _ | .reread expected _ =>
    s.contributed n = 0 ∨ s.contributed n = 1 ∧ s.item.location = .staged n expected.location
  | .returned .ok => s.contributed n = 1
  | .returned .conflict => s.contributed n = 0
  | .returned .failed => True

structure Inv (s : St) : Prop where
  chain : (s.item :: s.older).IsChain Follows
  unstarted : ∀ n, s.calls.get n = none → s.contributed n = 0
  calls : ∀ n pc, s.calls.get n = some pc → pc.Ok s n

variable {s : St} {n attempt : Nat} {pc : Pc}

theorem Inv.goTo (h : Inv s) (hpc : pc.Ok s n) : Inv (s.goTo n pc) where
  chain := h.chain
  unstarted m hm := by
    simp only [St.goTo, Map.get_insert] at hm
    split at hm
    · cases hm
    · exact h.unstarted m hm
  calls m pc' hm := by
    obtain ⟨rfl, rfl⟩ | ⟨-, hm⟩ := Map.get_insert_cases hm
    · exact hpc
    · exact h.calls m pc' hm

theorem ok_retry (hpc : pc.Ok s n) : (retry attempt pc).Ok s n := by
  unfold retry
  split
  · trivial
  · exact hpc

theorem contributed_commit (m : Nat) :
    (s.commit n).contributed m = s.contributed m + if n = m then 1 else 0 := by
  simp [St.contributed, St.commit, Metadata.call, List.countP_cons]

theorem contributed_of_found {p : Prop} {current : Metadata}
    (h : s.contributed n = 0 ∨ s.contributed n = 1 ∧ p)
    (hitem : s.item.location = .staged n current) : s.contributed n = 1 := by
  obtain hnone | ⟨hone, -⟩ := h
  · simp [St.contributed, hitem, Metadata.call] at hnone
  · exact hone

theorem Inv.commit (h : Inv s) (hget : s.calls.get n = some (.update s.item attempt))
    (htimely : ∀ m ∈ s.item.location.call, m = n ∨ (s.calls.get m).all Pc.isReturned) :
    Inv (s.commit n) where
  chain := List.isChain_cons_cons.2 ⟨⟨⟨n, rfl⟩, rfl⟩, h.chain⟩
  unstarted m hm := by
    have hne : n ≠ m := by
      rintro rfl
      cases hget.symm.trans hm
    rw [contributed_commit, if_neg hne]
    exact h.unstarted m hm
  calls m pc (hm : s.calls.get m = some pc) := by
    have hok := h.calls m pc hm
    by_cases hne : n = m
    · subst hne
      obtain rfl := Option.some.inj (hget.symm.trans hm)
      obtain hnone | ⟨-, hself⟩ := hok
      · exact .inr ⟨by rw [contributed_commit, hnone, if_pos rfl], rfl⟩
      · have hsize := congrArg sizeOf hself
        simp at hsize
    · have hsame : (s.commit n).contributed m = s.contributed m := by
        rw [contributed_commit, if_neg hne, Nat.add_zero]
      cases pc with
      | update expected _ | reread expected _ =>
        -- another call in its loop has not set the pointer
        obtain hnone | ⟨-, hitem⟩ := hok
        · exact .inl (hsame.trans hnone)
        · simp [hitem, Metadata.call, hm, Pc.isReturned, Ne.symm hne] at htimely
      | returned outcome =>
        cases outcome with
        | ok | conflict => exact hsame.trans hok
        | failed => trivial

theorem inv_inductive : (lts.restrict Timely).Inductive Inv where
  init s hs := by
    obtain ⟨hitem, holder, hcalls⟩ := hs
    refine ⟨?_, ?_, ?_⟩
    · simp [holder]
    · simp [St.contributed, holder, hitem, Metadata.call]
    · simp [hcalls]
  step s l s' h hs := by
    obtain ⟨htimely, hs⟩ := hs
    cases l with
    | load n =>
      obtain ⟨hnone, rfl⟩ := of_guard hs
      exact h.goTo (.inl (h.unstarted n hnone))
    | fail n =>
      simp only [lts, LTS.ofFn, step] at hs
      split at hs <;> cases hs
      all_goals exact h.goTo trivial
    | update n response =>
      simp only [lts, LTS.ofFn, step] at hs
      split at hs
      · rename_i expected attempt hget
        have hok := h.calls n _ hget
        split_ifs at hs with hsent hanswer hanswer <;> cases hs
        · obtain ⟨rfl, -⟩ := hsent
          have hcommit := h.commit hget htimely
          exact hcommit.goTo (contributed_of_found (hcommit.calls n _ hget) rfl)
        · obtain ⟨rfl, -⟩ := hsent
          have hcommit := h.commit hget htimely
          exact hcommit.goTo (ok_retry (hcommit.calls n (.update s.item attempt) hget))
        · exact h.goTo (ok_retry hok)
        · exact h.goTo (ok_retry hok)
      · cases hs
    | reread n =>
      simp only [lts, LTS.ofFn, step] at hs
      split at hs
      · rename_i expected attempt hget
        have hok := h.calls n _ hget
        split_ifs at hs with hown hexpected <;> cases hs
        · exact h.goTo (contributed_of_found hok hown)
        · exact h.goTo hok
        · exact h.goTo (hok.resolve_right fun hset => hown hset.2)
      · cases hs

/-- **The pointers are a chain**, each staged from the one before it, with one of
each call that returned Ok and none of a call that returned a conflict. -/
theorem updates_chain (s : St) (h : (lts.restrict Timely).Reachable s) :
    (s.item :: s.older).IsChain Follows ∧
      ∀ n, (s.calls.get n = some (.returned .ok) → s.contributed n = 1) ∧
        (s.calls.get n = some (.returned .conflict) → s.contributed n = 0) := by
  have hinv := inv_inductive.reachable s h
  exact ⟨hinv.chain, fun n => ⟨hinv.calls n _, hinv.calls n _⟩⟩

theorem oneTable_init : lts.init ⟨⟨.created, 1⟩, [], ∅⟩ := ⟨rfl, rfl, rfl⟩

/-- The response of call 0 is lost; it finds its metadata when it tries again. -/
theorem updates_chain_retried : ∃ s, (lts.restrict Timely).Reachable s ∧
    (s.item :: s.older).IsChain Follows ∧ s.contributed 0 = 1 ∧ s.contributed 1 = 0 := by
  obtain ⟨s, hreach, hok, hconflict⟩ : ∃ s, (lts.restrict Timely).Reachable s ∧
      s.calls.get 0 = some (.returned .ok) ∧ s.calls.get 1 = some (.returned .conflict) :=
    exists_restrict_reachable [.load 0, .load 1, .update 0 .responseLost, .update 0 .answered,
      .reread 0, .update 1 .answered, .reread 1] oneTable_init (by decide +kernel)
  obtain ⟨hchain, hcalls⟩ := updates_chain s hreach
  exact ⟨s, hreach, hchain, (hcalls 0).1 hok, (hcalls 1).2 hconflict⟩

/-- The response of call 0 is lost and call 1 commits on top of it. When call 0
tries again, its update fails, and it finds the metadata of call 1. -/
theorem conflict_after_commit : ∃ s, lts.Reachable s ∧
    s.calls.get 0 = some (.returned .conflict) ∧ s.contributed 0 = 1 :=
  exists_reachable [.load 0, .update 0 .responseLost, .load 1, .update 1 .answered,
    .update 0 .answered, .reread 0] oneTable_init (by decide +kernel)

end Skippr.L6.DynamoCatalog
