import Skippr.Core.LTS
import Skippr.L2Store.Catalog

/-!
# Concurrent catalog commits

`catalog_commit` reads each key of its transaction with `SkipprStore::get`,
checks the conditions, and writes all effects with one `SkipprStore::commit`
(crates/skippr-wal-catalog/src/memory_kv.rs:233-254). Both store calls are
atomic; nothing ties them together, and the store checks the writer fence only.
Here any number of commits run against one store, step by step.

A row is identified by how often its key had been committed when it was read
(`Evaluated.stamp`); `writes` counts that, and no step of the code reads it.
-/
namespace Skippr.L2.Catalog

/-! ## Calls -/

/-- The conditions that are to let one writer of a row through. -/
inductive Guard
  | notExists
  | version (expected : Nat)
deriving DecidableEq, Repr

/-- An operation whose condition passed, with the count of commits of its key at
the `get`. -/
structure Evaluated (B V : Type) where
  op : CatalogOp B
  applied : Applied V
  stamp : Nat

section Model
variable {B V H : Type}

def CatalogOp.guard : CatalogOp B → Option Guard
  | .put _ _ .notExists => some .notExists
  | .put _ _ (.version expected) => some (.version expected)
  | .delete _ (.version expected) => some (.version expected)
  | _ => none

/-- A running `catalog_commit`, in the loop of `eval_ops` or before its commit,
or one that has returned. -/
inductive Call (B V : Type)
  | reading (fence : CatalogFence) (todo : List (CatalogOp B)) (planned : List (Evaluated B V))
  | returned (planned : List (Evaluated B V)) (result : Except CatalogError Unit)

structure St (B V : Type) where
  store : SkipprStore V
  calls : List (Call B V)
  writes : CatalogKey → Nat

inductive Label (c : Codec B V H)
  | start (txn : CatalogTxn c) (fence : CatalogFence)
  | get (i : Nat) (faults : Faults)
  | commit (i : Nat) (faults : Faults)

def St.setCall (s : St B V) (i : Nat) (call : Call B V) : St B V :=
  { s with calls := s.calls.set i call }

def bump (planned : List (Evaluated B V)) (writes : CatalogKey → Nat) (key : CatalogKey) : Nat :=
  if ∃ e ∈ planned, e.op.key = key then writes key + 1 else writes key

/-- One atomic step: a call starts, evaluates its next operation on what it gets,
or commits what it has planned. -/
def step [DecidableEq H] (c : Codec B V H) (s : St B V) : Label c → Option (St B V)
  | .start txn fence => some { s with calls := s.calls ++ [.reading fence txn.ops []] }
  | .get i faults =>
    match s.calls[i]? with
    | some (.reading fence (op :: todo) planned) =>
      match evalOp c (fun key => s.store.get faults (storeKey key)) op with
      | .error e => some (s.setCall i (.returned planned (.error e)))
      | .ok applied =>
        some (s.setCall i (.reading fence todo (planned ++ [⟨op, applied, s.writes op.key⟩])))
    | _ => none
  | .commit i faults =>
    match s.calls[i]? with
    | some (.reading fence [] planned) =>
      match s.store.commit faults (planned.map (·.applied.kvOp)) fence with
      | (.error e, store) => some { s.setCall i (.returned planned (.error e)) with store := store }
      | (.ok (), store) =>
        some { s.setCall i (.returned planned (.ok ())) with
          store := store
          writes := bump planned s.writes }
    | _ => none

def Init (s : St B V) : Prop := s.calls = [] ∧ ∀ key, s.writes key = 0

def system [DecidableEq H] (c : Codec B V H) : LTS (St B V) (Label c) := LTS.ofFn Init (step c)

/-! ## At most one winner -/

/-- Call `i` returned Ok and wrote `key` under `guard`, having read the row of
stamp `n`. -/
def Wins (s : St B V) (key : CatalogKey) (guard : Guard) (n i : Nat) : Prop :=
  ∃ planned, s.calls[i]? = some (.returned planned (.ok ())) ∧
    ∃ e ∈ planned, e.op.key = key ∧ e.op.guard = some guard ∧ e.stamp = n

/-- Of the calls that read one row under one guard, at most one returned Ok. -/
def AtMostOne (s : St B V) : Prop :=
  ∀ key guard n i j, Wins s key guard n i → Wins s key guard n j → i = j

def Call.claims : Call B V → List (Evaluated B V)
  | .reading _ _ planned => planned.filter (·.op.guard.isSome)
  | .returned planned (.ok ()) => planned.filter (·.op.guard.isSome)
  | .returned _ (.error _) => []

def Call.running : Call B V → Bool
  | .reading _ _ _ => true
  | .returned _ _ => false

/-- A running call has read `key` for a guarded operation. -/
def Call.Holding (key : CatalogKey) (call : Call B V) : Prop :=
  call.running = true ∧ ∃ e ∈ call.claims, e.op.key = key

instance (key : CatalogKey) (call : Call B V) : Decidable (call.Holding key) :=
  inferInstanceAs (Decidable (_ ∧ _))

def Call.next : Call B V → Option (CatalogOp B)
  | .reading _ (op :: _) _ => some op
  | _ => none

/-- Call `i` is not about to read a key for a guarded operation, or no other
running call has done so. -/
def Exclusive (s : St B V) (i : Nat) : Prop :=
  ∀ op ∈ s.calls[i]?.bind Call.next, op.guard ≠ none →
    ∀ j : Fin s.calls.length, j.val ≠ i → ¬ (s.calls.get j).Holding op.key

instance (s : St B V) (i : Nat) : Decidable (Exclusive s i) :=
  inferInstanceAs (Decidable (∀ op ∈ s.calls[i]?.bind Call.next, _))

def Alone {c : Codec B V H} (s : St B V) : Label c → Prop
  | .get i _ => Exclusive s i
  | _ => True

instance {c : Codec B V H} (s : St B V) : (l : Label c) → Decidable (Alone s l)
  | .get i _ => inferInstanceAs (Decidable (Exclusive s i))
  | .start _ _ => inferInstanceAs (Decidable True)
  | .commit _ _ => inferInstanceAs (Decidable True)

/-! ## A call that runs alone -/

section Serial
variable [DecidableEq H] {c : Codec B V H} {fence : CatalogFence} {i : Nat}

theorem St.setCall_calls {s : St B V} {call : Call B V} (h : s.calls[i]? = some call)
    (call' : Call B V) : (s.setCall i call').calls[i]? = some call' := by
  obtain ⟨hlt, -⟩ := List.getElem?_eq_some_iff.1 h
  rw [St.setCall, List.getElem?_set_self hlt]

theorem run_gets (faults : Faults) (todo : List (CatalogOp B)) : ∀ (s : St B V) (planned : List (Evaluated B V)),
    s.calls[i]? = some (.reading fence todo planned) →
    ∃ ls s', (system c).Run s ls s' ∧ s'.store = s.store ∧
      match todo.mapM (evalOp c fun key => s.store.get faults (storeKey key)) with
      | .error e => ∃ planned', s'.calls[i]? = some (.returned planned' (.error e))
      | .ok applied => ∃ planned', s'.calls[i]? = some (.reading fence [] planned') ∧
          planned'.map (·.applied) = planned.map (·.applied) ++ applied := by
  induction todo with
  | nil =>
    intro s planned h
    exact ⟨[], s, .nil s, rfl, planned, h, by simp⟩
  | cons op todo ih =>
    intro s planned h
    rw [List.mapM_cons]
    cases heval : evalOp c (fun key => s.store.get faults (storeKey key)) op with
    | error e =>
      have hstep : step c s (.get i faults) = some (s.setCall i (.returned planned (.error e))) := by
        simp only [step, h, heval]
      exact ⟨[.get i faults], _, .cons hstep (.nil _), rfl, planned, St.setCall_calls h _⟩
    | ok applied =>
      have hstep : step c s (.get i faults) = some (s.setCall i (.reading fence todo
          (planned ++ [⟨op, applied, s.writes op.key⟩]))) := by
        simp only [step, h, heval]
      obtain ⟨ls, s', hrun, hstore, hend⟩ := ih _ _ (St.setCall_calls h _)
      refine ⟨.get i faults :: ls, s', .cons hstep hrun, hstore, ?_⟩
      change (match todo.mapM (evalOp c fun key => s.store.get faults (storeKey key)) with
        | .error e => _
        | .ok applied => _) at hend
      cases hrest : todo.mapM (evalOp c fun key => s.store.get faults (storeKey key)) with
      | error e =>
        rw [hrest] at hend
        exact hend
      | ok rest =>
        rw [hrest] at hend
        obtain ⟨planned', hcall, hplanned⟩ := hend
        refine ⟨planned', hcall, ?_⟩
        rw [hplanned, List.map_append, List.append_assoc]
        rfl

/-- **A call alone.** A call that no other step interrupts returns what
`catalogCommit` returns and leaves the store it leaves. -/
theorem run_alone (s : St B V) (txn : CatalogTxn c) (fence : CatalogFence) (faults : Faults) :
    ∃ ls s' planned, (system c).Run s ls s' ∧
      s'.store = (catalogCommit c faults s.store txn fence).2 ∧
      s'.calls[s.calls.length]? =
        some (.returned planned (catalogCommit c faults s.store txn fence).1) := by
  have hcall : (s.calls ++ [Call.reading fence txn.ops []])[s.calls.length]? =
      some (.reading fence txn.ops []) := List.getElem?_concat_length ..
  obtain ⟨ls, s₁, hrun, hstore, hend⟩ := run_gets (c := c) faults txn.ops
    { s with calls := s.calls ++ [.reading fence txn.ops []] } [] hcall
  have hstart : (system c).Run s (.start txn fence :: ls) s₁ := .cons rfl hrun
  rw [catalogCommit, evalOps]
  dsimp only at hstore hend
  cases heval : txn.ops.mapM (evalOp c fun key => s.store.get faults (storeKey key)) with
  | error e =>
    rw [heval] at hend
    obtain ⟨planned, hreturned⟩ := hend
    exact ⟨_, s₁, planned, hstart, hstore, hreturned⟩
  | ok applied =>
    rw [heval] at hend
    obtain ⟨planned, hcall₁, hplanned⟩ := hend
    rw [List.map_nil, List.nil_append] at hplanned
    have hops : planned.map (·.applied.kvOp) = applied.map (·.kvOp) := by
      rw [← hplanned, List.map_map]
      rfl
    have hstep : step c s₁ (.commit s.calls.length faults) =
        match s.store.commit faults (applied.map (·.kvOp)) fence with
        | (.error e, store) =>
          some { s₁.setCall s.calls.length (.returned planned (.error e)) with store := store }
        | (.ok (), store) =>
          some { s₁.setCall s.calls.length (.returned planned (.ok ())) with
            store := store
            writes := bump planned s₁.writes } := by
      simp only [step, hcall₁, hops, hstore]
    have hset := fun result => St.setCall_calls hcall₁ (.returned planned result)
    dsimp only
    cases hcommit : s.store.commit faults (applied.map (·.kvOp)) fence with
    | mk result store =>
      rw [hcommit] at hstep
      cases result with
      | error e | ok u => exact ⟨_, _, planned, hstart.append (.cons hstep (.nil _)), rfl, hset _⟩

end Serial

/-! ## The invariant -/

/-- How the stamps of two claims of one key stand to each other, by which of the
calls are running: two running calls have no key in common, and a committed call
read an older row than a running one. -/
def Ordered : Bool → Bool → Nat → Nat → Prop
  | true, true, _, _ => False
  | true, false, m, n => n < m
  | false, true, m, n => m < n
  | false, false, m, n => m ≠ n

theorem Ordered.symm : ∀ {a b : Bool} {m n : Nat}, Ordered a b m n → Ordered b a n m
  | true, true, _, _, h => h
  | true, false, _, _, h => h
  | false, true, _, _, h => h
  | false, false, _, _, h => Ne.symm h

def Compatible (a b : Call B V) : Prop :=
  ∀ x ∈ a.claims, ∀ y ∈ b.claims, x.op.key = y.op.key →
    Ordered a.running b.running x.stamp y.stamp

theorem Compatible.symm {a b : Call B V} (h : Compatible a b) : Compatible b a :=
  fun y hy x hx hkey => (h x hx y hy hkey.symm).symm

/-- The claims of a call were read in the past, before its commit if it made one. -/
def Past (writes : CatalogKey → Nat) (call : Call B V) : Prop :=
  ∀ x ∈ call.claims, x.stamp ≤ writes x.op.key ∧
    (call.running = false → x.stamp < writes x.op.key)

structure Inv (s : St B V) : Prop where
  past : ∀ (i : Nat) call, s.calls[i]? = some call → Past s.writes call
  apart : ∀ (i j : Nat) a b, i ≠ j → s.calls[i]? = some a → s.calls[j]? = some b → Compatible a b

theorem Past.mono {writes writes' : CatalogKey → Nat} {call : Call B V} (h : Past writes call)
    (hle : ∀ key, writes key ≤ writes' key) : Past writes' call := by
  intro x hx
  obtain ⟨hpast, hbefore⟩ := h x hx
  exact ⟨hpast.trans (hle _), fun hr => (hbefore hr).trans_le (hle _)⟩

theorem compatible_of_nil {a : Call B V} (h : a.claims = []) (b : Call B V) : Compatible a b := by
  intro x hx
  rw [h] at hx
  cases hx

theorem past_of_nil {a : Call B V} (h : a.claims = []) (writes : CatalogKey → Nat) : Past writes a := by
  intro x hx
  rw [h] at hx
  cases hx

theorem Inv.setCall {s : St B V} (h : Inv s) {i : Nat} {old call : Call B V}
    (hold : s.calls[i]? = some old) {store : SkipprStore V} {writes : CatalogKey → Nat}
    (hle : ∀ key, s.writes key ≤ writes key) (hpast : Past writes call)
    (hcompat : ∀ (j : Nat) b, j ≠ i → s.calls[j]? = some b → Compatible call b) :
    Inv (⟨store, s.calls.set i call, writes⟩ : St B V) := by
  have hget : ∀ j b, (s.calls.set i call)[j]? = some b →
      (j = i ∧ b = call) ∨ (j ≠ i ∧ s.calls[j]? = some b) := by
    intro j b hb
    by_cases hj : j = i
    · subst hj
      rw [List.getElem?_set_self (List.getElem?_eq_some_iff.1 hold).1] at hb
      exact .inl ⟨rfl, (Option.some.inj hb).symm⟩
    · rw [List.getElem?_set_ne (Ne.symm hj)] at hb
      exact .inr ⟨hj, hb⟩
  constructor
  · intro j b hb
    obtain ⟨rfl, rfl⟩ | ⟨hj, hb⟩ := hget j b hb
    · exact hpast
    · exact (h.past j b hb).mono hle
  · intro j k a b hne ha hb
    obtain ⟨rfl, rfl⟩ | ⟨hj, ha'⟩ := hget j a ha
    · obtain ⟨rfl, rfl⟩ | ⟨hk, hb'⟩ := hget k b hb
      · exact absurd rfl hne
      · exact hcompat k b hk hb'
    · obtain ⟨rfl, rfl⟩ | ⟨hk, hb'⟩ := hget k b hb
      · exact (hcompat j a hj ha').symm
      · exact h.apart j k a b hne ha' hb'

theorem inv_start {s : St B V} (h : Inv s) (fence : CatalogFence) (ops : List (CatalogOp B)) :
    Inv { s with calls := s.calls ++ [.reading fence ops []] } := by
  have hget : ∀ j b, (s.calls ++ [Call.reading fence ops []])[j]? = some b →
      s.calls[j]? = some b ∨ (s.calls.length ≤ j ∧ b.claims = []) := by
    intro j b hb
    rw [List.getElem?_append] at hb
    split at hb
    · exact .inl hb
    · rename_i hle
      have hmem := List.mem_of_getElem? hb
      rw [List.mem_singleton.1 hmem]
      exact .inr ⟨by omega, rfl⟩
  constructor
  · intro j b hb
    cases hget j b hb with
    | inl hb => exact h.past j b hb
    | inr hb => exact past_of_nil hb.2 _
  · intro j k a b hne ha hb
    cases hget j a ha with
    | inr ha => exact compatible_of_nil ha.2 b
    | inl ha =>
      cases hget k b hb with
      | inr hb => exact (compatible_of_nil hb.2 a).symm
      | inl hb => exact h.apart j k a b hne ha hb

theorem inv_read {s : St B V} (h : Inv s) {i : Nat} {fence : CatalogFence} {op : CatalogOp B}
    {todo : List (CatalogOp B)} {planned : List (Evaluated B V)} {applied : Applied V}
    (hcall : s.calls[i]? = some (.reading fence (op :: todo) planned)) (hexcl : Exclusive s i) :
    Inv (s.setCall i (.reading fence todo (planned ++ [⟨op, applied, s.writes op.key⟩]))) := by
  have hclaims : ∀ x ∈ (Call.reading fence todo (planned ++ [⟨op, applied, s.writes op.key⟩]) :
      Call B V).claims, x ∈ (Call.reading fence (op :: todo) planned : Call B V).claims ∨
        (x.op = op ∧ x.stamp = s.writes op.key ∧ op.guard ≠ none) := by
    intro x hx
    simp only [Call.claims, List.filter_append, List.mem_append] at hx
    cases hx with
    | inl hx => exact .inl hx
    | inr hx =>
      obtain ⟨hx, hguard⟩ := List.mem_filter.1 hx
      obtain rfl := List.mem_singleton.1 hx
      exact .inr ⟨rfl, rfl, Option.isSome_iff_ne_none.1 hguard⟩
  apply h.setCall hcall (fun _ => le_rfl)
  · intro x hx
    refine ⟨?_, fun hr => by cases hr⟩
    cases hclaims x hx with
    | inl hx => exact (h.past i _ hcall x hx).1
    | inr hx => rw [hx.1, hx.2.1]
  · intro j b hj hb x hx y hy hkey
    cases hclaims x hx with
    | inl hx => exact h.apart i j _ b (Ne.symm hj) hcall hb x hx y hy hkey
    | inr hx =>
      obtain ⟨hop, hstamp, hguard⟩ := hx
      rw [hop] at hkey
      obtain ⟨hlt, hget⟩ := List.getElem?_eq_some_iff.1 hb
      have hnot := hexcl op (by rw [hcall]; rfl) hguard ⟨j, hlt⟩ hj
      rw [List.get_eq_getElem, hget] at hnot
      cases hrun : b.running with
      | true => exact absurd ⟨hrun, y, hy, hkey.symm⟩ hnot
      | false =>
        -- A committed claim is older than the count that was read now.
        have hbefore := (h.past j b hb y hy).2 hrun
        rw [← hkey, ← hstamp] at hbefore
        exact hbefore

theorem inv_fail {s : St B V} (h : Inv s) {i : Nat} {old : Call B V} (hcall : s.calls[i]? = some old)
    (planned : List (Evaluated B V)) (e : CatalogError) (store : SkipprStore V) :
    Inv { s.setCall i (.returned planned (.error e)) with store := store } :=
  h.setCall hcall (fun _ => le_rfl) (past_of_nil rfl _) fun _ b _ _ => compatible_of_nil rfl b

theorem inv_commit {s : St B V} (h : Inv s) {i : Nat} {fence : CatalogFence}
    {planned : List (Evaluated B V)} (hcall : s.calls[i]? = some (.reading fence [] planned))
    (store : SkipprStore V) :
    Inv { s.setCall i (.returned planned (.ok ())) with
      store := store
      writes := bump planned s.writes } := by
  have hle (key : CatalogKey) : s.writes key ≤ bump planned s.writes key := by
    unfold bump
    split <;> omega
  apply h.setCall hcall hle
  · intro x hx
    have hmem := (List.mem_filter.1 hx).1
    have hread := (h.past i _ hcall x hx).1
    have hlt : x.stamp < bump planned s.writes x.op.key := by
      rw [bump, if_pos ⟨x, hmem, rfl⟩]
      omega
    exact ⟨hlt.le, fun _ => hlt⟩
  · intro j b hj hb x hx y hy hkey
    have hordered := h.apart i j _ b (Ne.symm hj) hcall hb x hx y hy hkey
    cases hrun : b.running with
    | true =>
      rw [hrun] at hordered
      exact hordered.elim
    | false =>
      rw [hrun] at hordered
      exact Nat.ne_of_gt hordered

section Run
variable [DecidableEq H] {c : Codec B V H}

theorem inv_step {s s' : St B V} {l : Label c} (h : Inv s) (hok : Alone s l)
    (hs : step c s l = some s') : Inv s' := by
  cases l with
  | start txn fence =>
    cases hs
    exact inv_start h fence txn.ops
  | get i faults =>
    simp only [step] at hs
    split at hs
    · rename_i fence op todo planned hcall
      split at hs
      · cases hs
        exact inv_fail h hcall _ _ _
      · cases hs
        exact inv_read h hcall hok
    · cases hs
  | commit i faults =>
    simp only [step] at hs
    split at hs
    · rename_i fence planned hcall
      split at hs
      · cases hs
        exact inv_fail h hcall _ _ _
      · cases hs
        exact inv_commit h hcall _
    · cases hs

theorem inv_inductive : ((system c).restrict Alone).Inductive Inv where
  init s hs := by
    constructor
    · intro i call hcall
      rw [hs.1] at hcall
      cases hcall
    · intro i j a b _ ha
      rw [hs.1] at ha
      cases ha
  step s l s' h hs := inv_step h hs.1 hs.2

theorem Wins.claim {s : St B V} {key : CatalogKey} {guard : Guard} {n i : Nat}
    (h : Wins s key guard n i) : ∃ call, s.calls[i]? = some call ∧ call.running = false ∧
      ∃ x ∈ call.claims, x.op.key = key ∧ x.stamp = n := by
  obtain ⟨planned, hcall, e, he, hkey, hguard, hstamp⟩ := h
  exact ⟨_, hcall, rfl, e, List.mem_filter.2 ⟨he, by rw [hguard]; rfl⟩, hkey, hstamp⟩

/-- **At most one.** If no two calls read a guarded key before one of them has
returned, then in every interleaving at most one of the calls that read the same
row under the same guard returns Ok. -/
theorem at_most_one_ok (c : Codec B V H) {s : St B V}
    (h : ((system c).restrict Alone).Reachable s) : AtMostOne s := by
  intro key guard n i j hi hj
  obtain ⟨a, ha, hrunA, x, hx, hkeyX, hstampX⟩ := hi.claim
  obtain ⟨b, hb, hrunB, y, hy, hkeyY, hstampY⟩ := hj.claim
  by_contra hne
  have hordered := (inv_inductive.reachable s h).apart i j a b hne ha hb x hx y hy
    (hkeyX.trans hkeyY.symm)
  rw [hrunA, hrunB] at hordered
  exact hordered (hstampX.trans hstampY.symm)

end Run
end Model

/-! ## Two commits of one row -/

def advance : CatalogTxn plain where
  ops := [put4]
  bounded := by decide
  pushable op hop := by
    obtain rfl := List.mem_singleton.1 hop
    exact ⟨fun h => (by cases h), by decide⟩

def raceStart : St Nat (CatalogRow Nat) := ⟨onFjall, [], fun _ => 0⟩

theorem raceStart_init : Init raceStart := ⟨rfl, fun _ => rfl⟩

def inTurn : List (Label plain) :=
  [.start advance node, .start advance node, .get 0 noFaults, .commit 0 noFaults, .get 1 noFaults]

def afterTurns : St Nat (CatalogRow Nat) :=
  (exec (guarded Alone (step plain)) raceStart inTurn).get (by decide +kernel)

theorem wins_of_any {B V : Type} {s : St B V} {key : CatalogKey} {guard : Guard} {n i : Nat}
    (h : (s.calls[i]?.any fun call => match call with
      | .returned planned (.ok ()) => planned.any fun e =>
          e.op.key = key ∧ e.op.guard = some guard ∧ e.stamp = n
      | _ => false) = true) : Wins s key guard n i := by
  obtain ⟨call, hcall, hany⟩ := (Option.any_eq_true ..).1 h
  split at hany
  · obtain ⟨e, he, hop⟩ := List.any_eq_true.1 hany
    exact ⟨_, hcall, e, he, of_decide_eq_true hop⟩
  · cases hany

/-- The first call has written version 4, the second fails on it. -/
theorem at_most_one_ok_inTurn : ((system plain).restrict Alone).Reachable afterTurns ∧
    Wins afterTurns segmentKey (.version 3) 0 0 ∧ AtMostOne afterTurns := by
  have hreach : ((system plain).restrict Alone).Reachable afterTurns :=
    restrict_reachable_of_exec raceStart_init (Option.some_get _).symm
  exact ⟨hreach, wins_of_any (by decide +kernel), at_most_one_ok plain hreach⟩

def interleaved : List (Label plain) :=
  [.start advance node, .start advance node, .get 0 noFaults, .get 1 noFaults, .commit 0 noFaults,
    .commit 1 noFaults]

def afterRace : St Nat (CatalogRow Nat) :=
  (exec (step plain) raceStart interleaved).get (by decide +kernel)

/-- Two puts under `Version(3)` of one row both return Ok. -/
theorem both_ok : (system plain).Reachable afterRace ∧ Wins afterRace segmentKey (.version 3) 0 0 ∧
    Wins afterRace segmentKey (.version 3) 0 1 ∧ ¬ AtMostOne afterRace := by
  have hfirst : Wins afterRace segmentKey (.version 3) 0 0 := wins_of_any (by decide +kernel)
  have hsecond : Wins afterRace segmentKey (.version 3) 0 1 := wins_of_any (by decide +kernel)
  refine ⟨reachable_of_exec raceStart_init (Option.some_get _).symm, hfirst, hsecond, fun h => ?_⟩
  exact absurd (h _ _ _ _ _ hfirst hsecond) (by decide)

end Skippr.L2.Catalog
