import Skippr.L2Store.Catalog

/-!
# A transaction and its operations one by one (crates/skippr-wal-catalog)

`eval_ops` reads every condition on the content before the transaction. An
accepted transaction is what its operations do one after another exactly if each
condition also holds of what an operation before it left under the key.
-/
namespace Skippr.L2.Catalog

variable {B V H : Type} [DecidableEq H]

/-- The operations one after another, each evaluated on the content that the
ones before it left. -/
def applySequentially (c : Codec B V H) (rows : Map Text V) :
    List (CatalogOp B) → Except CatalogError (Map Text V)
  | [] => .ok rows
  | op :: ops => do
    let applied ← evalOp c (fun key => .ok (rows.get (storeKey key))) op
    applySequentially c (applied.kvOp.apply rows) ops

/-- The condition of an operation whose key is named before it holds of what the
last of those writes left. -/
def Chained (c : Codec B V H) (ops : List (CatalogOp B)) : Prop :=
  ∀ i op, ops[i]? = some op →
    ∀ w, lastWrite (storeKey op.key) ((ops.take i).map (·.write c)) = some w → CondHolds c w.effect op

variable {c : Codec B V H}

theorem applySequentially_ok_iff {ops : List (CatalogOp B)} {rows rows' : Map Text V} :
    applySequentially c rows ops = .ok rows' ↔
      (∀ i op, ops[i]? = some op → Valid c op ∧
        CondHolds c ((applyWrites rows ((ops.take i).map (·.write c))).get (storeKey op.key)) op) ∧
      rows' = applyWrites rows (ops.map (·.write c)) := by
  induction ops generalizing rows with
  | nil => simp [applySequentially, applyWrites, eq_comm]
  | cons op ops ih =>
    rw [← Nat.and_forall_add_one]
    simp only [applySequentially, bind_eq_ok, evalOp_ok_iff, ih, List.getElem?_cons_zero,
      List.getElem?_cons_succ, List.take_zero, List.take_succ_cons, List.map_nil, List.map_cons]
    constructor
    · intro h
      obtain ⟨_, ⟨⟨existing, hget, hvalid, hcond⟩, rfl⟩, hops, hrows⟩ := h
      cases hget
      refine ⟨⟨?_, hops⟩, hrows⟩
      intro op' hop
      cases hop
      exact ⟨hvalid, hcond⟩
    · intro h
      obtain ⟨⟨hop, hops⟩, hrows⟩ := h
      exact ⟨_, ⟨⟨_, rfl, hop op rfl⟩, rfl⟩, hops, hrows⟩

/-- **One after another.** A commit that returns Ok leaves what its operations
leave one after another, exactly if an accepted transaction is chained. -/
theorem commit_sequential_iff (c : Codec B V H) (faults : Faults) (store : SkipprStore V)
    (txn : CatalogTxn c) (fence : CatalogFence) :
    ((catalogCommit c faults store txn fence).1 = .ok () →
      applySequentially c store.rows txn.ops =
        .ok (catalogCommit c faults store txn fence).2.rows) ↔
      (Accepts c faults store txn.ops fence → Chained c txn.ops) := by
  cases catalogCommit_cases faults store txn fence with
  | inl h =>
    obtain ⟨hacc, hok, hrows⟩ := h
    rw [hok, hrows, applySequentially_ok_iff]
    simp only [get_applyWrites, forall_const, and_true]
    constructor
    · intro h _ i op hop w hw
      have hcond := (h i op hop).2
      rw [hw] at hcond
      exact hcond
    · intro h i op hop
      have hmem := List.mem_of_getElem? hop
      refine ⟨hacc.valid op hmem, ?_⟩
      cases hw : lastWrite (storeKey op.key) ((txn.ops.take i).map (·.write c)) with
      | none => exact hacc.holds op hmem
      | some w => exact h hacc i op hop w hw
  | inr h =>
    obtain ⟨hnot, e, he⟩ := h
    rw [he]
    constructor
    · intro _ hacc
      exact absurd hacc hnot
    · intro _ hok
      cases hok

/-- The delete passes on version 3, which is stored before the transaction; after
the put it would find version 4. -/
theorem put_then_delete_not_sequential :
    ((CatalogTxn.new plain).push put4 >>= fun txn => txn.push deleteSegment) = .ok putThenDelete ∧
      (catalogCommit plain noFaults onFjall putThenDelete node).1 = .ok () ∧
      applySequentially plain onFjall.rows putThenDelete.ops = .error .conditionFailed :=
  ⟨rfl, by decide +kernel, by decide +kernel⟩

end Skippr.L2.Catalog
