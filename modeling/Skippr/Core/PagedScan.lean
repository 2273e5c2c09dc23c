import Skippr.Core.Map

/-!
# Paged scans of a map that changes between the pages

A scan reads a map in key order, a page at a time, each page from the first key
after the last one of the page before. The map may change between two pages, so
the rows a scan returns need not have been there together.

* `mem_queryPrefix`, `queryPrefix_complete`: what one page holds.
* `Scan.Ok`: the rows seen so far, and what is known of the keys passed without
  a row.
* `Scan.Ok.page`, `Scan.Ok.mono`: the rules for a page and for a change of the
  map between two pages.
-/
namespace Skippr

variable {K V : Type} [LinearOrder K]

def rowsAfter (m : Map K V) (after : Option K) : List (K × V) :=
  ((m.entries.map fun e => (e.1, e.2)).filter fun e => ∀ a ∈ after, a < e.1).insertionSort
    fun a b => a.1 ≤ b.1

def queryPrefix (m : Map K V) (after : Option K) (limit : Nat) : List (K × V) :=
  (rowsAfter m after).take limit

theorem rowsAfter_sorted (m : Map K V) (after : Option K) :
    (rowsAfter m after).Pairwise fun a b => a.1 < b.1 := by
  have hle : (rowsAfter m after).Pairwise fun a b => a.1 ≤ b.1 := by
    have : Std.Total fun a b : K × V => a.1 ≤ b.1 := ⟨fun a b => le_total a.1 b.1⟩
    have : IsTrans (K × V) fun a b => a.1 ≤ b.1 := ⟨fun _ _ _ => le_trans⟩
    exact List.pairwise_insertionSort _ _
  have hkeys : ((m.entries.map fun e => (e.1, e.2)).map Prod.fst).Nodup := by
    rw [List.map_map]
    exact m.nodupKeys
  have hne : (rowsAfter m after).Pairwise fun a b => a.1 ≠ b.1 := by
    refine List.Pairwise.perm ?_ (List.perm_insertionSort _ _).symm Ne.symm
    exact (List.pairwise_map.mp hkeys).sublist List.filter_sublist
  exact (hle.and hne).imp fun h => lt_of_le_of_ne h.1 h.2

theorem queryPrefix_sorted (m : Map K V) (after : Option K) (limit : Nat) :
    (queryPrefix m after limit).Pairwise fun a b => a.1 < b.1 :=
  (rowsAfter_sorted m after).sublist (List.take_sublist _ _)

variable {e : K × V} {m : Map K V} {after : Option K}

theorem le_last_of_sorted {l : List (K × V)} (hsorted : l.Pairwise fun a b => a.1 < b.1)
    {last : K × V} (hlast : l.getLast? = some last) (he : e ∈ l) : e.1 ≤ last.1 := by
  obtain ⟨init, rfl⟩ := List.getLast?_eq_some_iff.mp hlast
  rcases List.mem_append.mp he with he | he
  · exact ((List.pairwise_append.mp hsorted).2.2 e he last List.mem_cons_self).le
  · rw [List.mem_singleton.mp he]

structure Scan (K V : Type) where
  after : Option K
  out : List (K × V)
  finished : Bool

namespace Scan

def start : Scan K V := ⟨none, [], false⟩

def page (limit : Nat) (m : Map K V) (c : Scan K V) : Scan K V :=
  let page := queryPrefix m c.after limit
  match page.getLast? with
  | none => { c with finished := true }
  | some last => ⟨some last.1, c.out ++ page, decide (page.length < limit)⟩

def Passed (c : Scan K V) (k : K) : Prop :=
  c.finished = true ∨ ∃ a, c.after = some a ∧ k ≤ a

/-- `Row` holds of every row returned, `Gone` of every key passed without one. -/
structure Ok (Row : K → V → Prop) (Gone : K → Prop) (c : Scan K V) : Prop where
  rows : ∀ e ∈ c.out, Row e.1 e.2
  sorted : c.out.Pairwise fun a b => a.1 < b.1
  bound : ∀ e ∈ c.out, ∃ a, c.after = some a ∧ e.1 ≤ a
  passed : ∀ k, c.Passed k → (∃ v, (k, v) ∈ c.out) ∨ Gone k

variable {Row Row' : K → V → Prop} {Gone Gone' : K → Prop} {c : Scan K V}

theorem Ok.start : Ok Row Gone (Scan.start : Scan K V) :=
  ⟨nofun, .nil, nofun, by rintro k (h | ⟨a, h, -⟩) <;> cases h⟩

theorem Ok.mono (h : Ok Row Gone c) (hrow : ∀ k v, Row k v → Row' k v)
    (hgone : ∀ k, Gone k → Gone' k) : Ok Row' Gone' c :=
  ⟨fun e he => hrow _ _ (h.rows e he), h.sorted, h.bound,
    fun k hk => (h.passed k hk).imp_right (hgone k)⟩

end Scan

variable [DecidableEq K]

theorem mem_rowsAfter : e ∈ rowsAfter m after ↔ m.get e.1 = some e.2 ∧ ∀ a ∈ after, a < e.1 := by
  obtain ⟨k, v⟩ := e
  simp only [rowsAfter, List.mem_insertionSort, List.mem_filter, decide_eq_true_eq, List.mem_map,
    Prod.mk.injEq]
  constructor
  · rintro ⟨⟨⟨k', v'⟩, he, rfl, rfl⟩, ha⟩
    exact ⟨AList.mem_lookup_iff.2 he, ha⟩
  · rintro ⟨hget, ha⟩
    exact ⟨⟨⟨k, v⟩, AList.mem_lookup_iff.1 hget, rfl, rfl⟩, ha⟩

theorem mem_queryPrefix {limit : Nat} (h : e ∈ queryPrefix m after limit) :
    m.get e.1 = some e.2 ∧ ∀ a ∈ after, a < e.1 :=
  mem_rowsAfter.mp (List.mem_of_mem_take h)

theorem queryPrefix_complete {limit : Nat} (hget : m.get e.1 = some e.2)
    (hafter : ∀ a ∈ after, a < e.1) (hin : (queryPrefix m after limit).length < limit ∨
      ∃ last ∈ queryPrefix m after limit, e.1 ≤ last.1) : e ∈ queryPrefix m after limit := by
  have hmem : e ∈ (rowsAfter m after).take limit ++ (rowsAfter m after).drop limit := by
    rw [List.take_append_drop]
    exact mem_rowsAfter.mpr ⟨hget, hafter⟩
  rcases List.mem_append.mp hmem with hpage | hrest
  · exact hpage
  -- Otherwise the page is full and all its keys are below.
  exfalso
  rcases hin with hshort | ⟨last, hlast, hle⟩
  · have hlen : limit < (rowsAfter m after).length := by
      have := List.length_pos_of_mem hrest
      rw [List.length_drop] at this
      omega
    rw [queryPrefix, List.length_take] at hshort
    omega
  · have hsorted := rowsAfter_sorted m after
    rw [← List.take_append_drop limit (rowsAfter m after)] at hsorted
    exact absurd hle (not_le_of_gt ((List.pairwise_append.mp hsorted).2.2 last hlast e hrest))

namespace Scan
variable {Row : K → V → Prop} {Gone : K → Prop} {c : Scan K V}

theorem passed_page {limit : Nat} (hlimit : 0 < limit) {m : Map K V} {k : K}
    (hk : (page limit m c).Passed k) (hold : ¬ c.Passed k) :
    (∃ v, (k, v) ∈ queryPrefix m c.after limit) ∨ m.get k = none := by
  cases hget : m.get k with
  | none => exact .inr rfl
  | some v =>
    refine .inl ⟨v, queryPrefix_complete hget ?_ ?_⟩
    · intro a ha
      exact lt_of_not_ge fun hle => hold (.inr ⟨a, ha, hle⟩)
    · unfold page at hk
      dsimp only at hk
      split at hk
      · rename_i hnil
        rw [List.getLast?_eq_none_iff.mp hnil]
        exact .inl hlimit
      · rename_i last hlast
        rcases hk with hfin | ⟨a, ha, hle⟩
        · exact .inl (of_decide_eq_true hfin)
        · cases ha
          exact .inr ⟨last, List.mem_of_getLast? hlast, hle⟩

theorem Ok.page {limit : Nat} (hlimit : 0 < limit) {m : Map K V} (h : Ok Row Gone c)
    (hrow : ∀ k v, m.get k = some v → Row k v) (hgone : ∀ k, m.get k = none → Gone k) :
    Ok Row Gone (page limit m c) := by
  have hpassed : ∀ k, (Scan.page limit m c).Passed k →
      (∃ v, (k, v) ∈ c.out ++ queryPrefix m c.after limit) ∨ Gone k := by
    intro k hk
    by_cases hold : c.Passed k
    · refine (h.passed k hold).imp_left ?_
      rintro ⟨v, hv⟩
      exact ⟨v, List.mem_append_left _ hv⟩
    · refine (passed_page hlimit hk hold).imp ?_ (hgone k)
      rintro ⟨v, hv⟩
      exact ⟨v, List.mem_append_right _ hv⟩
  unfold Scan.page at hpassed ⊢
  dsimp only at hpassed ⊢
  split at hpassed
  · rename_i hnil
    rw [List.getLast?_eq_none_iff.mp hnil, List.append_nil] at hpassed
    exact ⟨h.rows, h.sorted, h.bound, hpassed⟩
  · rename_i last hlast
    have hlastmem := List.mem_of_getLast? hlast
    refine ⟨?_, ?_, ?_, hpassed⟩
    · exact List.forall_mem_append.2 ⟨h.rows, fun e he => hrow _ _ (mem_queryPrefix he).1⟩
    · refine List.pairwise_append.mpr ⟨h.sorted, queryPrefix_sorted m c.after limit, ?_⟩
      intro a ha b hb
      obtain ⟨x, hx, hle⟩ := h.bound a ha
      exact lt_of_le_of_lt hle ((mem_queryPrefix hb).2 x hx)
    · intro e he
      refine ⟨last.1, rfl, ?_⟩
      rcases List.mem_append.mp he with he | he
      · obtain ⟨x, hx, hle⟩ := h.bound e he
        exact hle.trans ((mem_queryPrefix hlastmem).2 x hx).le
      · exact le_last_of_sorted (queryPrefix_sorted m c.after limit) hlast he

end Scan

end Skippr
