import Skippr.Core.Map

/-!
# Sums over the values of a map

Keeping a sum over the values of a map up to date: an insert adds the new value
and takes back the one it replaces, an erase takes back the one it removes.

* `Map.sum_insert`, `Map.sum_erase`: the sum after an update.
* `Map.amount`, `Map.bumps`: a map of amounts, and a list of amounts added to
  it.
* `Map.amount_bumps_of_mem`, `Map.amount_bumps_toList`: the amount at a key after that.
-/
namespace Skippr.Map
variable {K V : Type} [DecidableEq K]

def sum (f : V → Int) (m : Map K V) : Int := (m.entries.map fun e => f e.2).sum

def count (f : V → Int) (v : Option V) : Int := (v.map f).getD 0

@[simp] theorem count_none (f : V → Int) : count f none = 0 := rfl

@[simp] theorem count_some (f : V → Int) (v : V) : count f (some v) = f v := rfl

theorem sum_erase (f : V → Int) (m : Map K V) (k : K) :
    sum f (m.erase k) = sum f m - count f (get m k) := by
  have hlist : ∀ l : List (Sigma fun _ : K => V), ((List.kerase k l).map fun e => f e.2).sum =
      (l.map fun e => f e.2).sum - count f (List.dlookup k l) := by
    intro l
    induction l with
    | nil => simp
    | cons e l ih =>
      by_cases he : k = e.1
      · obtain ⟨k', v⟩ := e
        obtain rfl : k = k' := he
        simp
      · rw [List.kerase_cons_ne he, List.map_cons, List.map_cons, List.sum_cons, List.sum_cons, ih,
          List.dlookup_cons_ne l e he]
        omega
  exact hlist m.entries

theorem sum_insert (f : V → Int) (m : Map K V) (k : K) (v : V) :
    sum f (m.insert k v) = sum f m - count f (get m k) + f v := by
  have hcons : sum f (m.insert k v) = f v + sum f (m.erase k) := by
    simp [sum, AList.insert, AList.erase]
  rw [hcons, sum_erase]
  omega

/-! ## Maps of amounts -/

def amount (m : Map K Int) (k : K) : Int := (get m k).getD 0

/-- `*m.entry(k).or_insert(0.0) += d` for each of a list of amounts. -/
def bumps (m : Map K Int) (ds : List (K × Int)) : Map K Int :=
  ds.foldl (fun m d => m.insert d.1 (amount m d.1 + d.2)) m

theorem amount_insert (m : Map K Int) (k k' : K) (d : Int) :
    amount (m.insert k d) k' = if k' = k then d else amount m k' := by
  unfold amount
  rw [get_insert]
  split
  · rfl
  · rfl

theorem amount_bumps_of_not_mem (m : Map K Int) {ds : List (K × Int)} {k : K}
    (hk : k ∉ ds.map Prod.fst) : amount (bumps m ds) k = amount m k := by
  induction ds generalizing m with
  | nil => rfl
  | cons d ds ih =>
    rw [List.map_cons, List.mem_cons, not_or] at hk
    rw [bumps, List.foldl_cons, ← bumps, ih _ hk.2, amount_insert, if_neg hk.1]

theorem amount_bumps_of_mem (m : Map K Int) {ds : List (K × Int)} (hds : (ds.map Prod.fst).Nodup)
    {k : K} {d : Int} (hk : (k, d) ∈ ds) : amount (bumps m ds) k = amount m k + d := by
  induction ds generalizing m with
  | nil => cases hk
  | cons e ds ih =>
    rw [List.map_cons, List.nodup_cons] at hds
    rw [bumps, List.foldl_cons, ← bumps]
    rcases List.mem_cons.1 hk with rfl | hk
    · rw [amount_bumps_of_not_mem _ hds.1, amount_insert, if_pos rfl]
    · have hne : k ≠ e.1 := fun h => hds.1 (h ▸ List.mem_map_of_mem hk)
      rw [ih _ hds.2 hk, amount_insert, if_neg hne]

theorem amount_bumps_toList (m ds : Map K Int) (k : K) :
    amount (bumps m ds.toList) k = amount m k + amount ds k := by
  cases hk : get ds k with
  | none =>
    have hmem : k ∉ ds.toList.map Prod.fst := by
      intro h
      obtain ⟨e, he, rfl⟩ := List.mem_map.1 h
      rw [(mem_toList ds e.1 e.2).1 he] at hk
      cases hk
    rw [amount_bumps_of_not_mem _ hmem, amount, amount, hk]
    simp
  | some d =>
    rw [amount_bumps_of_mem m (nodup_toList ds) ((mem_toList ds k d).2 hk), amount, amount, hk]
    simp

end Skippr.Map
