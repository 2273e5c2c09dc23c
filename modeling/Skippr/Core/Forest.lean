import Mathlib

/-!
# Ordered forests with keys

A node has a key among its siblings, a label and children; the siblings are in
the order an iteration meets them. A forest is its first node, the children of
that and the remaining siblings, so that recursion over it is plain.

* `Forest.perm_get`, `Forest.perm_insert`: the labels of a forest, split at a key.
* `Tree.subperm_modifyAt`: a change deep in a tree adds no more labels than it
  adds where it is made.
* `Tree.perm_take`: taking a node out.
* `Forest.perm_of_shuffled`: another order of siblings.
-/
namespace Skippr

open scoped List

inductive Forest (K I : Type)
  | nil
  | cons (key : K) (info : I) (children rest : Forest K I)
deriving DecidableEq, Repr

structure Tree (K I : Type) where
  info : I
  children : Forest K I
deriving DecidableEq, Repr

variable {K I B : Type}

/-! ## Labels -/

def Forest.infos : Forest K I → List I
  | .nil => []
  | .cons _ info children rest => info :: (children.infos ++ rest.infos)

def Tree.infos (t : Tree K I) : List I := t.info :: t.children.infos

theorem Forest.infos_cons (key : K) (info : I) (children rest : Forest K I) :
    (Forest.cons key info children rest).infos = (Tree.mk info children).infos ++ rest.infos := rfl

def Forest.map (f : I → I) : Forest K I → Forest K I
  | .nil => .nil
  | .cons key info children rest => .cons key (f info) (children.map f) (rest.map f)

theorem Forest.infos_map (f : I → I) (forest : Forest K I) : (forest.map f).infos = forest.infos.map f := by
  induction forest with
  | nil => rfl
  | cons key info children rest ihc ihr =>
    rw [Forest.map, Forest.infos, ihc, ihr, Forest.infos, List.map_cons, List.map_append]

/-! ## One level -/

variable [DecidableEq K]

namespace Forest

def get (k : K) : Forest K I → Option (Tree K I)
  | .nil => none
  | .cons key info children rest => if key = k then some ⟨info, children⟩ else rest.get k

def erase (k : K) : Forest K I → Forest K I
  | .nil => .nil
  | .cons key info children rest => if key = k then rest else .cons key info children (rest.erase k)

def insert (k : K) (t : Tree K I) : Forest K I → Forest K I
  | .nil => .cons k t.info t.children .nil
  | .cons key info children rest =>
    if key = k then .cons key t.info t.children rest else .cons key info children (rest.insert k t)

def modify (k : K) (f : Tree K I → Tree K I) : Forest K I → Forest K I
  | .nil => .nil
  | .cons key info children rest =>
    if key = k then
      let t := f ⟨info, children⟩
      .cons key t.info t.children rest
    else .cons key info children (rest.modify k f)

theorem perm_get {k : K} {t : Tree K I} {forest : Forest K I} (h : forest.get k = some t) :
    forest.infos ~ t.infos ++ (forest.erase k).infos := by
  induction forest with
  | nil => cases h
  | cons key info children rest _ ih =>
    rw [get] at h
    rw [erase]
    split at h
    · rename_i hk
      rw [if_pos hk]
      cases h
      exact .refl _
    · rename_i hk
      rw [if_neg hk, infos_cons, infos_cons]
      exact ((ih h).append_left _).trans (List.perm_append_comm_assoc ..)

theorem perm_insert (k : K) (t : Tree K I) (forest : Forest K I) :
    (forest.insert k t).infos ~ t.infos ++ (forest.erase k).infos := by
  induction forest with
  | nil => exact .refl _
  | cons key info children rest _ ih =>
    rw [insert, erase]
    split
    · exact .refl _
    · rw [infos_cons, infos_cons]
      exact (ih.append_left _).trans (List.perm_append_comm_assoc ..)

theorem sublist_erase (k : K) (forest : Forest K I) : (forest.erase k).infos <+ forest.infos := by
  induction forest with
  | nil => exact .refl _
  | cons key info children rest _ ih =>
    rw [erase]
    split
    · rw [infos_cons]
      exact List.sublist_append_right _ _
    · rw [infos_cons, infos_cons]
      exact ih.append_left _

theorem subperm_modify {k : K} {f : Tree K I → Tree K I} {g : I → B} {l : List B}
    (h : ∀ t, (f t).infos.map g <+~ l ++ t.infos.map g) (forest : Forest K I) :
    (forest.modify k f).infos.map g <+~ l ++ forest.infos.map g := by
  induction forest with
  | nil => exact List.nil_subperm
  | cons key info children rest _ ih =>
    rw [modify]
    split
    · show (((f ⟨info, children⟩).infos ++ rest.infos).map g) <+~ _
      rw [infos_cons, List.map_append, List.map_append, ← List.append_assoc]
      exact (List.subperm_append_right _).2 (h _)
    · rw [infos_cons, infos_cons, List.map_append, List.map_append]
      exact ((List.subperm_append_left _).2 ih).trans (List.perm_append_comm_assoc ..).subperm

/-- The same nodes, with the siblings in any order. -/
def shuffled [DecidableEq I] : Forest K I → Forest K I → Bool
  | .nil, .nil => true
  | .nil, .cons .. => false
  | .cons key info children rest, other =>
    match other.get key with
    | some t => decide (t.info = info) && children.shuffled t.children && rest.shuffled (other.erase key)
    | none => false

theorem perm_of_shuffled [DecidableEq I] {forest : Forest K I} :
    ∀ {other : Forest K I}, forest.shuffled other = true → other.infos ~ forest.infos := by
  induction forest with
  | nil =>
    intro other h
    cases other with
    | nil => exact .refl _
    | cons key info children rest => cases h
  | cons key info children rest ihc ihr =>
    intro other h
    rw [shuffled] at h
    split at h
    · rename_i t hget
      simp only [Bool.and_eq_true, decide_eq_true_eq] at h
      obtain ⟨⟨hinfo, hchildren⟩, hrest⟩ := h
      have hnode : t.infos ~ (Tree.mk info children).infos := by
        rw [Tree.infos, hinfo]
        exact (ihc hchildren).cons info
      exact (perm_get hget).trans (hnode.append (ihr hrest))
    · cases h

end Forest

/-! ## Paths -/

namespace Tree

def get? : List K → Tree K I → Option (Tree K I)
  | [], t => some t
  | k :: path, t => (t.children.get k).bind (get? path)

/-- A path that leads nowhere changes nothing. -/
def modifyAt : List K → (Tree K I → Tree K I) → Tree K I → Tree K I
  | [], f, t => f t
  | k :: path, f, t => { t with children := t.children.modify k (modifyAt path f) }

variable {path : List K} {f : Tree K I → Tree K I} {g : I → B} {l : List B}

theorem info_modifyAt (h : ∀ t, g (f t).info = g t.info) (t : Tree K I) :
    g (modifyAt path f t).info = g t.info := by
  cases path with
  | nil => exact h t
  | cons k path => rfl

theorem subperm_modifyAt (h : ∀ t, (f t).infos.map g <+~ l ++ t.infos.map g) (t : Tree K I) :
    (modifyAt path f t).infos.map g <+~ l ++ t.infos.map g := by
  induction path generalizing t with
  | nil => exact h t
  | cons k path ih =>
    have hchildren := Forest.subperm_modify (k := k) ih t.children
    rw [modifyAt, infos, infos, List.map_cons, List.map_cons]
    exact ((List.subperm_cons _).2 hchildren).trans List.perm_middle.symm.subperm

theorem perm_take {u v : Tree K I} {k : K} {t : Tree K I} (hu : t.get? path = some u)
    (hv : u.children.get k = some v) :
    t.infos ~ v.infos ++ (modifyAt path (fun u => { u with children := u.children.erase k }) t).infos := by
  induction path generalizing t with
  | nil =>
    cases hu
    exact ((Forest.perm_get hv).cons u.info).trans List.perm_middle.symm
  | cons k' path ih =>
    obtain ⟨w, hw, hu⟩ := Option.bind_eq_some_iff.1 hu
    have hmodify : ∀ {forest : Forest K I}, forest.get k' = some w → forest.infos ~ v.infos ++
        (forest.modify k' (modifyAt path fun u => { u with children := u.children.erase k })).infos := by
      intro forest
      induction forest with
      | nil =>
        intro h
        cases h
      | cons key info children rest _ ihr =>
        intro h
        rw [Forest.get] at h
        rw [Forest.modify]
        split at h
        · rename_i hk
          rw [if_pos hk]
          cases h
          exact ((ih hu).append_right rest.infos).trans (by rw [List.append_assoc]; rfl)
        · rename_i hk
          rw [if_neg hk, Forest.infos_cons, Forest.infos_cons]
          exact ((ihr h).append_left _).trans (List.perm_append_comm_assoc ..)
    exact ((hmodify hw).cons t.info).trans List.perm_middle.symm

end Tree
end Skippr
