import Skippr.Core.LTS
import Skippr.Core.Lists
import Skippr.Core.Md5
import Skippr.L9Schema.SchemaAlter

/-!
# Field ids

A field is discovered with id 0. Normalising a namespace gives it an id hashed
from its path (`migrate_tree`) and then walks the tree once more, giving a new
one to every field whose id is zero or was met before in the walk
(`repair_field_identity`, src/discover/mod.rs:504-607). Children are met in the
order of a hash map, so which of two fields with one id keeps it is up to that.
-/
namespace Skippr.L9

open scoped List

/-! ## Hashed ids -/

/-- A namespace, and the digest of the md5 crate. -/
structure Namespace where
  name : Text
  md5 : List Nat → List Nat

/-- mirrors src/lineage.rs:83-97 -/
def deterministicFieldId (ns : Namespace) (path : List Text) : Int :=
  match ns.md5 (utf8 (ns.name ++ Char.ofNat 0 :: joinDots path)) with
  | a :: b :: c :: d :: _ => ((((a * 256 + b) * 256 + c) * 256 + d) % 2 ^ 31 : Nat)
  | _ => 0

def saltedPath (path : List Text) (attempt : Nat) : List Text :=
  path ++ ["__field_id_dedupe_".toList ++ showNat attempt]

/-- The attempts are counted by a `u32`. -/
def searchFieldId (ns : Namespace) (path : List Text) (seen : List Int) : Nat → Nat → Option Int
  | 0, _ => none
  | fuel + 1, attempt =>
    let candidate := deterministicFieldId ns (saltedPath path attempt)
    if candidate ≠ 0 ∧ candidate ∉ seen then some candidate
    else searchFieldId ns path seen fuel (attempt + 1)

/-- mirrors discover/mod.rs:587-607 -/
def uniqueDeterministicFieldId (ns : Namespace) (path : List Text) (seen : List Int) : Option Int :=
  let candidate := deterministicFieldId ns path
  if candidate ≠ 0 ∧ candidate ∉ seen then some candidate
  else searchFieldId ns path seen (2 ^ 32 - 1) 1

/-! ## Normalising a tree -/

/-- A node, and the path its children start from. mirrors discover/mod.rs:504-535 -/
def migrateInfo (ns : Namespace) (schemaId : Nat) (path : List Text) (info : FieldInfo) :
    FieldInfo × List Text :=
  let name := if info.outFieldName = [] then path.getLast?.getD [] else info.outFieldName
  let source := path.getLast?.getD name
  let path' := if name ≠ [] ∧ path.getLast? ≠ some name then path ++ [name] else path
  ({ info with
      sourceFieldName := if info.sourceFieldName = [] ∧ source ≠ [] then source else info.sourceFieldName
      schemaId := if info.schemaId = 0 then schemaId else info.schemaId
      fieldId := if info.fieldId = 0 ∧ path' ≠ [] then deterministicFieldId ns path' else info.fieldId
      lineageId := if info.lineageId = [] ∧ path' ≠ [] then ns.name ++ ':' :: joinDots path' else info.lineageId },
    path')

def childPath (path : List Text) (key : Text) (info : FieldInfo) : List Text :=
  if info.outFieldName = [] then path ++ [key] else path

def migrateFields (ns : Namespace) (schemaId : Nat) (path : List Text) : Fields → Fields
  | .nil => .nil
  | .cons key info children rest =>
    let migrated := migrateInfo ns schemaId (childPath path key info) info
    .cons key migrated.1 (migrateFields ns schemaId migrated.2 children)
      (migrateFields ns schemaId path rest)

/-- mirrors discover/mod.rs:504-546 -/
def migrateTree (ns : Namespace) (schemaId : Nat) (m : Metadata) : Metadata :=
  let migrated := migrateInfo ns schemaId [] m.info
  ⟨migrated.1, migrateFields ns schemaId migrated.2 m.children⟩

def outputName (key : Text) (info : FieldInfo) : Text :=
  if info.outFieldName = [] then key else info.outFieldName

def repairId (ns : Namespace) (path : List Text) (id : Int) (seen : List Int) : Option Int :=
  if id = 0 ∨ id ∈ seen then uniqueDeterministicFieldId ns path seen else some id

/-- With the ids met so far; none when the search for an id does not end.
mirrors discover/mod.rs:553-585 -/
def repairFields (ns : Namespace) (path : List Text) : Fields → List Int → Option (Fields × List Int)
  | .nil, seen => some (.nil, seen)
  | .cons key info children rest, seen => do
    let path' := path ++ [outputName key info]
    let id ← repairId ns path' info.fieldId seen
    let (children, seen) ← repairFields ns path' children (id :: seen)
    let (rest, seen) ← repairFields ns path rest seen
    return (.cons key { info with fieldId := id } children rest, seen)

def normalizeTree (ns : Namespace) (schemaId : Nat) (m : Metadata) : Option Metadata :=
  let migrated := migrateTree ns schemaId m
  (repairFields ns [] migrated.children []).map fun repaired => { migrated with children := repaired.1 }

inductive IdentityError
  /-- `namespace '{}' has zero field_id at '{}'` -/
  | zero (path : Text)
  /-- `namespace '{}' has duplicate field_id {} at '{}' and '{}'` -/
  | duplicate (id : Int) (previous path : Text)
deriving DecidableEq, Repr

/-- With the ids met so far and their paths. mirrors discover/mod.rs:548-551, 609-647 -/
def validateFields (path : List Text) :
    Fields → List (Int × Text) → Except IdentityError (List (Int × Text))
  | .nil, seen => .ok seen
  | .cons key info children rest, seen =>
    let path' := path ++ [outputName key info]
    if info.fieldId = 0 then .error (.zero (joinDots path'))
    else match seen.lookup info.fieldId with
      | some previous => .error (.duplicate info.fieldId previous (joinDots path'))
      | none => do
        let seen ← validateFields path' children ((info.fieldId, joinDots path') :: seen)
        validateFields path rest seen

/-! ## Runs -/

/-- One namespace of a pipeline; `next` is the tag of the next discovered field. -/
structure St where
  schemaId : Nat
  metadata : Metadata
  next : Nat

inductive Label
  /-- A field is discovered below the node at `parent`. -/
  | discover (parent : List Text) (key source out : Text) (dataType : SkipprDataType)
  | alter (op : SchemaAlterOp)
  | migratePersistedMetadata
  | normalizeNamespace
  /-- The hash maps are met in another order from here on. -/
  | reorder (fields : Fields)

def currentSchemaId (s : St) : Nat := if s.schemaId = 0 then 1 else s.schemaId

def step (ns : Namespace) (s : St) : Label → Option St
  | .discover parent key source out dataType =>
    match s.metadata.get? parent with
    | some p =>
      if (p.children.get key).isSome then none
      else
        let field : Metadata := ⟨⟨s.next, source, out, dataType, ∅, 0, 0, []⟩, .nil⟩
        some { s with
          metadata := s.metadata.modifyAt parent (insertChild key field)
          next := s.next + 1 }
    | none => none
  | .alter op =>
    match apply s.metadata op with
    | .ok m => some { s with metadata := m }
    | .error _ => none
  -- mirrors discover/mod.rs:340-359
  | .migratePersistedMetadata =>
    (normalizeTree ns (currentSchemaId s) s.metadata).map fun m =>
      { s with schemaId := currentSchemaId s, metadata := m }
  -- mirrors discover/mod.rs:361-374
  | .normalizeNamespace =>
    match normalizeTree ns (currentSchemaId s) s.metadata with
    | some m =>
      match validateFields [] m.children [] with
      | .ok _ => some { s with schemaId := currentSchemaId s, metadata := m }
      | .error _ => none
    | none => none
  | .reorder fields =>
    if s.metadata.children.shuffled fields then
      some { s with metadata := { s.metadata with children := fields } }
    else none

def ids (m : Metadata) : List Int := m.children.infos.map (·.fieldId)

def Tagged (s : St) : Prop :=
  ((identities s.metadata).map Prod.fst).Nodup ∧ ∀ p ∈ identities s.metadata, p.1 < s.next

def system (ns : Namespace) : LTS St Label := LTS.ofFn Tagged (step ns)

def Label.normalizes : Label → Bool
  | .migratePersistedMetadata => true
  | .normalizeNamespace => true
  | _ => false

/-! ## Distinct ids, and ids that stay -/

def Distinct (m : Metadata) : Prop := (ids m).Nodup ∧ 0 ∉ ids m

def Holds (m : Metadata) (tag : Nat) (x : Int) : Prop :=
  x ≠ 0 ∧ (tag, x) ∈ identities m ∧ ∀ p ∈ identities m, p.2 = x → p.1 = tag

def Keeps (m : Metadata) (tag : Nat) (x : Int) : Prop := ∀ p ∈ identities m, p.1 = tag → p.2 = x

/-- A field as the repair meets it: before the normalisation, its id after
`migrate_tree`, its path in the walk. -/
structure Entry where
  info : FieldInfo
  migrated : Int
  path : List Text

def entriesOf (ns : Namespace) (schemaId : Nat) (migratePath path : List Text) : Fields → List Entry
  | .nil => []
  | .cons key info children rest =>
    let migrated := migrateInfo ns schemaId (childPath migratePath key info) info
    let path' := path ++ [outputName key info]
    ⟨info, migrated.1.fieldId, path'⟩ ::
      (entriesOf ns schemaId migrated.2 path' children ++ entriesOf ns schemaId migratePath path rest)

def treeEntries (ns : Namespace) (schemaId : Nat) (m : Metadata) : List Entry :=
  entriesOf ns schemaId (migrateInfo ns schemaId [] m.info).2 [] m.children

def Candidate (ns : Namespace) (path : List Text) (x : Int) : Prop :=
  x = deterministicFieldId ns path ∨ ∃ attempt, x = deterministicFieldId ns (saltedPath path attempt)

def OwnId (m : Metadata) (info : FieldInfo) : Prop := info.fieldId ≠ 0 ∧ (ids m).count info.fieldId = 1

/-- No field that needs an id is hashed to the own id of a field met after it. -/
def Clear (ns : Namespace) (schemaId : Nat) (m : Metadata) : Prop :=
  (treeEntries ns schemaId m).Pairwise fun f u => ¬ OwnId m f.info → OwnId m u.info →
    u.info.fieldId ≠ f.migrated ∧ ¬ Candidate ns f.path u.info.fieldId

/-- The condition on a step, in the state before it. -/
def Undisturbed (ns : Namespace) (s : St) (l : Label) : Prop :=
  l.normalizes = true → Clear ns (currentSchemaId s) s.metadata

/-! ## The repair as a list -/

section Assign
variable {ns : Namespace} {schemaId : Nat}

variable {path : List Text} {seen : List Int} {x : Int} {m m' : Metadata}

theorem searchFieldId_spec {fuel attempt : Nat}
    (h : searchFieldId ns path seen fuel attempt = some x) :
    (x ≠ 0 ∧ x ∉ seen) ∧ Candidate ns path x := by
  induction fuel generalizing attempt with
  | zero => cases h
  | succ fuel ih =>
    rw [searchFieldId] at h
    split at h
    · rename_i hfree
      cases h
      exact ⟨hfree, .inr ⟨attempt, rfl⟩⟩
    · exact ih h

theorem uniqueDeterministicFieldId_spec (h : uniqueDeterministicFieldId ns path seen = some x) :
    (x ≠ 0 ∧ x ∉ seen) ∧ Candidate ns path x := by
  rw [uniqueDeterministicFieldId] at h
  split at h
  · rename_i hfree
    cases h
    exact ⟨hfree, .inl rfl⟩
  · exact searchFieldId_spec h

theorem repairId_spec {id : Int} (h : repairId ns path id seen = some x) :
    (x ≠ 0 ∧ x ∉ seen) ∧ (x = id ∨ Candidate ns path x) := by
  rw [repairId] at h
  split at h
  · obtain ⟨hfree, hcandidate⟩ := uniqueDeterministicFieldId_spec h
    exact ⟨hfree, .inr hcandidate⟩
  · rename_i hkeep
    cases h
    exact ⟨not_or.1 hkeep, .inl rfl⟩

def assign (ns : Namespace) : List Entry → List Int → Option (List Int)
  | [], _ => some []
  | e :: es, seen => do
    let id ← repairId ns e.path e.migrated seen
    let rest ← assign ns es (id :: seen)
    return id :: rest

theorem assign_append {l l' : List Entry} {a b : List Int} (h : assign ns l seen = some a)
    (h' : assign ns l' (a.reverse ++ seen) = some b) :
    assign ns (l ++ l') seen = some (a ++ b) := by
  induction l generalizing seen a with
  | nil =>
    cases h
    exact h'
  | cons e l ih =>
    simp only [assign, Option.bind_eq_bind, Option.bind_eq_some_iff] at h
    obtain ⟨id, hid, rest, hrest, ha⟩ := h
    cases ha
    have hrest' : assign ns (l ++ l') (id :: seen) = some (rest ++ b) := by
      apply ih hrest
      rw [List.reverse_cons, List.append_assoc] at h'
      exact h'
    simp only [List.cons_append, assign, hid, hrest', Option.bind_eq_bind, Option.bind_some]
    rfl

theorem repairFields_spec {fields fields' : Fields} {migratePath : List Text} {seen' : List Int}
    (h : repairFields ns path (migrateFields ns schemaId migratePath fields) seen = some (fields', seen')) :
    assign ns (entriesOf ns schemaId migratePath path fields) seen = some (fields'.infos.map (·.fieldId)) ∧
      seen' = (fields'.infos.map (·.fieldId)).reverse ++ seen ∧
      fields'.infos.map (·.tag) = fields.infos.map (·.tag) := by
  induction fields generalizing migratePath path seen fields' seen' with
  | nil =>
    cases h
    exact ⟨rfl, rfl, rfl⟩
  | cons key info children rest ihc ihr =>
    simp only [migrateFields, repairFields, Option.bind_eq_bind, Option.bind_eq_some_iff, Prod.exists] at h
    obtain ⟨id, hid, children', seen₁, hchildren, rest', seen₂, hrest, heq⟩ := h
    cases heq
    obtain ⟨hassign, rfl, htags⟩ := ihc hchildren
    obtain ⟨hassign', rfl, htags'⟩ := ihr hrest
    have hname : outputName key (migrateInfo ns schemaId (childPath migratePath key info) info).1 =
        outputName key info := rfl
    rw [hname] at hid hassign
    refine ⟨?_, ?_, ?_⟩
    · have hboth := assign_append hassign hassign'
      simp only [entriesOf, assign, hid, hboth, Option.bind_eq_bind, Option.bind_some, Forest.infos,
        List.map_cons, List.map_append]
      rfl
    · simp only [Forest.infos, List.map_cons, List.map_append, List.reverse_cons, List.reverse_append,
        List.append_assoc, List.singleton_append]
    · simp only [Forest.infos, List.map_cons, List.map_append, htags, htags']
      rfl

theorem entriesOf_infos (fields : Fields) (migratePath path : List Text) :
    (entriesOf ns schemaId migratePath path fields).map (·.info) = fields.infos := by
  induction fields generalizing migratePath path with
  | nil => rfl
  | cons key info children rest ihc ihr =>
    rw [entriesOf, List.map_cons, List.map_append, ihc, ihr, Forest.infos]

theorem entriesOf_migrated {fields : Fields} {migratePath : List Text} {e : Entry}
    (h : e ∈ entriesOf ns schemaId migratePath path fields) (hid : e.info.fieldId ≠ 0) :
    e.migrated = e.info.fieldId := by
  induction fields generalizing migratePath path with
  | nil => cases h
  | cons key info children rest ihc ihr =>
    rw [entriesOf] at h
    rcases List.mem_cons.1 h with rfl | h
    · exact if_neg fun hz => hid hz.1
    · rcases List.mem_append.1 h with h | h
      · exact ihc h
      · exact ihr h

theorem assign_distinct {es : List Entry} {result : List Int} (h : assign ns es seen = some result) :
    result.Nodup ∧ ∀ x ∈ result, x ≠ 0 ∧ x ∉ seen := by
  induction es generalizing seen result with
  | nil =>
    cases h
    exact ⟨List.nodup_nil, fun x hx => by cases hx⟩
  | cons e es ih =>
    simp only [assign, Option.bind_eq_bind, Option.bind_eq_some_iff] at h
    obtain ⟨id, hid, rest, hrest, heq⟩ := h
    cases heq
    obtain ⟨hfree, -⟩ := repairId_spec hid
    obtain ⟨hnodup, hrest⟩ := ih hrest
    refine ⟨List.nodup_cons.2 ⟨fun hmem => (hrest id hmem).2 List.mem_cons_self, hnodup⟩, ?_⟩
    refine List.forall_mem_cons.2 ⟨hfree, fun x hx => ⟨(hrest x hx).1, fun hseen => ?_⟩⟩
    exact (hrest x hx).2 (List.mem_cons_of_mem _ hseen)

/-- **Own ids are kept** when no field met earlier is given one of them. -/
theorem assign_keeps (own : Entry → Prop) {es : List Entry} {result : List Int}
    (hown : ∀ e ∈ es, own e → e.migrated = e.info.fieldId ∧ e.info.fieldId ≠ 0)
    (hclear : es.Pairwise fun f u => own u →
      u.info.fieldId ≠ f.migrated ∧ (¬ own f → ¬ Candidate ns f.path u.info.fieldId))
    (hseen : ∀ e ∈ es, own e → e.info.fieldId ∉ seen) (h : assign ns es seen = some result) :
    List.Forall₂ (fun e id => own e → id = e.info.fieldId) es result := by
  induction es generalizing seen result with
  | nil =>
    cases h
    exact .nil
  | cons e es ih =>
    simp only [assign, Option.bind_eq_bind, Option.bind_eq_some_iff] at h
    obtain ⟨id, hid, rest, hrest, heq⟩ := h
    cases heq
    obtain ⟨hbefore, hclear⟩ := List.pairwise_cons.1 hclear
    have hkept : own e → id = e.info.fieldId := by
      intro ho
      obtain ⟨hmigrated, hne⟩ := hown e List.mem_cons_self ho
      rw [repairId, hmigrated, if_neg] at hid
      · exact (Option.some.inj hid).symm
      · exact not_or.2 ⟨hne, hseen e List.mem_cons_self ho⟩
    refine .cons hkept (ih (List.forall_mem_cons.1 hown).2 hclear ?_ hrest)
    intro u hu ho hmem
    obtain ⟨hmigrated, hcandidate⟩ := hbefore u hu ho
    rcases List.mem_cons.1 hmem with heq | hmem
    · by_cases hoe : own e
      · rw [hkept hoe, ← (hown e List.mem_cons_self hoe).1] at heq
        exact hmigrated heq
      · obtain ⟨-, hsame | hcand⟩ := repairId_spec hid
        · exact hmigrated (heq.trans hsame)
        · rw [← heq] at hcand
          exact hcandidate hoe hcand
    · exact hseen u (List.mem_cons_of_mem _ hu) ho hmem

theorem normalizeTree_spec (h : normalizeTree ns schemaId m = some m') :
    assign ns (treeEntries ns schemaId m) [] = some (ids m') ∧
      m'.children.infos.map (·.tag) = m.children.infos.map (·.tag) := by
  obtain ⟨⟨fields, seen⟩, hrepair, rfl⟩ := Option.map_eq_some_iff.1 h
  obtain ⟨hassign, -, htags⟩ := repairFields_spec hrepair
  exact ⟨hassign, htags⟩

theorem distinct_normalizeTree (h : normalizeTree ns schemaId m = some m') : Distinct m' := by
  obtain ⟨hnodup, hfree⟩ := assign_distinct (normalizeTree_spec h).1
  exact ⟨hnodup, fun hzero => (hfree 0 hzero).1 rfl⟩

theorem validateFields_ok (fields : Fields) (path : List Text) (seen : List (Int × Text))
    (hnodup : (fields.infos.map (·.fieldId)).Nodup)
    (hfree : ∀ x ∈ fields.infos.map (·.fieldId), x ≠ 0 ∧ x ∉ seen.map Prod.fst) :
    ∃ seen', validateFields path fields seen = .ok seen' ∧
      seen'.map Prod.fst = (fields.infos.map (·.fieldId)).reverse ++ seen.map Prod.fst := by
  induction fields generalizing path seen with
  | nil => exact ⟨seen, rfl, rfl⟩
  | cons key info children rest ihc ihr =>
    simp only [Forest.infos, List.map_cons, List.map_append, List.nodup_cons, List.nodup_append,
      List.mem_cons, List.mem_append, not_or, forall_eq_or_imp] at hnodup hfree
    obtain ⟨⟨hnew, hnew'⟩, hnodupc, hnodupr, hdisjoint⟩ := hnodup
    obtain ⟨⟨hne, hseen⟩, hfree⟩ := hfree
    have hlookup : seen.lookup info.fieldId = none := by
      rw [List.lookup_eq_none_iff]
      intro p hp
      rw [bne_iff_ne]
      exact fun heq => hseen (List.mem_map.2 ⟨p, hp, heq.symm⟩)
    have hfreec : ∀ x ∈ children.infos.map (·.fieldId), x ≠ 0 ∧
        x ∉ ((info.fieldId, joinDots (path ++ [outputName key info])) :: seen).map Prod.fst := by
      intro x hx
      refine ⟨(hfree x (.inl hx)).1, ?_⟩
      rw [List.map_cons, List.mem_cons, not_or]
      refine ⟨?_, (hfree x (.inl hx)).2⟩
      intro heq
      rw [heq] at hx
      exact hnew hx
    obtain ⟨seen₁, hok₁, hkeys₁⟩ := ihc (path ++ [outputName key info]) _ hnodupc hfreec
    have hfreer : ∀ x ∈ rest.infos.map (·.fieldId), x ≠ 0 ∧ x ∉ seen₁.map Prod.fst := by
      intro x hx
      refine ⟨(hfree x (.inr hx)).1, ?_⟩
      rw [hkeys₁, List.mem_append, List.mem_reverse, List.map_cons, List.mem_cons, not_or, not_or]
      refine ⟨fun hmem => hdisjoint x hmem x hx rfl, ?_, (hfree x (.inr hx)).2⟩
      intro heq
      rw [heq] at hx
      exact hnew' hx
    obtain ⟨seen₂, hok₂, hkeys₂⟩ := ihr path seen₁ hnodupr hfreer
    refine ⟨seen₂, ?_, ?_⟩
    · rw [validateFields, if_neg hne, hlookup]
      exact bind_eq_ok.2 ⟨seen₁, hok₁, hok₂⟩
    · rw [hkeys₂, hkeys₁]
      simp only [Forest.infos, List.map_cons, List.map_append, List.reverse_cons, List.reverse_append,
        List.append_assoc, List.singleton_append]

/-- The check of `normalize_namespace` passes after the repair. -/
theorem validate_repaired (h : normalizeTree ns schemaId m = some m') :
    ∃ seen, validateFields [] m'.children [] = .ok seen := by
  obtain ⟨hnodup, hzero⟩ := distinct_normalizeTree h
  obtain ⟨seen, hok, -⟩ := validateFields_ok m'.children [] [] hnodup
    fun x hx => ⟨fun heq => hzero (heq ▸ hx), fun hmem => by cases hmem⟩
  exact ⟨seen, hok⟩

theorem pairwise_count_one {L : List Int} :
    ∀ {l : List Int}, l <+ L → l.Pairwise fun a b => L.count b = 1 → a ≠ b
  | [], _ => .nil
  | a :: l, h => by
    refine .cons ?_ (pairwise_count_one ((List.sublist_cons_self a l).trans h))
    intro b hb hone heq
    subst heq
    have htwo : 2 ≤ (a :: l).count a := by
      rw [List.count_cons_self]
      have := List.count_pos_iff.2 hb
      omega
    have := h.count_le a
    omega

theorem normalizeTree_keeps (hclear : Clear ns schemaId m)
    (h : normalizeTree ns schemaId m = some m') :
    List.Forall₂ (fun info info' => info'.tag = info.tag ∧ (OwnId m info → info'.fieldId = info.fieldId))
      m.children.infos m'.children.infos := by
  obtain ⟨hassign, htags⟩ := normalizeTree_spec h
  have hinfos : (treeEntries ns schemaId m).map (·.info) = m.children.infos := entriesOf_infos ..
  have hids : (treeEntries ns schemaId m).map (·.info.fieldId) = ids m := by
    rw [ids, ← hinfos, List.map_map]
    rfl
  have honce : (treeEntries ns schemaId m).Pairwise fun f u =>
      (ids m).count u.info.fieldId = 1 → f.info.fieldId ≠ u.info.fieldId := by
    rw [← List.pairwise_map (f := fun e : Entry => e.info.fieldId)
      (R := fun a b => (ids m).count b = 1 → a ≠ b), hids]
    exact pairwise_count_one (List.Sublist.refl _)
  have hkeeps := assign_keeps (fun e => OwnId m e.info)
    (fun e he ho => ⟨entriesOf_migrated he ho.1, ho.1⟩) ?_ (fun e _ _ hmem => by cases hmem) hassign
  · rw [ids, List.forall₂_map_right_iff] at hkeeps
    have hown : List.Forall₂ (fun info info' => OwnId m info → info'.fieldId = info.fieldId)
        m.children.infos m'.children.infos := by
      rw [← hinfos, List.forall₂_map_left_iff]
      exact hkeeps
    have hsame : List.Forall₂ (fun info info' => info'.tag = info.tag)
        m.children.infos m'.children.infos := by
      have heq : List.Forall₂ Eq (m'.children.infos.map (·.tag)) (m.children.infos.map (·.tag)) :=
        List.forall₂_eq_eq_eq ▸ htags
      rw [List.forall₂_map_left_iff, List.forall₂_map_right_iff] at heq
      exact heq.flip
    exact forall₂_and hsame hown
  · have hpair := hclear.and (List.Pairwise.and_mem.1 honce)
    refine List.Pairwise.imp ?_ hpair
    intro f u hfu ho
    obtain ⟨hc, hf, -, hne⟩ := hfu
    by_cases hof : OwnId m f.info
    · refine ⟨?_, fun hnot => absurd hof hnot⟩
      rw [entriesOf_migrated hf hof.1]
      exact (hne ho.2).symm
    · exact ⟨(hc hof ho).1, fun _ => (hc hof ho).2⟩

end Assign

/-! ## Steps -/

section Steps
variable {ns : Namespace} {s s' : St} {l : Label}

inductive Moves (ns : Namespace) (s : St) : Label → St → Prop
  | grow {l : Label} {s' : St} : l.normalizes = false →
    identities s'.metadata <+~ (s.next, 0) :: identities s.metadata → s'.next = s.next + 1 →
    Moves ns s l s'
  | shrink {l : Label} {s' : St} : l.normalizes = false →
    identities s'.metadata <+~ identities s.metadata → s'.next = s.next → Moves ns s l s'
  | normalize {l : Label} {s' : St} : l.normalizes = true →
    normalizeTree ns (currentSchemaId s) s.metadata = some s'.metadata → s'.next = s.next →
    Moves ns s l s'

theorem identities_insertAt (m field : Metadata) (path : List Text) (key : Text) :
    identities (m.modifyAt path (insertChild key field)) <+~
      field.infos.map FieldInfo.identity ++ identities m := by
  have hall : (m.modifyAt path (insertChild key field)).infos.map FieldInfo.identity <+~ _ :=
    Tree.subperm_modifyAt (subperm_insertChild key field) m
  have hroot : (m.modifyAt path (insertChild key field)).info.identity = m.info.identity :=
    Tree.info_modifyAt (f := insertChild key field) (fun m => rfl) m
  rw [Tree.infos, Tree.infos, List.map_cons, List.map_cons, hroot] at hall
  exact (List.subperm_cons _).1 (hall.trans List.perm_middle.subperm)

theorem moves_of_step (h : step ns s l = some s') : Moves ns s l s' := by
  cases l with
  | discover parent key source out dataType =>
    simp only [step] at h
    split at h
    · obtain ⟨-, rfl⟩ := of_guard_not h
      exact .grow rfl (identities_insertAt s.metadata _ parent key) rfl
    · cases h
  | alter op =>
    simp only [step] at h
    split at h
    · rename_i m hm
      cases h
      exact .shrink rfl (shrinks_apply hm).identities rfl
    · cases h
  | migratePersistedMetadata =>
    obtain ⟨m, hm, rfl⟩ := Option.map_eq_some_iff.1 h
    exact .normalize rfl hm rfl
  | normalizeNamespace =>
    simp only [step] at h
    split at h
    · rename_i m hm
      split at h
      · cases h
        exact .normalize rfl hm rfl
      · cases h
    · cases h
  | reorder fields =>
    obtain ⟨hshuffled, rfl⟩ := of_guard h
    exact .shrink rfl ((Forest.perm_of_shuffled hshuffled).map _).subperm rfl

theorem tags_normalizeTree {schemaId : Nat} {m m' : Metadata}
    (h : normalizeTree ns schemaId m = some m') :
    (identities m').map Prod.fst = (identities m).map Prod.fst := by
  have htags := (normalizeTree_spec h).2
  rw [identities, identities, List.map_map, List.map_map]
  exact htags

theorem tagged_step (ht : Tagged s) (h : step ns s l = some s') : Tagged s' := by
  obtain ⟨hnodup, hlt⟩ := ht
  cases moves_of_step h with
  | grow _ hsub hnext =>
    have hfresh : s.next ∉ (identities s.metadata).map Prod.fst := by
      intro hmem
      obtain ⟨p, hp, heq⟩ := List.mem_map.1 hmem
      have := hlt p hp
      omega
    refine ⟨nodup_map_of_subperm hsub (List.nodup_cons.2 ⟨hfresh, hnodup⟩), ?_⟩
    intro p hp
    rw [hnext]
    rcases List.mem_cons.1 (hsub.subset hp) with rfl | hp
    · exact Nat.lt_succ_self _
    · exact Nat.lt_succ_of_lt (hlt p hp)
  | shrink _ hsub hnext =>
    refine ⟨nodup_map_of_subperm hsub hnodup, ?_⟩
    intro p hp
    rw [hnext]
    exact hlt p (hsub.subset hp)
  | normalize _ hnorm hnext =>
    have htags := tags_normalizeTree hnorm
    refine ⟨htags ▸ hnodup, ?_⟩
    intro p hp
    have hmem : p.1 ∈ (identities s.metadata).map Prod.fst := htags ▸ List.mem_map_of_mem hp
    obtain ⟨q, hq, heq⟩ := List.mem_map.1 hmem
    rw [hnext, ← heq]
    exact hlt q hq

variable {tag : Nat} {x : Int}

def Tracked (tag : Nat) (x : Int) (s : St) : Prop :=
  tag < s.next ∧ ((∀ p ∈ identities s.metadata, p.1 ≠ tag) ∨ Holds s.metadata tag x)

theorem count_of_holds (ht : Tagged s) (h : Holds s.metadata tag x) : (ids s.metadata).count x = 1 := by
  obtain ⟨-, hmem, honly⟩ := h
  have hids : ids s.metadata = (identities s.metadata).map Prod.snd := by
    rw [ids, identities, List.map_map]
    rfl
  rw [hids]
  have hnodup := ht.1
  generalize identities s.metadata = l at hmem honly hnodup
  induction l with
  | nil => cases hmem
  | cons p l ih =>
    rw [List.map_cons, List.nodup_cons] at hnodup
    rw [List.map_cons]
    by_cases hp : p.2 = x
    · -- No other field has the tag of this one, so none has its id.
      have hrest : x ∉ l.map Prod.snd := by
        intro hx
        obtain ⟨q, hq, heq⟩ := List.mem_map.1 hx
        apply hnodup.1
        rw [honly p List.mem_cons_self hp, ← honly q (List.mem_cons_of_mem _ hq) heq]
        exact List.mem_map_of_mem hq
      rw [hp, List.count_cons_self, List.count_eq_zero_of_not_mem hrest]
    · have hmem : (tag, x) ∈ l := by
        rcases List.mem_cons.1 hmem with heq | hmem
        · exact absurd (congrArg Prod.snd heq).symm hp
        · exact hmem
      rw [List.count_cons_of_ne hp]
      exact ih hmem (List.forall_mem_cons.1 honly).2 hnodup.2

theorem holds_normalizeTree (ht : Tagged s) {schemaId : Nat} {m' : Metadata}
    (hclear : Clear ns schemaId s.metadata) (h : normalizeTree ns schemaId s.metadata = some m')
    (hholds : Holds s.metadata tag x) : Holds m' tag x := by
  obtain ⟨hne, hmem, -⟩ := id hholds
  have hcount := count_of_holds ht hholds
  obtain ⟨info, hinfo, hidentity⟩ := List.mem_map.1 hmem
  obtain ⟨htag, hid⟩ := Prod.mk.inj hidentity
  -- The field stands at the same place of the walk, with the same id.
  obtain ⟨i, hi⟩ := List.getElem?_of_mem hinfo
  have hforall := List.forall₂_iff_get.1 (normalizeTree_keeps hclear h)
  obtain ⟨hlt, hi⟩ := List.getElem?_eq_some_iff.1 hi
  have hlt' : i < m'.children.infos.length := hforall.1 ▸ hlt
  have hkept := hforall.2 i hlt hlt'
  rw [List.get_eq_getElem, List.get_eq_getElem, hi] at hkept
  have hown : OwnId s.metadata info := by
    rw [OwnId, hid]
    exact ⟨hne, hcount⟩
  have hmem' : (tag, x) ∈ identities m' := by
    refine List.mem_map.2 ⟨m'.children.infos[i], List.getElem_mem hlt', ?_⟩
    rw [FieldInfo.identity, hkept.1, hkept.2 hown, htag, hid]
  refine ⟨hne, hmem', ?_⟩
  intro p hp hpx
  -- All ids are distinct now.
  have hids : ((identities m').map Prod.snd).Nodup := by
    have hdistinct := (distinct_normalizeTree h).1
    rw [identities, List.map_map]
    exact hdistinct
  have heq : p = (tag, x) := List.inj_on_of_nodup_map hids hp hmem' hpx
  rw [heq]

theorem tracked_step (ht : Tagged s) (hclear : Undisturbed ns s l) (htracked : Tracked tag x s)
    (h : step ns s l = some s') : Tracked tag x s' := by
  obtain ⟨hlt, hfield⟩ := htracked
  cases moves_of_step h with
  | grow _ hsub hnext =>
    rw [Tracked, hnext]
    refine ⟨Nat.lt_succ_of_lt hlt, ?_⟩
    have hold : ∀ p ∈ identities s'.metadata, p = (s.next, 0) ∨ p ∈ identities s.metadata :=
      fun p hp => List.mem_cons.1 (hsub.subset hp)
    rcases hfield with hgone | hholds
    · refine .inl fun p hp => ?_
      rcases hold p hp with rfl | hp
      · exact Nat.ne_of_gt hlt
      · exact hgone p hp
    · by_cases hthere : (tag, x) ∈ identities s'.metadata
      · refine .inr ⟨hholds.1, hthere, fun p hp hpx => ?_⟩
        rcases hold p hp with rfl | hp
        · exact absurd hpx.symm hholds.1
        · exact hholds.2.2 p hp hpx
      · refine .inl fun p hp heq => ?_
        rcases hold p hp with rfl | hp'
        · exact Nat.ne_of_gt hlt heq
        · exact hthere (List.inj_on_of_nodup_map ht.1 hp' hholds.2.1 heq ▸ hp)
  | shrink _ hsub hnext =>
    rw [Tracked, hnext]
    refine ⟨hlt, ?_⟩
    rcases hfield with hgone | hholds
    · exact .inl fun p hp => hgone p (hsub.subset hp)
    · by_cases hthere : (tag, x) ∈ identities s'.metadata
      · exact .inr ⟨hholds.1, hthere, fun p hp => hholds.2.2 p (hsub.subset hp)⟩
      · exact .inl fun p hp heq =>
          hthere (List.inj_on_of_nodup_map ht.1 (hsub.subset hp) hholds.2.1 heq ▸ hp)
  | normalize hl hnorm hnext =>
    rw [Tracked, hnext]
    refine ⟨hlt, ?_⟩
    rcases hfield with hgone | hholds
    · refine .inl fun p hp heq => ?_
      have hmem : p.1 ∈ (identities s.metadata).map Prod.fst :=
        tags_normalizeTree hnorm ▸ List.mem_map_of_mem hp
      obtain ⟨q, hq, hqp⟩ := List.mem_map.1 hmem
      exact hgone q hq (hqp.trans heq)
    · exact .inr (holds_normalizeTree ht (hclear hl) hnorm hholds)

end Steps

/-! ## Runs -/

/-- **Ids are distinct and stay.** In every run each normalisation leaves all ids
non-zero and distinct; and if in none a field that needs an id is hashed to one
that a field met after it has for its own, then a field that has an id to itself
has it in every later state it is in. -/
theorem field_ids_kept (ns : Namespace) (s s' : St) (ls : List Label) :
    (∀ l, l.normalizes = true → step ns s l = some s' → Distinct s'.metadata) ∧
      (((system ns).restrict (Undisturbed ns)).Reachable s →
        ((system ns).restrict (Undisturbed ns)).Run s ls s' →
        ∀ tag x, Holds s.metadata tag x → Keeps s'.metadata tag x) := by
  constructor
  · intro l hl h
    cases moves_of_step h with
    | grow hnot | shrink hnot => exact absurd hl (by rw [hnot]; decide)
    | normalize _ hnorm => exact distinct_normalizeTree hnorm
  · intro hreach hrun tag x hholds
    have htagged : ((system ns).restrict (Undisturbed ns)).Inductive Tagged :=
      ⟨fun s hs => hs, fun s l s' ht hstep => tagged_step ht hstep.2⟩
    have ht := htagged.reachable s hreach
    have htracked : Tagged s' ∧ Tracked tag x s' :=
      hrun.keeps (P := fun s => Tagged s ∧ Tracked tag x s) (fun _ _ _ h hstep =>
          ⟨tagged_step h.1 hstep.2, tracked_step h.1 hstep.1 h.2 hstep.2⟩)
        ⟨ht, ht.2 _ hholds.2.1, .inr hholds⟩
    intro p hp heq
    rcases htracked.2.2 with hgone | hholds'
    · exact absurd heq (hgone p hp)
    · rw [List.inj_on_of_nodup_map htracked.1.1 hp hholds'.2.1 heq]

/-! ## A name used twice -/

instance (m : Metadata) (tag : Nat) (x : Int) : Decidable (Holds m tag x) :=
  inferInstanceAs (Decidable (_ ∧ _ ∧ _))

instance (m : Metadata) (tag : Nat) (x : Int) : Decidable (Keeps m tag x) :=
  inferInstanceAs (Decidable (∀ p ∈ identities m, _))

def ordersNs : Namespace := ⟨['n'], md5⟩

def emptyNamespace : St := ⟨1, ⟨⟨0, [], [], .record, ∅, 0, 1, []⟩, .nil⟩, 1⟩

theorem tagged_emptyNamespace : Tagged emptyNamespace :=
  ⟨List.nodup_nil, fun p hp => by cases hp⟩

def discoverA : Label := .discover [] ['a'] ['a'] ['a'] .string

def renameA : Label := .alter (.rename ['a'] ['b'])

def idOfA : Int := deterministicFieldId ordersNs [['a']]

theorem field_ids_kept_rename : ∃ s s',
    ((system ordersNs).restrict (Undisturbed ordersNs)).Reachable s ∧
      ((system ordersNs).restrict (Undisturbed ordersNs)).Run s [renameA] s' ∧
      Holds s.metadata 1 idOfA ∧ Keeps s'.metadata 1 idOfA := by
  have hrun : (step ordersNs emptyNamespace discoverA).any fun s₁ =>
      (step ordersNs s₁ .normalizeNamespace).any fun s₂ =>
        Holds s₂.metadata 1 idOfA ∧ (step ordersNs s₂ renameA).isSome := by decide +kernel
  obtain ⟨s₁, hs₁, hrun⟩ := (Option.any_eq_true ..).1 hrun
  obtain ⟨s₂, hs₂, hrun⟩ := (Option.any_eq_true ..).1 hrun
  obtain ⟨hholds, hsome⟩ := of_decide_eq_true hrun
  obtain ⟨s₃, hs₃⟩ := Option.isSome_iff_exists.1 hsome
  have hclear : Undisturbed ordersNs s₁ .normalizeNamespace := by
    intro _
    cases hs₁
    exact List.pairwise_singleton _ _
  have hreach : ((system ordersNs).restrict (Undisturbed ordersNs)).Reachable s₂ :=
    ⟨emptyNamespace, [discoverA, .normalizeNamespace], tagged_emptyNamespace,
      .cons ⟨(fun h => by cases h), hs₁⟩ (.cons ⟨hclear, hs₂⟩ (.nil _))⟩
  have hlast : ((system ordersNs).restrict (Undisturbed ordersNs)).Run s₂ [renameA] s₃ :=
    .cons ⟨(fun h => by cases h), hs₃⟩ (.nil _)
  exact ⟨s₂, s₃, hreach, hlast, hholds, (field_ids_kept ordersNs s₂ s₃ [renameA]).2 hreach hlast 1 idOfA hholds⟩

def swap : Fields → Fields
  | .cons key info children (.cons key' info' children' rest) =>
    .cons key' info' children' (.cons key info children rest)
  | fields => fields

/-- `a` gets its id, is renamed to `b` and keeps it; then another `a` is
discovered, and the hash map meets it first: it is hashed to the same id, and `b`
is given a new one. -/
theorem renamed_loses_id : ∃ s ls s', (system ordersNs).Reachable s ∧ (system ordersNs).Run s ls s' ∧
    Holds s.metadata 1 idOfA ∧ ¬ Keeps s'.metadata 1 idOfA := by
  obtain ⟨s, hreach, hholds, hrun⟩ : ∃ s, (system ordersNs).Reachable s ∧ Holds s.metadata 1 idOfA ∧
      (exec (step ordersNs) s [.reorder (swap s.metadata.children), .normalizeNamespace]).any fun s' =>
        ¬ Keeps s'.metadata 1 idOfA :=
    exists_reachable [discoverA, .normalizeNamespace, renameA, discoverA] tagged_emptyNamespace
      (by decide +kernel)
  obtain ⟨s', hs', hlost⟩ := (Option.any_eq_true ..).1 hrun
  exact ⟨s, _, s', hreach, run_of_exec hs', hholds, of_decide_eq_true hlost⟩

def sameIds : Metadata :=
  let info : FieldInfo := ⟨1, ['a'], ['a'], .string, ∅, 5, 1, []⟩
  ⟨info, .cons ['a'] info .nil (.cons ['b'] { info with outFieldName := ['b'] } .nil .nil)⟩

theorem validate_repaired_sameIds : ∃ m' seen, normalizeTree ordersNs 1 sameIds = some m' ∧
    validateFields [] m'.children [] = .ok seen := by
  obtain ⟨m', hm'⟩ : ∃ m', normalizeTree ordersNs 1 sameIds = some m' :=
    Option.isSome_iff_exists.1 (by decide +kernel)
  obtain ⟨seen, hseen⟩ := validate_repaired hm'
  exact ⟨m', seen, hm', hseen⟩

end Skippr.L9
