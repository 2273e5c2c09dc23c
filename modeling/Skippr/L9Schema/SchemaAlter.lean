import Skippr.Core.Fallible
import Skippr.Core.Forest
import Skippr.Core.Map
import Skippr.Core.Text

/-!
# Schema metadata and its DDL

The metadata of a namespace is a tree of fields (src/discover/mod.rs:381-409); an
`ALTER TABLE` renames, merges, drops or promotes a column of it
(src/discover/schema_alter.rs). Columns are named by dotted paths, or without
dots by their output name at any depth, met in the order of the hash maps; the
children of a node stand in that order here.

`FieldInfo.tag` tells which field a node is, under whatever name; no function of
the code reads it.
-/
namespace Skippr.L9

open scoped List

/-! ## Metadata -/

/-- mirrors discover/mod.rs:958-981 -/
inductive SkipprDataType
  | record | map | array | date | string | long | integer | short | byte | double | float | decimal
  | boolean | timestampMilli | timestamp | time | binary | uuid | fixed | json | null | unknown
deriving DecidableEq, Repr

/-- mirrors src/discover/evolution.rs:13-18 -/
structure Evolution where
  typeString : SkipprDataType
  newField : Text
  solved : Bool
deriving DecidableEq, Repr

/-- By entries, so that it evaluates. -/
instance {V : Type} [DecidableEq V] : DecidableEq (Map Text V) :=
  fun m m' => decidable_of_iff (m.entries = m'.entries) AList.ext_iff.symm

structure FieldInfo where
  tag : Nat
  sourceFieldName : Text
  outFieldName : Text
  determinedType : SkipprDataType
  evolution : Map Text Evolution
  fieldId : Int
  schemaId : Nat
  lineageId : Text
deriving DecidableEq

abbrev Fields := Forest Text FieldInfo

abbrev Metadata := Tree Text FieldInfo

/-! ## Looking columns up -/

def segments (name : Text) : List Text := name.splitOn '.'

def joinDots (segs : List Text) : Text := List.intercalate ['.'] segs

def lastSegment (name : Text) : Text := (segments name).getLast?.getD name

def flatPathBelow (name : Text) : Fields → Option (List Text)
  | .nil => none
  | .cons key info children rest =>
    if info.outFieldName = name then some [key]
    else match flatPathBelow name children with
      | some path => some (key :: path)
      | none => flatPathBelow name rest

/-- `get_nested_metadata_from_field_notation`: where the node it returns stands.
mirrors discover/mod.rs:833-886 -/
def nestedPath (m : Metadata) (name : Text) : Option (List Text) :=
  if '.' ∈ name then
    if (m.get? (segments name)).isSome then some (segments name) else none
  else if m.info.outFieldName = name then some []
  else flatPathBelow name m.children

def keyByOutName (name : Text) : Fields → Option Text
  | .nil => none
  | .cons key info _ rest => if info.outFieldName = name then some key else keyByOutName name rest

/-- mirrors schema_alter.rs:295-313 -/
def findField (m : Metadata) (name : Text) : Option Metadata :=
  if m.info.outFieldName = name ∨ m.info.outFieldName = lastSegment name then some m
  else match m.children.get name with
    | some child => some child
    | none =>
      if '.' ∈ name then m.get? (segments name)
      else (keyByOutName name m.children).bind m.children.get

inductive SchemaAlterError
  /-- `column '{0}' not found` -/
  | columnNotFound (name : Text)
  /-- `column '{0}' already exists` -/
  | columnExists (name : Text)
  /-- `cannot promote {from} to {to}; ...` -/
  | illegalPromote (source target : SkipprDataType)
  /-- `cannot rename '{from}' into itself` -/
  | renameIntoItself (source : Text)
  /-- `RENAME COLUMN target parent '{parent_path}' is not a record` -/
  | parentNotRecord (parent : Text)
  /-- `MERGE COLUMN source and destination must differ` -/
  | mergeIntoItself
deriving DecidableEq, Repr

/-- The parent of a column and the column's key in it.
mirrors schema_alter.rs:315-350 -/
def parentAndLeaf (m : Metadata) (path : Text) : Except SchemaAlterError (List Text × Text) :=
  let segs := segments path
  let leaf := segs.getLast?.getD []
  let parentPath := if segs.length = 1 then some [] else nestedPath m (joinDots segs.dropLast)
  match parentPath.bind fun p => (m.get? p).map fun parent => (p, parent) with
  | none => .error (.columnNotFound path)
  | some (p, parent) =>
    if (parent.children.get leaf).isSome then .ok (p, leaf)
    else match keyByOutName leaf parent.children with
      | some key => .ok (p, key)
      | none => .error (.columnNotFound path)

/-- mirrors schema_alter.rs:83-95 -/
def exactPathExists (m : Metadata) (name : Text) : Bool :=
  if '.' ∈ name then (m.get? (segments name)).isSome else (m.children.get name).isSome

def flattenNameSegment (name : Text) : Text := name.map fun c => if c = '-' then '_' else c

/-- mirrors schema_alter.rs:97-129 -/
def flattenPathFor (flatBase dotBase want : Text) : Fields → Option Text
  | .nil => none
  | .cons key info children rest =>
    let segment := if info.outFieldName = [] then key else info.outFieldName
    let flat := if flatBase = [] then flattenNameSegment segment
      else flatBase ++ '_' :: flattenNameSegment segment
    let dotted := if dotBase = [] then key else dotBase ++ '.' :: key
    if flat = want then some dotted
    else match flattenPathFor flat dotted want children with
      | some hit => some hit
      | none => flattenPathFor flatBase dotBase want rest

/-- mirrors schema_alter.rs:66-81 -/
def resolveFieldPath (m : Metadata) (name : Text) : Except SchemaAlterError Text :=
  if exactPathExists m name then .ok name
  else match if '.' ∈ name then none else keyByOutName name m.children with
    | some key => .ok key
    | none => match flattenPathFor [] [] name m.children with
      | some path => .ok path
      | none => .error (.columnNotFound name)

/-! ## Operations -/

/-- mirrors schema_alter.rs:8-13 -/
inductive SchemaAlterOp
  | rename (source target : Text)
  | merge (src dst : Text)
  | drop (column : Text)
  | promote (column : Text) (target : SkipprDataType)
deriving DecidableEq, Repr

/-- mirrors schema_alter.rs:29-41 -/
def isIcebergLegalPromote (source target : SkipprDataType) : Bool :=
  source = target || match source, target with
    | .byte, .long | .short, .long | .integer, .long | .byte, .integer | .short, .integer
    | .float, .double | .timestampMilli, .timestamp => true
    | _, _ => false

/-- mirrors schema_alter.rs:43-64 -/
def canonicalizeOp (m : Metadata) : SchemaAlterOp → Except SchemaAlterError SchemaAlterOp
  | .rename source target => (resolveFieldPath m source).map (.rename · target)
  | .merge src dst => do
    let src ← resolveFieldPath m src
    let dst ← resolveFieldPath m dst
    return .merge src dst
  | .drop column => (resolveFieldPath m column).map .drop
  | .promote column target => (resolveFieldPath m column).map (.promote · target)

/-- mirrors schema_alter.rs:131-140 -/
def fieldIdForOp (m : Metadata) (op : SchemaAlterOp) : Except SchemaAlterError Int :=
  let name := match op with
    | .rename source _ => source
    | .merge src _ => src
    | .drop column => column
    | .promote column _ => column
  match findField m name with
  | some field => .ok field.info.fieldId
  | none => .error (.columnNotFound name)

/-- mirrors schema_alter.rs:362-388 -/
def retargetEvolution (source : Text) (target : Option Text) (e : Evolution) : Option Evolution :=
  if e.newField = source ∨ e.newField = lastSegment source then
    target.map fun name => { e with newField := if e.newField = source then name else lastSegment name }
  else some e

def retargetInfo (source : Text) (target : Option Text) (info : FieldInfo) : FieldInfo :=
  { info with evolution := info.evolution.filterMap (retargetEvolution source target) }

/-- mirrors schema_alter.rs:356-395 -/
def retargetEvolutionFields (m : Metadata) (source : Text) (target : Option Text) : Metadata :=
  ⟨retargetInfo source target m.info, m.children.map (retargetInfo source target)⟩

def eraseChild (key : Text) (m : Metadata) : Metadata := { m with children := m.children.erase key }

def insertChild (key : Text) (field m : Metadata) : Metadata :=
  { m with children := m.children.insert key field }

/-- `remove_nested_metadata_from_dot_notation`. mirrors discover/mod.rs:888-923 -/
def removeNested (path : List Text) (m : Metadata) : Metadata :=
  match path.getLast? with
  | some leaf => m.modifyAt path.dropLast (eraseChild leaf)
  | none => m

/-- mirrors schema_alter.rs:151-157 -/
def dropColumn (m : Metadata) (column : Text) : Except SchemaAlterError Metadata :=
  match nestedPath m column with
  | none => .error (.columnNotFound column)
  | some _ => .ok (retargetEvolutionFields (removeNested (segments column) m) column none)

def setType (target : SkipprDataType) (m : Metadata) : Metadata :=
  { m with info := { m.info with determinedType := target } }

/-- mirrors schema_alter.rs:159-174 -/
def promoteColumn (m : Metadata) (column : Text) (target : SkipprDataType) :
    Except SchemaAlterError Metadata :=
  match (nestedPath m column).bind fun path => (m.get? path).map fun field => (path, field) with
  | none => .error (.columnNotFound column)
  | some (path, field) =>
    if isIcebergLegalPromote field.info.determinedType target then .ok (m.modifyAt path (setType target))
    else .error (.illegalPromote field.info.determinedType target)

/-- mirrors schema_alter.rs:191-200 -/
def destParentPath (target : Text) : Option Text :=
  let segs := (segments target).filter (· ≠ [])
  if segs.length ≤ 1 then none else some (joinDots segs.dropLast)

/-- mirrors schema_alter.rs:202-219 -/
def ensureRenameDest (m : Metadata) (source target : Text) : Except SchemaAlterError Unit :=
  match destParentPath target with
  | none => .ok ()
  | some parentPath =>
    if parentPath = source ∨ (source ++ ['.']).isPrefixOf parentPath then .error (.renameIntoItself source)
    else match findField m parentPath with
      | none => .error (.columnNotFound target)
      | some parent =>
        if parent.info.determinedType = .record then .ok () else .error (.parentNotRecord parentPath)

/-- The field, and the tree without it. mirrors schema_alter.rs:221-227 -/
def takeField (m : Metadata) (path : Text) : Except SchemaAlterError (Metadata × Metadata) := do
  let (parent, key) ← parentAndLeaf m path
  match (m.get? parent).bind fun p => p.children.get key with
  | some field => .ok (field, m.modifyAt parent (eraseChild key))
  | none => .error (.columnNotFound path)

/-- mirrors schema_alter.rs:229-247 -/
def insertFieldAtPath (m : Metadata) (target : Text) (field : Metadata) : Except SchemaAlterError Metadata :=
  match destParentPath target with
  | none => .ok (insertChild (lastSegment target) field m)
  | some parentPath =>
    match nestedPath m parentPath with
    | some path => .ok (m.modifyAt path (insertChild (lastSegment target) field))
    | none => .error (.columnNotFound target)

def setOutName (name : Text) (m : Metadata) : Metadata :=
  { m with info := { m.info with outFieldName := name } }

/-- mirrors schema_alter.rs:176-189 -/
def renameColumn (m : Metadata) (source target : Text) : Except SchemaAlterError Metadata :=
  if source = target then .ok m
  else if (findField m target).isSome then .error (.columnExists target)
  else do
    ensureRenameDest m source target
    let (field, left) ← takeField m source
    let renamed ← insertFieldAtPath left target (setOutName (lastSegment target) field)
    return retargetEvolutionFields renamed source (some target)

/-- A field of the merged type is routed here already. -/
def addRoute (src dst : Text) (srcType : SkipprDataType) (m : Metadata) : Metadata :=
  if m.info.evolution.toList.any fun e => e.2.typeString = srcType ∧ e.2.newField = lastSegment dst then m
  else { m with
    info := { m.info with evolution := m.info.evolution.insert src ⟨srcType, lastSegment dst, true⟩ } }

/-- mirrors schema_alter.rs:249-289 -/
def mergeColumn (m : Metadata) (src dst : Text) : Except SchemaAlterError Metadata :=
  if src = dst then .error .mergeIntoItself
  else match (nestedPath m src).bind fun path => m.get? path with
    | none => .error (.columnNotFound src)
    | some field =>
      match nestedPath m dst with
      | none => .error (.columnNotFound dst)
      | some path => do
        let retargeted := retargetEvolutionFields m src (some dst)
        let routed := retargeted.modifyAt path (addRoute src dst field.info.determinedType)
        let (_, left) ← takeField routed src
        return left

/-- mirrors schema_alter.rs:142-149 -/
def apply (m : Metadata) : SchemaAlterOp → Except SchemaAlterError Metadata
  | .rename source target => renameColumn m source target
  | .merge src dst => mergeColumn m src dst
  | .drop column => dropColumn m column
  | .promote column target => promoteColumn m column target

/-! ## Fields and their ids -/

def FieldInfo.identity (info : FieldInfo) : Nat × Int := (info.tag, info.fieldId)

def identities (m : Metadata) : List (Nat × Int) := m.children.infos.map FieldInfo.identity

structure Shrinks (m m' : Metadata) : Prop where
  root : m'.info.identity = m.info.identity
  subperm : m'.infos.map FieldInfo.identity <+~ m.infos.map FieldInfo.identity

variable {m m' field : Metadata}

theorem Shrinks.identities (h : Shrinks m m') : L9.identities m' <+~ L9.identities m := by
  have hall := h.subperm
  rw [Tree.infos, Tree.infos, List.map_cons, List.map_cons, h.root, List.subperm_cons] at hall
  exact hall

theorem Shrinks.refl (m : Metadata) : Shrinks m m := ⟨rfl, List.Subperm.refl _⟩

theorem Shrinks.trans {m'' : Metadata} (h : Shrinks m m') (h' : Shrinks m' m'') : Shrinks m m'' :=
  ⟨h'.root.trans h.root, h'.subperm.trans h.subperm⟩

theorem shrinks_modifyAt {f : Metadata → Metadata} (h : ∀ m, Shrinks m (f m)) (path : List Text)
    (m : Metadata) : Shrinks m (m.modifyAt path f) :=
  ⟨Tree.info_modifyAt (fun m => (h m).root) m,
    Tree.subperm_modifyAt (l := []) (fun m => (h m).subperm) m⟩

theorem shrinks_setInfo {info : FieldInfo} (h : info.identity = m.info.identity) :
    Shrinks m { m with info := info } := by
  refine ⟨h, ?_⟩
  rw [Tree.infos, Tree.infos, List.map_cons, List.map_cons, h]

theorem shrinks_eraseChild (key : Text) (m : Metadata) : Shrinks m (eraseChild key m) :=
  ⟨rfl, (((Forest.sublist_erase key m.children).cons_cons m.info).map _).subperm⟩

theorem shrinks_retarget (m : Metadata) (source : Text) (target : Option Text) :
    Shrinks m (retargetEvolutionFields m source target) := by
  refine ⟨rfl, ?_⟩
  rw [Tree.infos, Tree.infos, retargetEvolutionFields, Forest.infos_map, List.map_cons, List.map_map]
  rfl

theorem takeField_perm {left : Metadata} {path : Text} (h : takeField m path = .ok (field, left)) :
    m.infos ~ field.infos ++ left.infos ∧ left.info.identity = m.info.identity := by
  rw [takeField, bind_eq_ok] at h
  obtain ⟨⟨parent, key⟩, -, h⟩ := h
  dsimp only at h
  split at h
  · rename_i field' hfield
    obtain ⟨p, hp, hkey⟩ := Option.bind_eq_some_iff.1 hfield
    cases h
    exact ⟨Tree.perm_take hp hkey, (shrinks_modifyAt (shrinks_eraseChild key) parent m).root⟩
  · cases h

theorem shrinks_takeField {left : Metadata} {path : Text} (h : takeField m path = .ok (field, left)) :
    Shrinks m left := by
  obtain ⟨hperm, hroot⟩ := takeField_perm h
  refine ⟨hroot, ?_⟩
  have hall := hperm.map FieldInfo.identity
  rw [List.map_append] at hall
  exact (List.sublist_append_right _ _).subperm.trans hall.symm.subperm

theorem subperm_insertChild (key : Text) (field m : Metadata) :
    (insertChild key field m).infos.map FieldInfo.identity <+~
      field.infos.map FieldInfo.identity ++ m.infos.map FieldInfo.identity := by
  have hperm := (Forest.perm_insert key field m.children).map FieldInfo.identity
  have herase := ((Forest.sublist_erase key m.children).map FieldInfo.identity).subperm
  rw [List.map_append] at hperm
  rw [insertChild, Tree.infos, Tree.infos, List.map_cons, List.map_cons]
  have hchildren := hperm.subperm.trans ((List.subperm_append_left _).2 herase)
  exact ((List.subperm_cons _).2 hchildren).trans List.perm_middle.symm.subperm

theorem insertFieldAtPath_subperm {target : Text} (h : insertFieldAtPath m target field = .ok m') :
    m'.info.identity = m.info.identity ∧ m'.infos.map FieldInfo.identity <+~
      field.infos.map FieldInfo.identity ++ m.infos.map FieldInfo.identity := by
  rw [insertFieldAtPath] at h
  split at h
  · cases h
    exact ⟨rfl, subperm_insertChild _ field m⟩
  · split at h
    · cases h
      exact ⟨Tree.info_modifyAt (f := insertChild _ field) (fun m => rfl) m,
        Tree.subperm_modifyAt (subperm_insertChild _ field) m⟩
    · cases h

theorem shrinks_renameColumn {source target : Text} (h : renameColumn m source target = .ok m') :
    Shrinks m m' := by
  rw [renameColumn] at h
  split at h
  · cases h
    exact .refl m
  split at h
  · cases h
  simp only [bind_eq_ok] at h
  obtain ⟨-, -, ⟨field, left⟩, htake, renamed, hinsert, hretarget⟩ := h
  cases hretarget
  obtain ⟨hperm, hleft⟩ := takeField_perm htake
  obtain ⟨hroot, hsub⟩ := insertFieldAtPath_subperm hinsert
  refine Shrinks.trans ⟨hroot.trans hleft, hsub.trans ?_⟩ (shrinks_retarget renamed source (some target))
  -- The renamed field is the one taken out, under another output name.
  have hall := hperm.map FieldInfo.identity
  rw [List.map_append] at hall
  exact hall.symm.subperm

theorem shrinks_mergeColumn {src dst : Text} (h : mergeColumn m src dst = .ok m') :
    Shrinks m m' := by
  obtain ⟨-, h⟩ := of_check h
  split at h
  · cases h
  split at h
  · cases h
  simp only [bind_eq_ok] at h
  obtain ⟨⟨taken, left⟩, htake, hleft⟩ := h
  cases hleft
  refine (shrinks_retarget m src (some dst)).trans (Shrinks.trans ?_ (shrinks_takeField htake))
  refine shrinks_modifyAt (fun m => ?_) _ _
  rw [addRoute]
  split
  · exact .refl m
  · exact shrinks_setInfo rfl

theorem shrinks_dropColumn {column : Text} (h : dropColumn m column = .ok m') : Shrinks m m' := by
  rw [dropColumn] at h
  split at h
  · cases h
  cases h
  refine Shrinks.trans ?_ (shrinks_retarget _ column none)
  rw [removeNested]
  split
  · exact shrinks_modifyAt (shrinks_eraseChild _) _ m
  · exact .refl m

theorem shrinks_promoteColumn {column : Text} {target : SkipprDataType}
    (h : promoteColumn m column target = .ok m') : Shrinks m m' := by
  rw [promoteColumn] at h
  split at h
  · cases h
  split at h
  · cases h
    exact shrinks_modifyAt (f := setType target) (fun _ => shrinks_setInfo rfl) _ m
  · cases h

/-- **An operation gives no field an id**, and adds no field. -/
theorem shrinks_apply {op : SchemaAlterOp} (h : apply m op = .ok m') : Shrinks m m' := by
  cases op with
  | rename source target => exact shrinks_renameColumn h
  | merge src dst => exact shrinks_mergeColumn h
  | drop column => exact shrinks_dropColumn h
  | promote column target => exact shrinks_promoteColumn h

end Skippr.L9
