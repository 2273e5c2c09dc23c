import Skippr.Core.LTS
import Skippr.Core.Map

/-!
# `FsCatalog`: the filesystem Iceberg catalog

A table's metadata is `{version:05}-{uuid}.metadata.json`; the file is made
current by creating the Hadoop alias `v{N}.metadata.json` with the same bytes,
which succeeds for one writer only, and then writing `version-hint.text`. A load
takes the greater of the listed and the hinted version. After a commit, the
metadata files it dropped from the metadata log may be deleted, and with each
its alias (crates/skippr-iceberg-catalog-fs/src/lib.rs).

Every listing, read, write, creation and deletion of a file is a step of the
call that makes it.
-/
namespace Skippr.L6.FsCatalog

/-! ## Metadata -/

/-- The `update_table` call that staged a metadata; `none` for the metadata
`create_table` wrote. It stands for the uuid of the file and for what makes its
bytes differ from those of any other. -/
abbrev MetadataId := Option Nat

/-- The name of `{version:05}-{uuid}.metadata.json`. -/
structure Location where
  version : Nat
  uuid : MetadataId
deriving DecidableEq, Repr

/-- `ancestors`: the metadata it was staged from, the one that was staged from,
and so on. -/
structure Metadata where
  id : MetadataId
  version : Nat
  ancestors : List MetadataId
  metadataLog : List Location
  deleteAfterCommit : Bool
deriving DecidableEq, Repr

def Metadata.location (m : Metadata) : Location := ⟨m.version, m.id⟩

/-- The properties of the committed table that decide which metadata files it
keeps. -/
structure TableCommit where
  previousVersionsMax : Nat
  deleteAfterCommit : Bool
deriving DecidableEq, Repr

/-- The metadata call `n` stages: the next version, under a new uuid, with the
current one added to the metadata log. -/
def TableCommit.apply (commit : TableCommit) (n : Nat) (current : Metadata) : Metadata :=
  let log := current.metadataLog ++ [current.location]
  { id := some n
    version := current.version + 1
    ancestors := current.id :: current.ancestors
    metadataLog := log.drop (log.length - commit.previousVersionsMax)
    deleteAfterCommit := commit.deleteAfterCommit }

/-- mirrors crates/skippr-iceberg-catalog/src/metadata_cache.rs:88-119 -/
def supersededMetadataLocations (before after : Metadata) : List Location :=
  if after.deleteAfterCommit then
    (before.metadataLog ++ [before.location]).filter
      fun l => l ∉ after.metadataLog ++ [after.location]
  else []

/-! ## The metadata directory -/

/-- The files of `metadata/`, and what the catalogs remember. A file under a
uuid is written once, so it is named by its content; the identity of an alias
is that of the content it was created with. -/
structure Store where
  files : List Metadata
  aliases : Map Nat Metadata
  hint : Option Nat
  /-- Per alias, the metadata it was found to stand for. -/
  aliasCache : List (Metadata × Metadata)
  fileCache : List Metadata

/-- A directory that cannot be read lists nothing (`failStep`).
mirrors lib.rs:173-190 -/
def Store.maxHadoopVersion (s : Store) : Option Nat := s.aliases.keys.max?

def Store.remember (s : Store) (key : Option Metadata) (m : Metadata) : Store :=
  { s with
    aliasCache := (key.map fun k => (k, m)).toList ++ s.aliasCache
    fileCache := m :: s.fileCache }

def Store.deleteFile (s : Store) (l : Location) : Store :=
  { s with files := s.files.filter fun m => m.location ≠ l }

def Store.deleteAlias (s : Store) (l : Location) : Store :=
  { s with aliases := s.aliases.erase l.version }

/-! ## `load_table` -/

inductive LoadPc
  | listing
  | hintExists (listed : Option Nat)
  | hintRead (listed : Option Nat)
  | stat (version : Nat)
  | readAlias (version : Nat) (key : Option Metadata)
  | listFiles (version : Nat) (key : Option Metadata) (bytes : Metadata)
  | readFile (key : Option Metadata) (bytes : Metadata)
  | parse (key : Option Metadata) (bytes : Metadata)
deriving DecidableEq, Repr

inductive Outcome
  | more (l : LoadPc)
  | done (table : Metadata) (store : Store)
  | err

/-- `hit`: the cache of this catalog still has the entry.
mirrors lib.rs:151-171, 240-269 and 450-470 -/
def loadStep (s : Store) (hit : Bool) : LoadPc → Outcome
  | .listing => .more (.hintExists s.maxHadoopVersion)
  | .hintExists listed =>
    if s.hint.isSome then .more (.hintRead listed)
    else
      match listed with
      | some version => .more (.stat version)
      | none => .err
  | .hintRead listed =>
    match s.hint with
    | some hinted => .more (.stat (listed.elim hinted fun listed => max listed hinted))
    | none => .err
  | .stat version =>
    let key := s.aliases.get version
    match key.bind fun k => s.aliasCache.find? fun e => e.1 = k with
    | some entry => if hit then .done entry.2 s else .more (.readAlias version key)
    | none => .more (.readAlias version key)
  | .readAlias version key =>
    match s.aliases.get version with
    | some bytes => .more (.listFiles version key bytes)
    | none => .err
  | .listFiles version key bytes =>
    if bytes ∈ s.files ∧ bytes.version = version then .more (.readFile key bytes) else .err
  | .readFile key bytes => if bytes ∈ s.files then .more (.parse key bytes) else .err
  | .parse key bytes =>
    if (hit ∧ bytes ∈ s.fileCache) ∨ bytes ∈ s.files then .done bytes (s.remember key bytes) else .err

/-! ## `update_table` -/

/-- Where an `update_table` is between its load and the deletions. -/
inductive Stage
  | write
  | read
  | check
  | create
  | hint
  | remember
deriving DecidableEq, Repr

/-- `since`: the updates that had returned Ok when the load began. -/
inductive Pc
  | loading (since : List MetadataId) (commit : Option TableCommit) (l : LoadPc)
  | publishing (stage : Stage) (before staged : Metadata)
  | deletingFiles (staged : Metadata) (todo deleted : List Location)
  | deletingAliases (staged : Metadata) (todo : List Location)
deriving DecidableEq, Repr

structure Loaded where
  since : List MetadataId
  table : Metadata
deriving DecidableEq, Repr

structure St where
  store : Store
  calls : Map Nat Pc
  started : Nat
  acked : List MetadataId
  failed : List MetadataId
  loads : List Loaded
  /-- What an alias was created for, in order. -/
  chain : List Metadata

/-- `ok` of a step: the cache has the entry, or the deletion succeeds; `fail` is
an I/O error, or requirements of the commit that do not hold. -/
inductive Lbl
  | start (commit : Option TableCommit)
  | step (n : Nat) (ok : Bool)
  | fail (n : Nat)
deriving DecidableEq

def St.setPc (s : St) (n : Nat) (pc : Pc) : St := { s with calls := s.calls.insert n pc }

def St.endCall (s : St) (n : Nat) : St := { s with calls := s.calls.erase n }

def St.failCall (s : St) (n : Nat) (staged : Metadata) : St :=
  { s.endCall n with failed := staged.id :: s.failed }

/-- `load_table` has returned; an `update_table` goes on with it. -/
def loadDone (s : St) (n : Nat) (since : List MetadataId) (commit : Option TableCommit)
    (table : Metadata) (store : Store) : St :=
  let s := { s with store := store, loads := ⟨since, table⟩ :: s.loads }
  match commit with
  | none => s.endCall n
  | some commit => s.setPc n (.publishing .write table (commit.apply n table))

/-- mirrors lib.rs:124-149 and 511-525 -/
def publishStep (s : St) (n : Nat) (before staged : Metadata) : Stage → St
  | .write =>
    let s := { s with store := { s.store with files := staged :: s.store.files } }
    s.setPc n (.publishing .read before staged)
  | .read =>
    if staged ∈ s.store.files then s.setPc n (.publishing .check before staged)
    else s.failCall n staged
  | .check =>
    if s.store.maxHadoopVersion.any fun max => staged.version ≤ max then s.failCall n staged
    else s.setPc n (.publishing .create before staged)
  | .create =>
    match s.store.aliases.get staged.version with
    | some _ => s.failCall n staged
    | none =>
      let aliases := s.store.aliases.insert staged.version staged
      let s := { s with store := { s.store with aliases := aliases }, chain := s.chain ++ [staged] }
      s.setPc n (.publishing .hint before staged)
  | .hint =>
    let s := { s with store := { s.store with hint := some staged.version } }
    s.setPc n (.publishing .remember before staged)
  | .remember =>
    let key := s.store.aliases.get staged.version
    let s := { s with store := s.store.remember key staged }
    s.setPc n (.deletingFiles staged (supersededMetadataLocations before staged) [])

/-- The deletions; one that fails is passed over.
mirrors metadata_cache.rs:121-137 -/
def deleteFilesStep (s : St) (n : Nat) (ok : Bool) (staged : Metadata) (deleted : List Location) :
    List Location → St
  | [] => s.setPc n (.deletingAliases staged deleted)
  | l :: todo =>
    if ok then
      { s with store := s.store.deleteFile l }.setPc n (.deletingFiles staged todo (deleted ++ [l]))
    else s.setPc n (.deletingFiles staged todo deleted)

/-- mirrors lib.rs:526-541 -/
def deleteAliasesStep (s : St) (n : Nat) (ok : Bool) (staged : Metadata) : List Location → St
  | [] => { s.endCall n with acked := staged.id :: s.acked }
  | l :: todo =>
    if ok then { s with store := s.store.deleteAlias l }.setPc n (.deletingAliases staged todo)
    else s.setPc n (.deletingAliases staged todo)

def advance (s : St) (n : Nat) (ok : Bool) : Pc → St
  | .loading since commit l =>
    match loadStep s.store ok l with
    | .more l => s.setPc n (.loading since commit l)
    | .done table store => loadDone s n since commit table store
    | .err => s.endCall n
  | .publishing stage before staged => publishStep s n before staged stage
  | .deletingFiles staged todo deleted => deleteFilesStep s n ok staged deleted todo
  | .deletingAliases staged todo => deleteAliasesStep s n ok staged todo

/-- An I/O error ends the call, but a listing that fails is taken for an empty
one, and after the hint is written there is none. -/
def failStep (s : St) (n : Nat) : Pc → Option St
  | .loading since commit .listing => some (s.setPc n (.loading since commit (.hintExists none)))
  | .loading _ _ _ => some (s.endCall n)
  | .publishing .check before staged => some (s.setPc n (.publishing .create before staged))
  | .publishing .remember _ _ => none
  | .publishing _ _ staged => some (s.failCall n staged)
  | .deletingFiles _ _ _ => none
  | .deletingAliases _ _ => none

def step (s : St) : Lbl → Option St
  | .start commit =>
    let s' := { s with started := s.started + 1 }
    some (s'.setPc s.started (.loading s.acked commit .listing))
  | .step n ok => (s.calls.get n).map (advance s n ok)
  | .fail n => (s.calls.get n).bind (failStep s n)

def created : Metadata := ⟨none, 0, [], [], false⟩

/-- The table after `create_table`.
mirrors lib.rs:411-449 -/
def initial : St where
  store := ⟨[created], (∅ : Map Nat Metadata).insert 0 created, some 0, [], []⟩
  calls := ∅
  started := 0
  acked := []
  failed := []
  loads := []
  chain := [created]

def lts : LTS St Lbl := LTS.ofFn (· = initial) step

/-! ## Loads and updates -/

/-- The table a load returns is, or descends from, every metadata whose
`update_table` had returned Ok, and from none whose `update_table` returns an
error. -/
structure Safe (s : St) : Prop where
  acked : ∀ r ∈ s.loads, ∀ a ∈ r.since, a = r.table.id ∨ a ∈ r.table.ancestors
  failed : ∀ r ∈ s.loads, ∀ f ∈ s.failed, ¬ (f = r.table.id ∨ f ∈ r.table.ancestors)

def Pc.creates : Pc → Option Nat
  | .publishing .create _ staged => some staged.version
  | _ => none

def Pc.deletes : Pc → Option Nat
  | .deletingAliases _ (l :: _) => some l.version
  | _ => none

/-- The call has created its alias and not yet written the hint. -/
def Pc.hints : Pc → Bool
  | .publishing .hint _ _ => true
  | _ => false

/-- The call is about to list the aliases. -/
def Pc.lists : Pc → Bool
  | .loading _ _ .listing | .publishing .check _ _ => true
  | _ => false

/-- No alias is deleted while a call that has passed the version check is about
to create it, and no listing of the aliases and no write of the hint fails. -/
def Undisturbed (s : St) : Lbl → Prop
  | .start _ => True
  | .step n _ => ∀ pc ∈ s.calls.get n, ∀ v ∈ pc.deletes, ∀ e ∈ s.calls.toList, e.2.creates ≠ some v
  | .fail n => ∀ pc ∈ s.calls.get n, pc.hints = false ∧ pc.lists = false

instance (s : St) : DecidablePred (Undisturbed s)
  | .start _ => .isTrue trivial
  | .step n _ => inferInstanceAs (Decidable
      (∀ pc ∈ s.calls.get n, ∀ v ∈ pc.deletes, ∀ e ∈ s.calls.toList, e.2.creates ≠ some v))
  | .fail n => inferInstanceAs (Decidable
      (∀ pc ∈ s.calls.get n, pc.hints = false ∧ pc.lists = false))

end Skippr.L6.FsCatalog
