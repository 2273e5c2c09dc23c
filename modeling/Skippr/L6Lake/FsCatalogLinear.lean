import Skippr.Core.Lineage
import Skippr.L6Lake.FsCatalog

/-!
# `FsCatalog` keeps a linear history

While no alias is deleted under a call that is about to create it, the aliases
created make one chain: each for the next version, staged from the one before.
The alias of the last version is never deleted, so a load finds a version no
older than any that was committed before it began.
-/
namespace Skippr.L6.FsCatalog

/-! ## The chain -/

/-- Every version has been created once, from the version before it; the aliases
are those of the chain, and the last one is there. -/
structure History (chain : List Metadata) (aliases : Map Nat Metadata) : Prop where
  lineage : Lineage Metadata.id Metadata.ancestors chain
  version : ∀ (v : Nat) (m : Metadata), chain[v]? = some m → m.version = v
  log : ∀ m ∈ chain, ∀ l ∈ m.metadataLog, l.version < m.version
  left : ∀ v m, aliases.get v = some m → chain[v]? = some m
  pos : 0 < chain.length
  top : aliases.get (chain.length - 1) ≠ none

/-- Only a call that returned Ok is acked, and its metadata is in the chain; that
of a failed call is not. -/
structure Ids (chain : List Metadata) (acked failed : List MetadataId) (started : Nat) : Prop where
  created : ∀ m ∈ chain, ∀ n, m.id = some n → n < started
  ended : ∀ n, some n ∈ failed → n < started
  kept : ∀ a ∈ acked, a ∈ chain.map (·.id)
  notFailed : ∀ m ∈ chain, m.id ∉ failed

def Covers (chain : List Metadata) (since : List MetadataId) (v : Nat) : Prop :=
  v < chain.length ∧ ∀ a ∈ since, a ∈ (chain.take (v + 1)).map (·.id)

def Grows (chain chain' : List Metadata) : Prop := chain <+: chain'

section Grows
variable {chain chain' : List Metadata}

theorem Grows.getElem? (h : Grows chain chain') {v : Nat} {m : Metadata} (hm : chain[v]? = some m) :
    chain'[v]? = some m := by
  obtain ⟨rest, rfl⟩ := h
  rw [List.getElem?_append_left (List.getElem?_eq_some_iff.1 hm).1]
  exact hm

theorem Grows.covers (h : Grows chain chain') {since : List MetadataId} {v : Nat}
    (hv : Covers chain since v) : Covers chain' since v := by
  obtain ⟨rest, rfl⟩ := h
  refine ⟨?_, ?_⟩
  · have := hv.1
    rw [List.length_append]
    omega
  · rw [List.take_append_of_le_length hv.1]
    exact hv.2

theorem Grows.ids (h : Grows chain chain') {a : MetadataId} (ha : a ∈ chain.map (·.id)) :
    a ∈ chain'.map (·.id) :=
  List.map_subset _ h.subset ha

end Grows

theorem History.lt {chain : List Metadata} {aliases : Map Nat Metadata} (h : History chain aliases)
    {v : Nat} (hv : aliases.get v ≠ none) : v < chain.length := by
  obtain ⟨m, hm⟩ := Option.ne_none_iff_exists'.1 hv
  exact (List.getElem?_eq_some_iff.1 (h.left v m hm)).1

theorem History.listed {chain : List Metadata} {store : Store} (h : History chain store.aliases) :
    store.maxHadoopVersion = some (chain.length - 1) := by
  refine List.max?_eq_some_iff.2 ⟨(Map.mem_keys_iff _ _).2 h.top, ?_⟩
  intro v hv
  have := h.lt ((Map.mem_keys_iff _ _).1 hv)
  omega

/-! ## What a call knows -/

def AtVersion (chain : List Metadata) (v : Nat) (key : Option Metadata) : Prop :=
  ∀ k, key = some k → chain[v]? = some k

def LoadPc.Good (chain : List Metadata) (since : List MetadataId) : LoadPc → Prop
  | .listing => ∀ a ∈ since, a ∈ chain.map (·.id)
  | .hintExists listed => ∃ v, listed = some v ∧ Covers chain since v
  | .hintRead listed => ∃ v, listed = some v ∧ Covers chain since v
  | .stat v => Covers chain since v
  | .readAlias v key => Covers chain since v ∧ AtVersion chain v key
  | .listFiles v key bytes => Covers chain since v ∧ AtVersion chain v key ∧ chain[v]? = some bytes
  | .readFile key bytes =>
    ∃ v, Covers chain since v ∧ AtVersion chain v key ∧ chain[v]? = some bytes
  | .parse key bytes =>
    ∃ v, Covers chain since v ∧ AtVersion chain v key ∧ chain[v]? = some bytes

structure Staged (chain : List Metadata) (n : Nat) (before staged : Metadata) : Prop where
  base : chain[before.version]? = some before
  version : staged.version = before.version + 1
  ancestors : staged.ancestors = before.id :: before.ancestors
  id : staged.id = some n
  log : ∀ l ∈ before.metadataLog ++ [before.location], l.version < staged.version
  kept : ∀ l ∈ staged.metadataLog, l ∈ before.metadataLog ++ [before.location]

structure Fresh (chain : List Metadata) (failed : List MetadataId) (n : Nat) : Prop where
  notCreated : ∀ m ∈ chain, m.id ≠ some n
  notFailed : some n ∉ failed

/-- Between the version check and the creation, the version is not created, or
its alias is still there. -/
def Open (chain : List Metadata) (aliases : Map Nat Metadata) (v : Nat) : Prop :=
  chain.length = v ∨ aliases.get v ≠ none

def Published (chain : List Metadata) (staged : Metadata) (older : List Location) : Prop :=
  chain[staged.version]? = some staged ∧ ∀ l ∈ older, l.version < staged.version

section
variable (chain : List Metadata) (failed : List MetadataId) (aliases : Map Nat Metadata) (n : Nat)

def Stage.Good (before staged : Metadata) : Stage → Prop
  | .write => Staged chain n before staged ∧ Fresh chain failed n
  | .read => Staged chain n before staged ∧ Fresh chain failed n
  | .check => Staged chain n before staged ∧ Fresh chain failed n
  | .create =>
    Staged chain n before staged ∧ Fresh chain failed n ∧ Open chain aliases staged.version
  | .hint => Published chain staged (before.metadataLog ++ [before.location])
  | .remember => Published chain staged (before.metadataLog ++ [before.location])

def Pc.Good : Pc → Prop
  | .loading since _ l => l.Good chain since ∧ Fresh chain failed n
  | .publishing stage before staged => stage.Good chain failed aliases n before staged
  | .deletingFiles staged todo deleted => Published chain staged (deleted ++ todo)
  | .deletingAliases staged todo => Published chain staged todo

end

structure Inv (s : St) : Prop where
  history : History s.chain s.store.aliases
  ids : Ids s.chain s.acked s.failed s.started
  hint : ∀ h, s.store.hint = some h → h < s.chain.length
  cached : ∀ e ∈ s.store.aliasCache, e.1 = e.2
  loads : ∀ r ∈ s.loads, ∃ v, s.chain[v]? = some r.table ∧ Covers s.chain r.since v
  calls : ∀ n pc, s.calls.get n = some pc →
    n < s.started ∧ pc.Good s.chain s.failed s.store.aliases n

theorem Inv.failed_not_ancestor {s : St} (h : Inv s) {v : Nat} {m : Metadata}
    (hv : s.chain[v]? = some m) {f : MetadataId} (hf : f ∈ s.failed) :
    ¬ (f = m.id ∨ f ∈ m.ancestors) := by
  intro hanc
  obtain ⟨m', hm', rfl⟩ := List.mem_map.1 (h.history.lineage.mem_of_ancestor hv hanc)
  exact h.ids.notFailed m' hm' hf

theorem Inv.safe {s : St} (h : Inv s) : Safe s where
  acked r hr a ha := by
    obtain ⟨v, hv, hcovers⟩ := h.loads r hr
    exact h.history.lineage.ancestor hv (hcovers.2 a ha)
  failed r hr f hf := by
    obtain ⟨v, hv, -⟩ := h.loads r hr
    exact h.failed_not_ancestor hv hf

theorem inv_initial : Inv initial where
  history :=
    { lineage := lineage_singleton rfl
      version := by
        intro v m hm
        cases v with
        | zero =>
          cases hm
          rfl
        | succ v => cases hm
      log := by
        intro m hm l hl
        cases List.mem_singleton.1 hm
        cases hl
      left := by
        intro v m hm
        simp only [initial, Map.get_insert] at hm
        split at hm
        · rename_i hv
          subst hv
          exact hm
        · cases hm
      pos := Nat.one_pos
      top := by decide }
  ids :=
    { created := by
        intro m hm n hn
        cases List.mem_singleton.1 hm
        cases hn
      ended := fun n hn => by cases hn
      kept := fun a ha => by cases ha
      notFailed := fun m _ hm => by cases hm }
  hint h hh := by
    cases hh
    exact Nat.one_pos
  cached e he := by cases he
  loads r hr := by cases hr
  calls n pc hpc := by cases hpc

/-! ## A call's knowledge while others move -/

section Frame
variable {chain chain' : List Metadata} {failed failed' : List MetadataId}
  {aliases aliases' : Map Nat Metadata} {n : Nat}

theorem AtVersion.grows (h : Grows chain chain') {v : Nat} {key : Option Metadata}
    (hkey : AtVersion chain v key) : AtVersion chain' v key :=
  fun k hk => h.getElem? (hkey k hk)

theorem LoadPc.Good.grows (h : Grows chain chain') {since : List MetadataId} {l : LoadPc}
    (hl : l.Good chain since) : l.Good chain' since := by
  cases l with
  | listing => exact fun a ha => h.ids (hl a ha)
  | hintExists listed | hintRead listed =>
    obtain ⟨v, hv, hcovers⟩ := hl
    exact ⟨v, hv, h.covers hcovers⟩
  | stat v => exact h.covers hl
  | readAlias v key => exact ⟨h.covers hl.1, hl.2.grows h⟩
  | listFiles v key bytes => exact ⟨h.covers hl.1, hl.2.1.grows h, h.getElem? hl.2.2⟩
  | readFile key bytes | parse key bytes =>
    obtain ⟨v, hcovers, hkey, hbytes⟩ := hl
    exact ⟨v, h.covers hcovers, hkey.grows h, h.getElem? hbytes⟩

theorem Staged.grows (h : Grows chain chain') {before staged : Metadata}
    (hs : Staged chain n before staged) : Staged chain' n before staged :=
  ⟨h.getElem? hs.base, hs.version, hs.ancestors, hs.id, hs.log, hs.kept⟩

theorem Published.grows (h : Grows chain chain') {staged : Metadata} {older : List Location}
    (hp : Published chain staged older) : Published chain' staged older :=
  ⟨h.getElem? hp.1, hp.2⟩

/-- What the step of another call leaves to call `n`, at `pc`. -/
structure Frame (chain chain' : List Metadata) (failed failed' : List MetadataId)
    (aliases aliases' : Map Nat Metadata) (n : Nat) (pc : Pc) : Prop where
  grows : Grows chain chain'
  fresh : Fresh chain failed n → Fresh chain' failed' n
  creates : ∀ v, pc.creates = some v → Open chain aliases v → Open chain' aliases' v

theorem Pc.Good.frame {pc : Pc} (h : pc.Good chain failed aliases n)
    (hf : Frame chain chain' failed failed' aliases aliases' n pc) :
    pc.Good chain' failed' aliases' n := by
  cases pc with
  | loading since commit l => exact ⟨h.1.grows hf.grows, hf.fresh h.2⟩
  | publishing stage before staged =>
    cases stage with
    | write | read | check => exact ⟨h.1.grows hf.grows, hf.fresh h.2⟩
    | create => exact ⟨h.1.grows hf.grows, hf.fresh h.2.1, hf.creates _ rfl h.2.2⟩
    | hint | remember => exact Published.grows hf.grows h
  | deletingFiles staged todo deleted | deletingAliases staged todo =>
    exact Published.grows hf.grows h

theorem Fresh.fail {k : Nat} (h : Fresh chain failed n) (hne : n ≠ k) :
    Fresh chain (some k :: failed) n := by
  refine ⟨h.notCreated, ?_⟩
  intro hmem
  cases List.mem_cons.1 hmem with
  | inl heq => exact hne (Option.some.inj heq)
  | inr hmem => exact h.notFailed hmem

theorem Fresh.append {m : Metadata} {k : Nat} (h : Fresh chain failed n) (hm : m.id = some k)
    (hne : n ≠ k) : Fresh (chain ++ [m]) failed n := by
  refine ⟨?_, h.notFailed⟩
  intro m' hm'
  cases List.mem_append.1 hm' with
  | inl hold => exact h.notCreated m' hold
  | inr hnew =>
    rw [List.mem_singleton.1 hnew, hm]
    exact fun heq => hne (Option.some.inj heq).symm

end Frame

/-! ## Steps that leave the chain and the aliases -/

section Steps
variable {s : St} {n : Nat}

theorem Inv.setPc (h : Inv s) (hn : n < s.started) {pc : Pc}
    (hpc : pc.Good s.chain s.failed s.store.aliases n) : Inv (s.setPc n pc) := by
  refine ⟨h.history, h.ids, h.hint, h.cached, h.loads, fun m pc' hm => ?_⟩
  rcases Map.get_insert_cases hm with ⟨rfl, rfl⟩ | ⟨-, hm⟩
  · exact ⟨hn, hpc⟩
  · exact h.calls m pc' hm

theorem Inv.endCall (h : Inv s) (n : Nat) : Inv (s.endCall n) :=
  ⟨h.history, h.ids, h.hint, h.cached, h.loads, fun m pc' hm => h.calls m pc' (Map.of_get_erase hm).2⟩

theorem Inv.failCall (h : Inv s) (hn : n < s.started) {staged : Metadata} (hid : staged.id = some n)
    (hfresh : Fresh s.chain s.failed n) : Inv (s.failCall n staged) := by
  refine ⟨h.history, ?_, h.hint, h.cached, h.loads, ?_⟩
  · refine ⟨h.ids.created, ?_, h.ids.kept, ?_⟩
    · intro k hk
      simp only [St.failCall, hid] at hk
      cases List.mem_cons.1 hk with
      | inl heq =>
        cases heq
        exact hn
      | inr hmem => exact h.ids.ended k hmem
    · intro m hm hmem
      simp only [St.failCall, hid] at hmem
      cases List.mem_cons.1 hmem with
      | inl heq => exact hfresh.notCreated m hm heq
      | inr hmem => exact h.ids.notFailed m hm hmem
  · intro m pc hm
    simp only [St.failCall, St.endCall, Map.get_erase] at hm
    split at hm
    · cases hm
    · rename_i hne
      obtain ⟨hlt, hgood⟩ := h.calls m pc hm
      refine ⟨hlt, hgood.frame ⟨List.prefix_rfl, ?_, fun _ _ hopen => hopen⟩⟩
      intro hf
      simp only [St.failCall, hid]
      exact hf.fail hne

theorem Inv.setStore (h : Inv s) (store : Store) (haliases : store.aliases = s.store.aliases)
    (hhint : ∀ v, store.hint = some v → v < s.chain.length)
    (hcached : ∀ e ∈ store.aliasCache, e.1 = e.2) : Inv { s with store := store } := by
  refine ⟨?_, h.ids, hhint, hcached, h.loads, ?_⟩
  · simp only [haliases]
    exact h.history
  · simp only [haliases]
    exact h.calls

theorem cached_remember {store : Store} {chain : List Metadata} {v : Nat} {key : Option Metadata}
    {m : Metadata} (h : ∀ e ∈ store.aliasCache, e.1 = e.2) (hkey : AtVersion chain v key)
    (hm : chain[v]? = some m) : ∀ e ∈ (store.remember key m).aliasCache, e.1 = e.2 := by
  intro e he
  cases List.mem_append.1 he with
  | inl hnew =>
    obtain ⟨k, hk, rfl⟩ := Option.map_eq_some_iff.1 (Option.mem_toList.1 hnew)
    exact Option.some.inj ((hkey k hk).symm.trans hm)
  | inr hold => exact h e hold

/-! ## Loads -/

def Outcome.Good (s : St) (since : List MetadataId) : Outcome → Prop
  | .more l => l.Good s.chain since
  | .done table store =>
    (∃ v, s.chain[v]? = some table ∧ Covers s.chain since v) ∧
      store.aliases = s.store.aliases ∧ store.hint = s.store.hint ∧
      ∀ e ∈ store.aliasCache, e.1 = e.2
  | .err => True

theorem loadStep_good (h : Inv s) {since : List MetadataId} {l : LoadPc} (hit : Bool)
    (hl : l.Good s.chain since) : (loadStep s.store hit l).Good s since := by
  cases l with
  | listing =>
    refine ⟨s.chain.length - 1, h.history.listed, ?_, ?_⟩
    · have := h.history.pos
      omega
    · rw [show s.chain.length - 1 + 1 = s.chain.length from Nat.sub_add_cancel h.history.pos,
        List.take_length]
      exact hl
  | hintExists listed =>
    obtain ⟨v, rfl, hcovers⟩ := hl
    simp only [loadStep]
    split
    · exact ⟨v, rfl, hcovers⟩
    · exact hcovers
  | hintRead listed =>
    obtain ⟨v, rfl, hcovers⟩ := hl
    simp only [loadStep]
    split
    · rename_i hinted hhint
      have hlt := h.hint hinted hhint
      refine ⟨?_, ?_⟩
      · have := hcovers.1
        simp only [Option.elim]
        omega
      · -- The version read is no less than the one listed.
        intro a ha
        have hsub : s.chain.take (v + 1) ⊆ s.chain.take (max v hinted + 1) :=
          (List.take_prefix_take_left (by omega)).subset
        exact List.map_subset _ hsub (hcovers.2 a ha)
    · trivial
  | stat v =>
    have hkey : AtVersion s.chain v (s.store.aliases.get v) := fun k hk => h.history.left v k hk
    simp only [loadStep]
    split
    · rename_i entry hentry
      split
      · obtain ⟨k, hk, hfind⟩ := Option.bind_eq_some_iff.1 hentry
        have hk' : entry.1 = k := by simpa using List.find?_some hfind
        have hsame := h.cached entry (List.mem_of_find?_eq_some hfind)
        refine ⟨⟨v, ?_, hl⟩, rfl, rfl, h.cached⟩
        rw [← hsame, hk']
        exact hkey k hk
      · exact ⟨hl, hkey⟩
    · exact ⟨hl, hkey⟩
  | readAlias v key =>
    simp only [loadStep]
    split
    · rename_i bytes hbytes
      exact ⟨hl.1, hl.2, h.history.left v bytes hbytes⟩
    · trivial
  | listFiles v key bytes =>
    simp only [loadStep]
    split
    · exact ⟨v, hl⟩
    · trivial
  | readFile key bytes =>
    simp only [loadStep]
    split
    · exact hl
    · trivial
  | parse key bytes =>
    obtain ⟨v, hcovers, hkey, hbytes⟩ := hl
    simp only [loadStep]
    split
    · exact ⟨⟨v, hbytes, hcovers⟩, rfl, rfl, cached_remember h.cached hkey hbytes⟩
    · trivial

theorem staged_apply (h : History s.chain s.store.aliases) {v : Nat} {table : Metadata}
    (hv : s.chain[v]? = some table) (commit : TableCommit) :
    Staged s.chain n table (commit.apply n table) := by
  have hversion := h.version v table hv
  refine ⟨by rw [hversion]; exact hv, rfl, rfl, rfl, ?_, fun l hl => List.mem_of_mem_drop hl⟩
  intro l hl
  simp only [TableCommit.apply]
  cases List.mem_append.1 hl with
  | inl hlog =>
    have := h.log table (List.mem_of_getElem? hv) l hlog
    omega
  | inr hself =>
    rw [List.mem_singleton.1 hself]
    exact Nat.lt_succ_self _

theorem inv_loading (h : Inv s) (hn : n < s.started) {since : List MetadataId}
    {commit : Option TableCommit} {l : LoadPc} (ok : Bool)
    (hpc : (Pc.loading since commit l).Good s.chain s.failed s.store.aliases n) :
    Inv (advance s n ok (.loading since commit l)) := by
  obtain ⟨hl, hfresh⟩ := hpc
  have hgood := loadStep_good h ok hl
  simp only [advance]
  split
  · rename_i l' hstep
    rw [hstep] at hgood
    exact h.setPc hn ⟨hgood, hfresh⟩
  · rename_i table store hstep
    rw [hstep] at hgood
    obtain ⟨⟨v, hv, hcovers⟩, haliases, hhint, hcached⟩ := hgood
    have hstore : Inv { s with store := store } := h.setStore store haliases (by rw [hhint]; exact h.hint) hcached
    have hloads : Inv { s with store := store, loads := ⟨since, table⟩ :: s.loads } := by
      refine ⟨hstore.history, hstore.ids, hstore.hint, hstore.cached, ?_, hstore.calls⟩
      exact List.forall_mem_cons.2 ⟨⟨v, hv, hcovers⟩, h.loads⟩
    unfold loadDone
    split
    · exact hloads.endCall n
    · rename_i commit
      exact hloads.setPc hn ⟨staged_apply hloads.history hv commit, hfresh⟩
  · exact h.endCall n

/-! ## Publishing -/

theorem append_history {before staged : Metadata} (h : History s.chain s.store.aliases)
    (hs : Staged s.chain n before staged) (hlen : s.chain.length = staged.version) :
    History (s.chain ++ [staged]) (s.store.aliases.insert staged.version staged) := by
  have hbefore : before.version = s.chain.length - 1 := by
    have := hs.version
    omega
  constructor
  · refine h.lineage.append ?_ hs.ancestors
    rw [← hbefore]
    exact hs.base
  · intro v m hm
    by_cases hv : v < s.chain.length
    · rw [List.getElem?_append_left hv] at hm
      exact h.version v m hm
    · have hlt := (List.getElem?_eq_some_iff.1 hm).1
      rw [List.length_append, List.length_singleton] at hlt
      obtain rfl : v = s.chain.length := by omega
      rw [List.getElem?_concat_length] at hm
      cases hm
      exact hlen.symm
  · intro m hm l hl
    cases List.mem_append.1 hm with
    | inl hold => exact h.log m hold l hl
    | inr hnew =>
      rw [List.mem_singleton.1 hnew] at hl ⊢
      exact hs.log l (hs.kept l hl)
  · intro v m hm
    rcases Map.get_insert_cases hm with ⟨hv, rfl⟩ | ⟨-, hm⟩
    · rw [hv, ← hlen]
      exact List.getElem?_concat_length
    · exact Grows.getElem? (List.prefix_append _ _) (h.left v m hm)
  · rw [List.length_append]
    exact Nat.succ_pos _
  · rw [List.length_append, List.length_singleton, Nat.add_sub_cancel, hlen, Map.get_insert, if_pos rfl]
    exact Option.some_ne_none _

theorem append_ids {staged : Metadata} (h : Ids s.chain s.acked s.failed s.started)
    (hid : staged.id = some n) (hn : n < s.started) (hfresh : Fresh s.chain s.failed n) :
    Ids (s.chain ++ [staged]) s.acked s.failed s.started := by
  refine ⟨?_, h.ended, ?_, ?_⟩
  · intro m hm k hk
    cases List.mem_append.1 hm with
    | inl hold => exact h.created m hold k hk
    | inr hnew =>
      rw [List.mem_singleton.1 hnew, hid] at hk
      cases hk
      exact hn
  · intro a ha
    exact Grows.ids (List.prefix_append _ _) (h.kept a ha)
  · intro m hm
    cases List.mem_append.1 hm with
    | inl hold => exact h.notFailed m hold
    | inr hnew =>
      rw [List.mem_singleton.1 hnew, hid]
      exact hfresh.notFailed

theorem inv_create (h : Inv s) (hn : n < s.started) {before staged : Metadata}
    (hpc : Stage.create.Good s.chain s.failed s.store.aliases n before staged) :
    Inv (publishStep s n before staged .create) := by
  obtain ⟨hs, hfresh, hopen⟩ := hpc
  simp only [publishStep]
  split
  · exact h.failCall hn hs.id hfresh
  · rename_i hnone
    have hlen : s.chain.length = staged.version := by
      cases hopen with
      | inl hlen => exact hlen
      | inr hthere => exact absurd hnone hthere
    have hgrows : Grows s.chain (s.chain ++ [staged]) := List.prefix_append _ _
    refine ⟨append_history h.history hs hlen, append_ids h.ids hs.id hn hfresh, ?_, h.cached, ?_, ?_⟩
    · intro v hv
      have := h.hint v hv
      simp only [St.setPc, List.length_append]
      omega
    · intro r hr
      obtain ⟨v, hv, hcovers⟩ := h.loads r hr
      exact ⟨v, hgrows.getElem? hv, hgrows.covers hcovers⟩
    · intro m pc hm
      simp only [St.setPc, Map.get_insert] at hm
      split at hm
      · rename_i heq
        subst heq
        cases hm
        refine ⟨hn, ?_, hs.log⟩
        rw [← hlen]
        exact List.getElem?_concat_length
      · rename_i hne
        obtain ⟨hlt, hgood⟩ := h.calls m pc hm
        refine ⟨hlt, hgood.frame ⟨hgrows, fun hf => hf.append hs.id hne, ?_⟩⟩
        -- The version another call waits to create now has its alias.
        intro v _ hv
        right
        simp only [St.setPc, Map.get_insert]
        split
        · exact Option.some_ne_none _
        · rename_i hnev
          cases hv with
          | inl hv => exact absurd (hv.symm.trans hlen) hnev
          | inr hv => exact hv

theorem inv_publishing (h : Inv s) (hn : n < s.started) {stage : Stage} {before staged : Metadata}
    (hpc : stage.Good s.chain s.failed s.store.aliases n before staged) :
    Inv (publishStep s n before staged stage) := by
  cases stage with
  | write =>
    have hstore := h.setStore { s.store with files := staged :: s.store.files } rfl h.hint h.cached
    exact hstore.setPc hn hpc
  | read =>
    simp only [publishStep]
    split
    · exact h.setPc hn hpc
    · exact h.failCall hn hpc.1.id hpc.2
  | check =>
    simp only [publishStep]
    split
    · exact h.failCall hn hpc.1.id hpc.2
    · rename_i hpassed
      refine h.setPc hn ⟨hpc.1, hpc.2, .inl ?_⟩
      -- The listed version is the last of the chain, and below the staged one.
      rw [h.history.listed, Option.any_some, decide_eq_true_eq] at hpassed
      have hbefore := (List.getElem?_eq_some_iff.1 hpc.1.base).1
      have hversion := hpc.1.version
      omega
  | create => exact inv_create h hn hpc
  | hint =>
    have hlt : staged.version < s.chain.length := (List.getElem?_eq_some_iff.1 hpc.1).1
    have hhint : ∀ v, some staged.version = some v → v < s.chain.length := by
      intro v hv
      cases hv
      exact hlt
    have hstore := h.setStore { s.store with hint := some staged.version } rfl hhint h.cached
    exact hstore.setPc hn hpc
  | remember =>
    have hkey : AtVersion s.chain staged.version (s.store.aliases.get staged.version) :=
      fun k hk => h.history.left _ k hk
    have hstore := h.setStore (s.store.remember (s.store.aliases.get staged.version) staged) rfl h.hint
      (cached_remember h.cached hkey hpc.1)
    refine hstore.setPc hn ⟨hpc.1, ?_⟩
    intro l hl
    rw [List.nil_append] at hl
    unfold supersededMetadataLocations at hl
    split at hl
    · exact hpc.2 l (List.mem_of_mem_filter hl)
    · cases hl

/-! ## Deleting -/

theorem inv_deletingFiles (h : Inv s) (hn : n < s.started) {staged : Metadata}
    {todo deleted : List Location} (ok : Bool)
    (hpc : (Pc.deletingFiles staged todo deleted).Good s.chain s.failed s.store.aliases n) :
    Inv (deleteFilesStep s n ok staged deleted todo) := by
  cases todo with
  | nil =>
    simp only [deleteFilesStep]
    refine h.setPc hn ⟨hpc.1, ?_⟩
    intro l hl
    exact hpc.2 l (List.mem_append_left _ hl)
  | cons l todo =>
    simp only [deleteFilesStep]
    split
    · have hstore := h.setStore (s.store.deleteFile l) rfl h.hint h.cached
      refine hstore.setPc hn ⟨hpc.1, ?_⟩
      rw [List.append_assoc]
      exact hpc.2
    · refine h.setPc hn ⟨hpc.1, ?_⟩
      intro l' hl'
      refine hpc.2 l' ?_
      cases List.mem_append.1 hl' with
      | inl hdeleted => exact List.mem_append_left _ hdeleted
      | inr htodo => exact List.mem_append_right _ (List.mem_cons_of_mem _ htodo)

theorem erase_history {chain : List Metadata} {aliases : Map Nat Metadata}
    (h : History chain aliases) {v : Nat} (hv : v + 1 < chain.length) :
    History chain (aliases.erase v) := by
  refine ⟨h.lineage, h.version, h.log, ?_, h.pos, ?_⟩
  · intro w m hm
    exact h.left w m (Map.of_get_erase hm).2
  · rw [Map.get_erase, if_neg (by omega)]
    exact h.top

theorem inv_deletingAliases (h : Inv s) (hn : n < s.started) {staged : Metadata}
    {todo : List Location} (ok : Bool) (hget : s.calls.get n = some (.deletingAliases staged todo))
    (hok : Undisturbed s (.step n ok)) :
    Inv (deleteAliasesStep s n ok staged todo) := by
  have hpc : Published s.chain staged todo := (h.calls n _ hget).2
  cases todo with
  | nil =>
    have hend := h.endCall n
    refine ⟨hend.history, ?_, hend.hint, hend.cached, hend.loads, hend.calls⟩
    refine ⟨h.ids.created, h.ids.ended, List.forall_mem_cons.2 ⟨?_, h.ids.kept⟩, h.ids.notFailed⟩
    exact List.mem_map_of_mem (List.mem_of_getElem? hpc.1)
  | cons l todo =>
    have hrest : Published s.chain staged todo :=
      ⟨hpc.1, (List.forall_mem_cons.1 hpc.2).2⟩
    simp only [deleteAliasesStep]
    split
    · have holder : l.version < staged.version := hpc.2 l List.mem_cons_self
      have hlt : staged.version < s.chain.length := (List.getElem?_eq_some_iff.1 hpc.1).1
      refine Inv.setPc (s := { s with store := s.store.deleteAlias l }) ?_ hn hrest
      refine ⟨erase_history h.history (by omega), h.ids, h.hint, h.cached, h.loads, ?_⟩
      intro m pc hm
      obtain ⟨hm', hgood⟩ := h.calls m pc hm
      refine ⟨hm', hgood.frame ⟨List.prefix_rfl, fun hf => hf, ?_⟩⟩
      intro v hv hopen
      cases hopen with
      | inl hlen => exact .inl hlen
      | inr hthere =>
        right
        have hne : v ≠ l.version := by
          rintro rfl
          exact hok _ hget _ rfl (m, pc) ((Map.mem_toList _ _ _).2 hm) hv
        simp only [Store.deleteAlias, Map.get_erase]
        rw [if_neg hne]
        exact hthere
    · exact h.setPc hn hrest

/-! ## The whole -/

theorem inv_start (h : Inv s) (commit : Option TableCommit) :
    Inv ({ s with started := s.started + 1 }.setPc s.started (.loading s.acked commit .listing)) := by
  have hfresh : Fresh s.chain s.failed s.started := by
    refine ⟨?_, ?_⟩
    · intro m hm hid
      exact Nat.lt_irrefl _ (h.ids.created m hm _ hid)
    · intro hmem
      exact Nat.lt_irrefl _ (h.ids.ended _ hmem)
  have hmore : Inv { s with started := s.started + 1 } := by
    refine ⟨h.history, ?_, h.hint, h.cached, h.loads, ?_⟩
    · refine ⟨?_, ?_, h.ids.kept, h.ids.notFailed⟩
      · intro m hm k hk
        exact Nat.lt_succ_of_lt (h.ids.created m hm k hk)
      · intro k hk
        exact Nat.lt_succ_of_lt (h.ids.ended k hk)
    · intro m pc hm
      obtain ⟨hlt, hgood⟩ := h.calls m pc hm
      exact ⟨Nat.lt_succ_of_lt hlt, hgood⟩
  exact hmore.setPc (Nat.lt_succ_self _) ⟨h.ids.kept, hfresh⟩

theorem inv_fail (h : Inv s) {pc : Pc} {s' : St} (hget : s.calls.get n = some pc)
    (hok : pc.hints = false ∧ pc.lists = false) (hstep : failStep s n pc = some s') : Inv s' := by
  obtain ⟨hn, hgood⟩ := h.calls n pc hget
  cases pc with
  | loading since commit l =>
    cases l with
    | listing => cases hok.2
    | _ =>
      cases hstep
      exact h.endCall n
  | publishing stage before staged =>
    cases stage with
    | check => cases hok.2
    | write | read =>
      cases hstep
      exact h.failCall hn hgood.1.id hgood.2
    | create =>
      cases hstep
      exact h.failCall hn hgood.1.id hgood.2.1
    | hint => cases hok.1
    | remember => cases hstep
  | deletingFiles staged todo deleted | deletingAliases staged todo => cases hstep

theorem inv_step {s' : St} {l : Lbl} (h : Inv s) (hok : Undisturbed s l) (hstep : step s l = some s') :
    Inv s' := by
  cases l with
  | start commit =>
    cases hstep
    exact inv_start h commit
  | step n ok =>
    obtain ⟨pc, hget, rfl⟩ := Option.map_eq_some_iff.1 hstep
    obtain ⟨hn, hgood⟩ := h.calls n pc hget
    cases pc with
    | loading since commit l => exact inv_loading h hn ok hgood
    | publishing stage before staged => exact inv_publishing h hn hgood
    | deletingFiles staged todo deleted => exact inv_deletingFiles h hn ok hgood
    | deletingAliases staged todo => exact inv_deletingAliases h hn ok hget hok
  | fail n =>
    obtain ⟨pc, hget, hfail⟩ := Option.bind_eq_some_iff.1 hstep
    exact inv_fail h hget (hok pc hget) hfail

theorem inv_inductive : (lts.restrict Undisturbed).Inductive Inv where
  init s hs := by
    obtain rfl : s = initial := hs
    exact inv_initial
  step s l s' h hstep := inv_step h hstep.1 hstep.2

end Steps

/-- **No lost update.** In every interleaving of `update_table` and `load_table`
calls in which no alias is deleted under a call about to create it and no listing
of the aliases and no write of the hint fails, every load returns the metadata of every update that had
returned Ok, or a descendant of it, and nothing of an update that returns an
error. -/
theorem updates_safe (s : St) (h : (lts.restrict Undisturbed).Reachable s) : Safe s :=
  (inv_inductive.reachable s h).safe

/-! ## Runs -/

def keepOne : TableCommit := ⟨1, true⟩

def steps (n count : Nat) : List Lbl := List.replicate count (.step n true)

/-- Call 0 passes the version check for `v1`, call 1 commits `v1`, call 0 finds
the alias, and call 2 loads the table. -/
def conflict : List Lbl :=
  [.start (some keepOne)] ++ steps 0 11 ++ [.start (some keepOne)] ++ steps 1 12 ++ steps 0 1 ++
    [.start none] ++ steps 2 4

theorem updates_safe_conflict :
    ∃ s, (lts.restrict Undisturbed).Reachable s ∧ s.acked = [some 1] ∧ s.failed = [some 0] ∧
      s.loads.length = 3 ∧ Safe s := by
  obtain ⟨s, hreach, hacked, hfailed, hloads⟩ : ∃ s, (lts.restrict Undisturbed).Reachable s ∧
      s.acked = [some 1] ∧ s.failed = [some 0] ∧ s.loads.length = 3 :=
    exists_restrict_reachable conflict rfl (by decide +kernel)
  exact ⟨s, hreach, hacked, hfailed, hloads, updates_safe s hreach⟩

/-- Call 0 passes the version check for `v1`; calls 1, 2 and 3 commit `v1` to
`v3`, and the last of them deletes the alias `v1`; then call 0 creates it and
returns Ok, and call 4 loads `v3`. -/
def passed : List Lbl :=
  [.start (some keepOne)] ++ steps 0 11 ++ [.start (some keepOne)] ++ steps 1 12 ++
    [.start (some keepOne)] ++ steps 2 14 ++ [.start (some keepOne)] ++ steps 3 14 ++ steps 0 5 ++
    [.start none] ++ steps 4 4

theorem update_lost :
    ∃ s, lts.Reachable s ∧ ∃ r ∈ s.loads, some 0 ∈ r.since ∧
      ¬ (some 0 = r.table.id ∨ some 0 ∈ r.table.ancestors) :=
  exists_reachable passed rfl (by decide +kernel)

/-! ## The aliases on disk -/

/-- **One line of versions.** In the same runs an alias holds its version and nothing
of an update that returns an error, the older of two aliases is an ancestor of the
newer, and one of them descends from every update that returned Ok. -/
theorem aliases_linear (s : St) (h : (lts.restrict Undisturbed).Reachable s) :
    (∀ v m, s.store.aliases.get v = some m → m.version = v ∧
      (∀ f ∈ s.failed, f ≠ m.id ∧ f ∉ m.ancestors) ∧
      ∀ w m', v < w → s.store.aliases.get w = some m' → m.id ∈ m'.ancestors) ∧
    ∃ v m, s.store.aliases.get v = some m ∧ ∀ a ∈ s.acked, a = m.id ∨ a ∈ m.ancestors := by
  have hinv := inv_inductive.reachable s h
  have hhistory := hinv.history
  constructor
  · intro v m hm
    have hv := hhistory.left v m hm
    refine ⟨hhistory.version v m hv, fun f hf => not_or.1 fun hanc => ?_, fun w m' hlt hm' => ?_⟩
    · exact hinv.failed_not_ancestor hv hf hanc
    · -- What is listed before `m'` is what it was staged from.
      have htake : (s.chain.take w)[v]? = some m := by rw [List.getElem?_take_of_lt hlt, hv]
      rw [hhistory.lineage w m' (hhistory.left w m' hm'), List.mem_reverse]
      exact List.mem_map_of_mem (List.mem_of_getElem? htake)
  · obtain ⟨m, hm⟩ := Option.ne_none_iff_exists'.1 hhistory.top
    refine ⟨_, m, hm, fun a ha => hhistory.lineage.ancestor (hhistory.left _ m hm) ?_⟩
    rw [Nat.sub_add_cancel hhistory.pos, List.take_length]
    exact hinv.ids.kept a ha

theorem aliases_linear_conflict : ∃ s, (lts.restrict Undisturbed).Reachable s ∧
    s.acked = [some 1] ∧ s.failed = [some 0] ∧
      ∃ v m, s.store.aliases.get v = some m ∧ (some 1 = m.id ∨ some 1 ∈ m.ancestors) ∧
        some 0 ∉ m.ancestors := by
  obtain ⟨s, hreach, hacked, hfailed⟩ : ∃ s, (lts.restrict Undisturbed).Reachable s ∧
      s.acked = [some 1] ∧ s.failed = [some 0] :=
    exists_restrict_reachable conflict rfl (by decide +kernel)
  obtain ⟨hline, v, m, hm, hall⟩ := aliases_linear s hreach
  exact ⟨s, hreach, hacked, hfailed, v, m, hm, hall _ (by simp [hacked]),
    ((hline v m hm).2.1 _ (by simp [hfailed])).2⟩

end Skippr.L6.FsCatalog
