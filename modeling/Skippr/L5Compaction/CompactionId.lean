import Skippr.Core.ByteCursor
import Skippr.L2Store.Offsets

/-!
# The id of a compaction

`deterministic_compaction_id` hashes a header and the sorted identities of the WAL
references, each ended by 0xff (src/buffer/compaction_transaction.rs,
src/sink_apply_identity.rs). The CDC hash at the end of an identity is optional,
has no tag, and may begin with 0xff.
-/
namespace Skippr.L5.CompactionId

open L2 (Bytes le64 length_le64 ofLe64 ofLe64_le64)

inductive WritePolicy
  | append
  | mergeByKey
  | replaceTable
  | replacePartition

/-- `{write_policy:?}` -/
def WritePolicy.debug : WritePolicy → Text
  | .append => ['A', 'p', 'p', 'e', 'n', 'd']
  | .mergeByKey => ['M', 'e', 'r', 'g', 'e', 'B', 'y', 'K', 'e', 'y']
  | .replaceTable => ['R', 'e', 'p', 'l', 'a', 'c', 'e', 'T', 'a', 'b', 'l', 'e']
  | .replacePartition =>
    ['R', 'e', 'p', 'l', 'a', 'c', 'e', 'P', 'a', 'r', 't', 'i', 't', 'i', 'o', 'n']

structure Header where
  sinkRef : Text
  ns : Text
  schemaFingerprint : Text
  writePolicy : WritePolicy

/-- mirrors sink_apply_identity.rs:10-22 -/
structure WalRef where
  segmentId : Text
  source : Text
  start : UInt64
  len : UInt64
  sinkRef : Text
  ns : Text
  partition : Text
  time : Option Int64
  schemaFingerprint : Text
  cdcMetaHash : Option (Fin 32 → UInt8)

/-- A text and the byte 0. -/
def ended (t : Text) : Bytes := toUtf8 t ++ [0]

/-- mirrors sink_apply_identity.rs:70-89 -/
def walRefIdentityBytes (r : WalRef) : Bytes :=
  ended r.segmentId ++ ended r.source ++ le64 r.start.toNat ++ le64 r.len.toNat ++
    ended r.sinkRef ++ ended r.ns ++ ended r.partition ++ le64 (r.time.getD 0).toUInt64.toNat ++
    toUtf8 r.schemaFingerprint ++ r.cdcMetaHash.elim [] List.ofFn

/-- mirrors sink_apply_identity.rs:91-98 -/
def canonicalSortedWalRefIdentityBytes (refs : List WalRef) : List Bytes :=
  (refs.map walRefIdentityBytes).insertionSort (· ≤ ·)

/-- mirrors compaction_transaction.rs:270-291 -/
def deterministicCompactionId {D : Type} (sha256 : Bytes → D) (h : Header) (refs : List WalRef) : D :=
  sha256 (toUtf8 "grouped-wal-compaction-v1".toList ++ ended h.sinkRef ++ ended h.ns ++
    ended h.schemaFingerprint ++ toUtf8 h.writePolicy.debug ++
    (canonicalSortedWalRefIdentityBytes refs).flatMap (· ++ [0xff]))

/-- An absent event time counts as 0. -/
def WalRef.counted (r : WalRef) : WalRef := { r with time := some (r.time.getD 0) }

def NoNul (texts : List Text) : Prop := ∀ t ∈ texts, Char.ofNat 0 ∉ t

structure WalRef.Ok (h : Header) (r : WalRef) : Prop where
  texts : NoNul [r.segmentId, r.source, r.sinkRef, r.ns, r.partition]
  fingerprint : r.schemaFingerprint = h.schemaFingerprint

structure Ok (h : Header) (refs : List WalRef) : Prop where
  texts : NoNul [h.sinkRef, h.ns, h.schemaFingerprint]
  refs : ∀ r ∈ refs, r.Ok h

/-- No hash that begins with 0xff stands beside a reference without a hash. -/
def Clear (refs : List WalRef) : Prop :=
  ∀ r ∈ refs, r.cdcMetaHash = none → ∀ r' ∈ refs, ∀ hash, r'.cdcMetaHash = some hash → hash 0 ≠ 0xff

/-! ## Reading the bytes -/

section Read
variable {h : Header} {x y : Bytes}

theorem ended_inj {texts texts' : List Text} {t t' : Text} (htexts : NoNul texts)
    (htexts' : NoNul texts') (heq : ended t ++ x = ended t' ++ y) (ht : t ∈ texts := by simp)
    (ht' : t' ∈ texts' := by simp) : t = t' ∧ x = y := by
  have hread := congrArg ByteCursor.readCString.run heq
  rw [ended, ended, ByteCursor.reads_readCString (htexts t ht),
    ByteCursor.reads_readCString (htexts' t' ht')] at hread
  exact Prod.mk.inj (Option.some.inj hread)

theorem le64_inj {a b : UInt64} (heq : le64 a.toNat ++ x = le64 b.toNat ++ y) : a = b ∧ x = y := by
  obtain ⟨hab, hxy⟩ := List.append_inj heq (by simp [length_le64])
  have hnat := congrArg ofLe64 hab
  rw [ofLe64_le64 a.toNat_lt, ofLe64_le64 b.toNat_lt] at hnat
  exact ⟨UInt64.toNat_inj.1 hnat, hxy⟩

theorem debug_inj {p q : WritePolicy} (heq : toUtf8 p.debug ++ x = toUtf8 q.debug ++ y) :
    p = q ∧ x = y := by
  have hprefix := List.prefix_or_prefix_of_prefix (List.prefix_append (toUtf8 p.debug) x)
    (heq ▸ List.prefix_append (toUtf8 q.debug) y)
  -- No text is a prefix of another.
  cases p <;> cases q
  all_goals first
    | exact ⟨rfl, List.append_cancel_left heq⟩
    | exact absurd hprefix (by decide)

theorem head_of_hash {hash : Fin 32 → UInt8} (heq : 0xff :: x = List.ofFn hash ++ y) :
    hash 0 = 0xff := by
  rw [List.ofFn_succ, List.cons_append] at heq
  exact (List.cons.inj heq).1.symm

theorem identity_inj {refs : List WalRef} (hclear : Clear refs) {r r' : WalRef} (hmem : r ∈ refs)
    (hmem' : r' ∈ refs) (hr : r.Ok h) (hr' : r'.Ok h)
    (heq : walRefIdentityBytes r ++ 0xff :: x = walRefIdentityBytes r' ++ 0xff :: y) :
    r.counted = r'.counted ∧ x = y := by
  simp only [walRefIdentityBytes, List.append_assoc, hr.fingerprint, hr'.fingerprint] at heq
  obtain ⟨h₁, heq⟩ := ended_inj hr.texts hr'.texts heq
  obtain ⟨h₂, heq⟩ := ended_inj hr.texts hr'.texts heq
  obtain ⟨h₃, heq⟩ := le64_inj heq
  obtain ⟨h₄, heq⟩ := le64_inj heq
  obtain ⟨h₅, heq⟩ := ended_inj hr.texts hr'.texts heq
  obtain ⟨h₆, heq⟩ := ended_inj hr.texts hr'.texts heq
  obtain ⟨h₇, heq⟩ := ended_inj hr.texts hr'.texts heq
  obtain ⟨h₈, heq⟩ := le64_inj heq
  have htime := congrArg UInt64.toInt64 h₈
  simp only [Int64.toInt64_toUInt64] at htime
  have hend : r.cdcMetaHash = r'.cdcMetaHash ∧ x = y := by
    have heq := List.append_cancel_left heq
    cases hs : r.cdcMetaHash <;> cases hs' : r'.cdcMetaHash <;> rw [hs, hs'] at heq
    · exact ⟨rfl, (List.cons.inj heq).2⟩
    · exact absurd (head_of_hash heq) (hclear r hmem hs r' hmem' _ hs')
    · exact absurd (head_of_hash heq.symm) (hclear r' hmem' hs' r hmem _ hs)
    · obtain ⟨hfn, hxy⟩ := List.append_inj heq (by simp)
      exact ⟨congrArg some (List.ofFn_injective hfn), (List.cons.inj hxy).2⟩
  refine ⟨?_, hend.2⟩
  simp only [WalRef.counted, h₁, h₂, h₃, h₄, h₅, h₆, h₇, htime, hend.1, hr.fingerprint,
    hr'.fingerprint]

theorem counted_of_bytes {refs : List WalRef} (hclear : Clear refs) :
    ∀ {rs rs' : List WalRef}, (∀ r ∈ rs, r ∈ refs ∧ r.Ok h) → (∀ r ∈ rs', r ∈ refs ∧ r.Ok h) →
      (rs.map walRefIdentityBytes).flatMap (· ++ [0xff]) =
        (rs'.map walRefIdentityBytes).flatMap (· ++ [0xff]) →
      rs.map WalRef.counted = rs'.map WalRef.counted
  | [], [], _, _, _ => rfl
  | [], _ :: _, _, _, heq | _ :: _, [], _, _, heq => by simp at heq
  | r :: rs, r' :: rs', hrs, hrs', heq => by
    rw [List.forall_mem_cons] at hrs hrs'
    simp only [List.map_cons, List.flatMap_cons, List.append_assoc, List.singleton_append] at heq
    obtain ⟨hcounted, hrest⟩ := identity_inj hclear hrs.1.1 hrs'.1.1 hrs.1.2 hrs'.1.2 heq
    rw [List.map_cons, List.map_cons, hcounted, counted_of_bytes hclear hrs.2 hrs'.2 hrest]

theorem exists_sorted (refs : List WalRef) : ∃ rs : List WalRef, rs.Perm refs ∧
    canonicalSortedWalRefIdentityBytes refs = rs.map walRefIdentityBytes :=
  ⟨_, List.perm_insertionSort (fun r r' => walRefIdentityBytes r ≤ walRefIdentityBytes r') refs,
    (List.map_insertionSort _ (· ≤ ·) walRefIdentityBytes refs fun _ _ _ _ => Iff.rfl).symm⟩

end Read

/-! ## An end read as a hash -/

def emptyHeader : Header := ⟨[], [], [], .append⟩

def emptyRef : WalRef := ⟨[], [], 0, 0, [], [], [], none, [], none⟩

def secondRef : WalRef :=
  { emptyRef with segmentId := .replicate 29 'b', start := 255, sinkRef := ['s', 's', 's'] }

/-- Its hash is the end of `emptyRef` and 31 bytes of `secondRef`, up to its start. -/
def hashedRef : WalRef :=
  { emptyRef with cdcMetaHash := some fun i => if i = 0 then 0xff else if i ≤ 29 then 98 else 0 }

/-- What is left of `secondRef`. -/
def restRef : WalRef := { emptyRef with len := 0x7373730000000000 }

theorem sorted_bytes_eq :
    (canonicalSortedWalRefIdentityBytes [emptyRef, secondRef]).flatMap (· ++ [0xff]) =
      (canonicalSortedWalRefIdentityBytes [hashedRef, restRef]).flatMap (· ++ [0xff]) := by
  decide +kernel

theorem not_perm_hashedRef :
    ¬ ([emptyRef, secondRef].map WalRef.counted).Perm ([hashedRef, restRef].map WalRef.counted) := by
  intro hperm
  have hsome := hperm.map (·.cdcMetaHash.isSome)
  revert hsome
  decide

/-- **Equal ids** mean equal headers and the same references, unless a hash that
begins with 0xff stands beside a reference without a hash. -/
theorem compactionId_eq_iff {D : Type} {sha256 : Bytes → D} (hsha : Function.Injective sha256)
    (h h' : Header) (refs refs' : List WalRef) (hok : Ok h refs) (hok' : Ok h' refs')
    (hclear : Clear (refs ++ refs')) :
    deterministicCompactionId sha256 h refs = deterministicCompactionId sha256 h' refs' ↔
      h = h' ∧ (refs.map WalRef.counted).Perm (refs'.map WalRef.counted) := by
  obtain ⟨rs, hrs, hsorted⟩ := exists_sorted refs
  obtain ⟨rs', hrs', hsorted'⟩ := exists_sorted refs'
  constructor
  · intro hid
    have hbytes := hsha hid
    simp only [List.append_assoc, hsorted, hsorted'] at hbytes
    obtain ⟨h₁, hbytes⟩ := ended_inj hok.texts hok'.texts (List.append_cancel_left hbytes)
    obtain ⟨h₂, hbytes⟩ := ended_inj hok.texts hok'.texts hbytes
    obtain ⟨h₃, hbytes⟩ := ended_inj hok.texts hok'.texts hbytes
    obtain ⟨h₄, hrefs⟩ := debug_inj hbytes
    obtain rfl : h = h' := by
      cases h
      cases h'
      simp_all
    refine ⟨rfl, (hrs.map _).symm.trans (.trans (.of_eq ?_) (hrs'.map _))⟩
    exact counted_of_bytes hclear
      (fun r hr => ⟨List.mem_append_left _ (hrs.subset hr), hok.refs r (hrs.subset hr)⟩)
      (fun r hr => ⟨List.mem_append_right _ (hrs'.subset hr), hok'.refs r (hrs'.subset hr)⟩) hrefs
  · rintro ⟨rfl, hperm⟩
    have hbytes : (refs.map walRefIdentityBytes).Perm (refs'.map walRefIdentityBytes) := by
      have := hperm.map walRefIdentityBytes
      rwa [List.map_map, List.map_map] at this
    have heq : canonicalSortedWalRefIdentityBytes refs = canonicalSortedWalRefIdentityBytes refs' :=
      List.Perm.eq_of_pairwise (fun a b _ _ => List.le_antisymm) (List.pairwise_insertionSort _ _)
        (List.pairwise_insertionSort _ _)
        ((List.perm_insertionSort _ _).trans (hbytes.trans (List.perm_insertionSort _ _).symm))
    rw [deterministicCompactionId, heq]
    rfl

def zeroHashedRef : WalRef := { emptyRef with cdcMetaHash := some fun _ => 0 }

/-- A reference without a hash beside one whose hash begins with 0. -/
theorem compactionId_eq_iff_mixed : Clear ([emptyRef, zeroHashedRef] ++ [zeroHashedRef]) ∧
    deterministicCompactionId id emptyHeader [emptyRef, zeroHashedRef] ≠
      deterministicCompactionId id emptyHeader [zeroHashedRef] := by
  have hclear : Clear ([emptyRef, zeroHashedRef] ++ [zeroHashedRef]) := by
    unfold Clear
    simp [emptyRef, zeroHashedRef]
  have hok (refs : List WalRef) (hrefs : ∀ r ∈ refs, r = emptyRef ∨ r = zeroHashedRef) :
      Ok emptyHeader refs := by
    refine ⟨by simp [NoNul, emptyHeader], fun r hr => ?_⟩
    rcases hrefs r hr with rfl | rfl <;> exact ⟨by simp [NoNul, emptyRef, zeroHashedRef], rfl⟩
  refine ⟨hclear, fun heq => ?_⟩
  have hperm := ((compactionId_eq_iff Function.injective_id _ _ _ _ (hok _ (by simp))
    (hok _ (by simp)) hclear).1 heq).2
  simpa using hperm.length_eq

/-- Two lists with one id: the bytes that are hashed are the same. -/
theorem end_read_as_hash :
    deterministicCompactionId id emptyHeader [emptyRef, secondRef] =
        deterministicCompactionId id emptyHeader [hashedRef, restRef] ∧
      ¬ ([emptyRef, secondRef].map WalRef.counted).Perm ([hashedRef, restRef].map WalRef.counted) := by
  refine ⟨?_, not_perm_hashedRef⟩
  rw [deterministicCompactionId, deterministicCompactionId, sorted_bytes_eq]

end Skippr.L5.CompactionId
