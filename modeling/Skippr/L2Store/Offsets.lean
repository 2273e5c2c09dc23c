import Skippr.L1Encoding.StorageKey
import Skippr.L2Store.OffsetStore

/-!
# Offsets: what a published offset makes a source skip

An offset value is three 64-bit integers (file size, position, closed flag),
published under its key (src/helpers/offsets.rs). Two checks read it: the
list-time check of a source, through the offset service, and
`should_ingest_at_offset` of the host.
-/
namespace Skippr.L2

open Skippr.L1

/-- mirrors offsets.rs:92-96 -/
structure OffsetValue where
  filesize : UInt64
  line : UInt64
  closed : UInt64
deriving DecidableEq, Repr

inductive OffsetsError
  /-- "offset bytes do not fit schema" -/
  | schema
deriving DecidableEq, Repr

inductive OffsetTypes | filesize | position | closed
deriving DecidableEq, Repr

namespace OffsetValue

def encode (v : OffsetValue) : Bytes :=
  le64 v.filesize.toNat ++ le64 v.line.toNat ++ le64 v.closed.toNat

/-- The layout check takes 24 bytes and nothing else. -/
def decode (bytes : Bytes) : Except OffsetsError OffsetValue :=
  if bytes.length = 24 then
    .ok ⟨.ofNat (ofLe64 (bytes.take 8)), .ofNat (ofLe64 ((bytes.drop 8).take 8)),
      .ofNat (ofLe64 (bytes.drop 16))⟩
  else .error .schema

end OffsetValue

/-- mirrors offsets.rs:438-452 -/
def snapshotValue (store : OffsetStore) (key : OffsetKey) :
    Except OffsetsError (Option OffsetValue) :=
  match published store (offsetKey key.ns key.part) with
  | none => .ok none
  | some bytes => (OffsetValue.decode bytes).map some

/-- mirrors offsets.rs:543-601 -/
def validate (store : OffsetStore) (key : OffsetKey) (offsetType : OffsetTypes)
    (offsetValue : UInt64) : Except OffsetsError (Option Bool) :=
  match published store (offsetKey key.ns key.part) with
  | none => .ok none
  | some bytes => (OffsetValue.decode bytes).map fun value =>
    some <| match offsetType with
      | .filesize => decide (value.filesize < offsetValue)
      | .position => decide (value.line < offsetValue)
      | .closed => decide ((offsetValue = 0 ∧ value.closed = 0) ∨ (offsetValue ≠ 0 ∧ value.closed ≠ 0))

/-- mirrors src/runtime_plugins/offset_service.rs:16-27 -/
def shouldProcess (decision : Option Bool) (offsetType : OffsetTypes) : Bool :=
  match decision with
  | none => true
  | some allow =>
    match offsetType with
    | .closed => !allow
    | .filesize | .position => allow

/-- The list-time check of a source object. mirrors plugins/data_source/s3/src/s3.rs:246-263 -/
def listed (store : OffsetStore) (key : OffsetKey) : Except OffsetsError Bool :=
  (validate store key .closed 1).map fun decision => shouldProcess decision .closed

/-- mirrors src/ingest_work.rs:1077-1096 -/
def shouldIngestAtOffset (snapshot : Option OffsetValue) (isCdcBatch trackPosition : Bool)
    (offsetPos : UInt64) : Bool :=
  if isCdcBatch then true
  else match snapshot with
    | none => true
    | some snap =>
      if snap.closed ≠ 0 then false
      else if trackPosition && decide (offsetPos ≤ snap.line) then false
      else true

def ingested (store : OffsetStore) (key : OffsetKey) (trackPosition : Bool) (offsetPos : UInt64) :
    Except OffsetsError Bool :=
  (snapshotValue store key).map fun snap => shouldIngestAtOffset snap false trackPosition offsetPos

/-! ## Round trip -/

theorem length_le64 (n : Nat) : (le64 n).length = 8 := by simp [le64]

theorem ofLe64_le64 {n : Nat} (h : n < 2 ^ 64) : ofLe64 (le64 n) = n := by
  simp only [le64, ofLe64, List.range, List.range.loop, List.map_cons, List.map_nil,
    List.foldr_cons, List.foldr_nil, UInt8.toNat_ofNat']
  omega

theorem ofLe64_lt : ∀ bytes : Bytes, ofLe64 bytes < 256 ^ bytes.length
  | [] => by decide
  | b :: bytes => by
    have htail := ofLe64_lt bytes
    have hb := b.toNat_lt
    have hcons : ofLe64 (b :: bytes) = b.toNat + 256 * ofLe64 bytes := rfl
    rw [hcons, List.length_cons, Nat.pow_succ]
    omega

theorem OffsetValue.decode_encode (v : OffsetValue) : decode v.encode = .ok v := by
  have hlen : v.encode.length = 24 := by simp [encode, length_le64]
  have hfile : v.encode.take 8 = le64 v.filesize.toNat := by
    rw [encode, List.append_assoc, List.take_left' (length_le64 _)]
  have hline : (v.encode.drop 8).take 8 = le64 v.line.toNat := by
    rw [encode, List.append_assoc, List.drop_left' (length_le64 _), List.take_left' (length_le64 _)]
  have hclosed : v.encode.drop 16 = le64 v.closed.toNat :=
    List.drop_left' (by simp [length_le64])
  rw [decode, if_pos hlen, hfile, hline, hclosed, ofLe64_le64 v.filesize.toNat_lt,
    ofLe64_le64 v.line.toNat_lt, ofLe64_le64 v.closed.toNat_lt]
  simp

/-! ## Source objects -/

/-- A source object: a bucket and an object key, a directory and a file path. -/
structure Source where
  ns : Text
  part : Text
deriving DecidableEq

def Source.key (flatten : Bool) (src : Source) : OffsetKey :=
  runtimeRoundtripOffsetKey flatten src.ns src.part

def Source.kept (flatten : Bool) (src : Source) : List Text × List Segment :=
  (namespaceKept flatten src.ns, partitionKept flatten src.part)

theorem Source.key_eq_iff (flatten : Bool) (a b : Source) :
    a.key flatten = b.key flatten ↔ a.kept flatten = b.kept flatten := by
  rw [key, key, runtimeRoundtripOffsetKey_eq_iff, kept, kept, Prod.mk.injEq]

theorem mem_key_ns (flatten : Bool) (src : Source) {c : Char} (hc : isSep c = true) (hu : c ≠ '_') :
    c ∉ (src.key flatten).ns := by
  rw [Source.key, runtimeRoundtripOffsetKey_eq]
  exact notMem_joinWords hc hu (areWords_againWords flatten (areWords_fieldWords flatten src.ns))

theorem hash_notMem_key_part (flatten : Bool) (src : Source) : '#' ∉ (src.key flatten).part := by
  rw [Source.key, runtimeRoundtripOffsetKey_eq]
  intro h
  rcases mem_intercalate h with h | ⟨t, ht, h⟩
  · exact absurd h (by decide)
  obtain ⟨f, hf, rfl⟩ := List.mem_map.mp ht
  exact Segment.notMem_render rfl (by decide) (by decide) (ok_partitionKept flatten src.part f hf) h

theorem notFence_key (flatten : Bool) (src : Source) :
    NotFence (offsetKey (src.key flatten).ns (src.key flatten).part) := by
  intro h
  have hmem : '#' ∈ offsetKey (src.key flatten).ns (src.key flatten).part :=
    h.subset (by decide)
  rcases List.mem_append.mp hmem with hns | hpart
  · exact mem_key_ns flatten src rfl (by decide) hns
  · rcases List.mem_cons.mp hpart with he | hpart
    · exact absurd he (by decide)
    · exact hash_notMem_key_part flatten src hpart

theorem offsetKey_key_inj {flatten : Bool} {a b : Source}
    (h : offsetKey (a.key flatten).ns (a.key flatten).part =
      offsetKey (b.key flatten).ns (b.key flatten).part) : a.key flatten = b.key flatten := by
  have ha := splitOnce_append (mem_key_ns flatten a (c := '-') rfl (by decide))
    (a.key flatten).part
  have hb := splitOnce_append (mem_key_ns flatten b (c := '-') rfl (by decide))
    (b.key flatten).part
  unfold offsetKey at h
  rw [h, hb] at ha
  obtain ⟨hns, hpart⟩ := Prod.mk.inj (Option.some.inj ha)
  cases ka : a.key flatten
  cases kb : b.key flatten
  simp_all

def publishClosed (flatten : Bool) (store : OffsetStore) (src : Source) (filesize line : UInt64)
    (epoch seq : Nat) : OffsetStore :=
  put store (offsetKey (src.key flatten).ns (src.key flatten).part)
    (OffsetValue.encode ⟨filesize, line, 1⟩) epoch seq

theorem published_publishClosed (flatten : Bool) (store : OffsetStore) (a b : Source)
    (filesize line : UInt64) (epoch seq : Nat) :
    published (publishClosed flatten store a filesize line epoch seq)
        (offsetKey (b.key flatten).ns (b.key flatten).part) =
      if a.kept flatten = b.kept flatten then some (OffsetValue.encode ⟨filesize, line, 1⟩)
      else published store (offsetKey (b.key flatten).ns (b.key flatten).part) := by
  rw [publishClosed, published_put (notFence_key flatten b)]
  by_cases hk : a.kept flatten = b.kept flatten
  · have hkey : b.key flatten = a.key flatten := (Source.key_eq_iff flatten b a).mpr hk.symm
    rw [if_pos hk, hkey, if_pos rfl]
  · rw [if_neg hk, if_neg]
    intro he
    exact hk ((Source.key_eq_iff flatten a b).mp (offsetKey_key_inj he.symm))

/-- Two source objects share an offset key exactly when the rewrites keep the same
words of both. Publishing a closed offset of one makes the list-time check and
`should_ingest_at_offset` skip the other in that case, and leaves both checks as
they were otherwise. -/
theorem closed_skips_same_words (flatten : Bool) (store : OffsetStore) (a b : Source)
    (filesize line : UInt64) (epoch seq : Nat) (trackPosition : Bool) (offsetPos : UInt64) :
    (a.key flatten = b.key flatten ↔ a.kept flatten = b.kept flatten) ∧
    listed (publishClosed flatten store a filesize line epoch seq) (b.key flatten) =
      (if a.kept flatten = b.kept flatten then .ok false else listed store (b.key flatten)) ∧
    ingested (publishClosed flatten store a filesize line epoch seq) (b.key flatten)
        trackPosition offsetPos =
      (if a.kept flatten = b.kept flatten then .ok false
        else ingested store (b.key flatten) trackPosition offsetPos) := by
  have hpub := published_publishClosed flatten store a b filesize line epoch seq
  refine ⟨Source.key_eq_iff flatten a b, ?_, ?_⟩
  · unfold listed validate
    by_cases hk : a.kept flatten = b.kept flatten
    · rw [if_pos hk] at hpub ⊢
      rw [hpub]
      dsimp only
      rw [OffsetValue.decode_encode]
      rfl
    · rw [if_neg hk] at hpub ⊢
      rw [hpub]
  · unfold ingested snapshotValue
    by_cases hk : a.kept flatten = b.kept flatten
    · rw [if_pos hk] at hpub ⊢
      rw [hpub]
      dsimp only
      rw [OffsetValue.decode_encode]
      rfl
    · rw [if_neg hk] at hpub ⊢
      rw [hpub]

/-- A bucket or directory whose name begins with a letter, and an object of it
whose path segments do; no capitals. -/
structure Source.Plain (src : Source) : Prop where
  ns : IsName src.ns
  part : IsPath src.part

theorem Source.plain_of_all {src : Source} (h : (src.ns ++ src.part).all (fun c => lowerChar c = [c]) ∧
    beginsWithLetter src.ns ∧ (pathSegments src.part).all beginsWithLetter) : src.Plain := by
  obtain ⟨hlower, hns, hpart⟩ := h
  simp only [List.all_append, Bool.and_eq_true, List.all_eq_true, decide_eq_true_eq] at hlower hpart
  exact ⟨⟨hlower.1, hns⟩, ⟨hlower.2, fun _ => hpart⟩⟩

/-- The names differ in words only. -/
def Source.SamePunctuation (a b : Source) : Prop :=
  punctuation isSep 'a' a.ns = punctuation isSep 'a' b.ns ∧
    punctuation isSep 'a' a.part = punctuation isSep 'a' b.part

theorem Source.eq_of_kept {flatten : Bool} {a b : Source} (ha : a.Plain) (hb : b.Plain)
    (hsame : a.SamePunctuation b) (h : a.kept flatten = b.kept flatten) : a = b := by
  obtain ⟨hns, hpart⟩ := Prod.mk.inj h
  have hkept : ∀ {src : Source}, src.Plain → namespaceKept flatten src.ns = words isSep src.ns := by
    intro src hsrc
    rw [namespaceKept, fieldWords_of_name flatten hsrc.ns, againWords_of_letter flatten hsrc.ns.letter]
  rw [hkept ha, hkept hb] at hns
  have hpart : words isSep a.part = words isSep b.part := by
    rw [← allWords_partitionKept flatten ha.part, hpart, allWords_partitionKept flatten hb.part]
  cases a
  cases b
  rw [Source.mk.injEq]
  exact ⟨eq_of_words rfl hns hsame.1, eq_of_words rfl hpart hsame.2⟩

def dayObject (day : Char) : Source :=
  ⟨['b'], ['d', 'a', 'y', '=', '0', day, '/', 'p', 'a', 'r', 't', '-', '7', '.', 'j', 's', 'o', 'n']⟩

end Skippr.L2
