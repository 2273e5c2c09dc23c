import Skippr.Core.Lists
import Skippr.L3Wal.SegmentFile

/-!
# What `encode_snapshot` writes is read back

`encode_snapshot` accepts any maps whose sidecars parse. The count in the FOOT
is a `u32` that saturates (`parts_count.saturating_add(1)`), and so do the slice
ordinals; the reader counts the parts itself and refuses a count that is no
`u32`. Below that bound a file is read back as it was reported.
-/
namespace Skippr.L3

open Skippr.L2 (Bytes)

variable {O D R : Type} {c : Codecs O D R} {maps : SnapshotMaps O D} {enc : EncodedSnapshot O}

/-- `encode_snapshot` returned. The bytes are a `Vec`, which holds no more than
`isize::MAX` of them. -/
structure Accepted (c : Codecs O D R) (maps : SnapshotMaps O D) (enc : EncodedSnapshot O) : Prop where
  ok : encodeSnapshot c maps = .ok enc
  capacity : enc.bytes.length < 2 ^ 63

structure ReadBack (c : Codecs O D R) (maps : SnapshotMaps O D) (enc : EncodedSnapshot O) : Prop where
  metadata : readMetadataFromBytes c enc.bytes = .ok enc.metadata
  offsets : enc.metadata.offsets = maps.offsets
  created : enc.metadata.createdAtSecs = maps.createdAt
  count : enc.metadata.numPartitions = maps.parts.length
  ordinals : enc.metadata.index.map (·.sliceOrdinal) = List.range maps.parts.length
  entries : List.Forall₂ (fun e p => Finds c enc.bytes e p ∧
    summarizePartMeta c p.metaBlob = some e.partMetaSummary) enc.metadata.index maps.parts
  checksum : verifyBodyChecksum c enc.bytes = .ok enc.sha256

/-! ## From maps to a snapshot -/

theorem SnapshotMaps.mem_parts_iff {p : Part D} : p ∈ maps.parts ↔
    maps.batches.get p.key = some p.payload ∧ p.payload.isEmpty = false ∧
      (maps.partitionsMeta.get p.key).getD (0, maps.createdAt) = (p.bytes, p.updatedAt) ∧
      (maps.partMetaBlobs.get p.key).getD [] = p.metaBlob := by
  constructor
  · intro h
    exact (part?_eq_some.1 (mem_parts h)).2
  · intro h
    refine List.mem_filterMap.2 ⟨p.key, ?_, part?_eq_some.2 ⟨rfl, h⟩⟩
    rw [sortedKeys, List.mem_insertionSort, Map.mem_keys_iff, h.1]
    exact Option.some_ne_none _

theorem pairwise_sortedKeys (maps : SnapshotMaps O D) : (sortedKeys maps).Pairwise (· < ·) := by
  have hle : (sortedKeys maps).Pairwise (· ≤ ·) := List.pairwise_insertionSort (· ≤ ·) _
  have hne : (sortedKeys maps).Pairwise (· ≠ ·) :=
    (List.perm_insertionSort (· ≤ ·) _).nodup_iff.2 maps.batches.nodupKeys
  exact hle.imp₂ (fun _ _ h₁ h₂ => lt_of_le_of_ne h₁ h₂) hne

theorem keys_parts_sublist (maps : SnapshotMaps O D) : ∀ keys : List PartitionKey,
    ((keys.filterMap maps.part?).map (·.key)).Sublist keys
  | [] => .slnil
  | key :: keys => by
    cases hpart : maps.part? key with
    | none =>
      rw [List.filterMap_cons_none hpart]
      exact (keys_parts_sublist maps keys).cons key
    | some p =>
      rw [List.filterMap_cons_some hpart, List.map_cons, (part?_eq_some.1 hpart).1]
      exact (keys_parts_sublist maps keys).cons_cons key

def SnapshotMaps.snapshot (maps : SnapshotMaps O D)
    (h : ∀ p ∈ maps.parts, (summarizePartMeta c p.metaBlob).isSome) : Snapshot c where
  offsets := maps.offsets
  createdAt := maps.createdAt
  parts := maps.parts
  sorted := (pairwise_sortedKeys maps).sublist (keys_parts_sublist maps _)
  nonempty _ hp := (part?_eq_some.1 (mem_parts hp)).2.2.1
  summarized := h

theorem summarized_of_writePart {w w' : Written} {key : PartitionKey}
    (h : writePart c maps w key = .ok w') :
    ∀ p, maps.part? key = some p → (summarizePartMeta c p.metaBlob).isSome := by
  intro p hp
  obtain ⟨-, hpayload, hne, hbytes, hblob⟩ := part?_eq_some.1 hp
  simp only [writePart, hpayload, hne, hbytes, hblob, Bool.false_eq_true, if_false] at h
  split at h
  · cases h
  · rename_i summary hsummary
    rw [hsummary]
    rfl

theorem summarized_of_ok (h : encodeSnapshot c maps = .ok enc) :
    ∀ p ∈ maps.parts, (summarizePartMeta c p.metaBlob).isSome := by
  rw [encodeSnapshot, bind_eq_ok] at h
  obtain ⟨w, hfold, -⟩ := h
  intro p hp
  obtain ⟨key, hkey, hpart⟩ := List.mem_filterMap.1 hp
  exact foldlM_forall (P := fun key => ∀ p, maps.part? key = some p →
    (summarizePartMeta c p.metaBlob).isSome) (fun _ _ _ => summarized_of_writePart) _ hfold key hkey p hpart

theorem length_encodeSnapshot (hsum : ∀ p ∈ maps.parts, (summarizePartMeta c p.metaBlob).isSome) :
    ∃ enc, encodeSnapshot c maps = .ok enc ∧ enc.bytes.length = (maps.snapshot hsum).bytes.length := by
  obtain ⟨w, hfold, hfile, -, -⟩ := foldlM_writePart c maps (sortedKeys maps)
    ⟨header c maps.offsets maps.createdAt, [], 0, 0⟩ hsum
  rw [encodeSnapshot, hfold]
  refine ⟨_, rfl, ?_⟩
  rw [Snapshot.length_bytes]
  simp only [hfile, List.length_append, length_le32, c.length_sha256, footTag, List.length_cons,
    List.length_nil]
  rfl

/-! ## Reading back -/

theorem numPartitions_lt {bytes : Bytes} {m : SegmentFileMetadata O}
    (h : readMetadataFromBytes c bytes = .ok m) : m.numPartitions < 2 ^ 32 := by
  rw [readMetadataFromBytes, map_eq_ok] at h
  obtain ⟨⟨m', pos⟩, h, rfl⟩ := h
  rw [readMetadataFromReader] at h
  iterate 7 obtain ⟨_, _, -, h⟩ := bind_eq_ok_at h
  obtain ⟨⟨index, total⟩, _, -, h⟩ := bind_eq_ok_at h
  iterate 4 obtain ⟨_, _, -, h⟩ := bind_eq_ok_at h
  obtain ⟨_, _, hcount, h⟩ := bind_eq_ok_at h
  obtain ⟨_, _, -, h⟩ := bind_eq_ok_at h
  cases h
  exact of_require hcount

theorem layout_ordinals (c : Codecs O D R) : ∀ (parts : List (Part D)) (pos ordinal : Nat),
    (layout c pos ordinal parts).map (·.sliceOrdinal) = List.range' ordinal parts.length
  | [], _, _ => rfl
  | p :: parts, pos, ordinal => by
    rw [layout, List.map_cons, layout_ordinals c parts, List.length_cons, List.range'_succ]
    rfl

theorem layout_summaries (c : Codecs O D R) : ∀ (parts : List (Part D)) (pos ordinal : Nat),
    (∀ p ∈ parts, (summarizePartMeta c p.metaBlob).isSome) →
    List.Forall₂ (fun e p => summarizePartMeta c p.metaBlob = some e.partMetaSummary)
      (layout c pos ordinal parts) parts
  | [], _, _, _ => .nil
  | p :: parts, _, _, h => by
    refine .cons ?_ (layout_summaries c parts _ _ (List.forall_mem_cons.1 h).2)
    obtain ⟨summary, hsummary⟩ := Option.isSome_iff_exists.1 (h p List.mem_cons_self)
    show summarizePartMeta c p.metaBlob = some ((summarizePartMeta c p.metaBlob).getD .append)
    rw [hsummary, Option.getD_some]

/-- **Round trip.** The metadata, the ranges and the digest are read back as the
writer reported them, exactly if less than 2^32 partitions hold rows. -/
theorem readBack_iff (h : Accepted c maps enc) :
    ReadBack c maps enc ↔ maps.parts.length < 2 ^ 32 := by
  constructor
  · intro hread
    rw [← hread.count]
    exact numPartitions_lt hread.metadata
  · intro hcount
    have hsum := summarized_of_ok h.ok
    obtain ⟨enc', henc', hlength⟩ := length_encodeSnapshot hsum
    obtain rfl : enc' = enc := Except.ok.inj (henc'.symm.trans h.ok)
    have hfits : (maps.snapshot hsum).Fits := by
      refine ⟨?_, hcount⟩
      have := h.capacity
      omega
    have heq : encodeSnapshot c maps = _ := encodeSnapshot_eq hfits rfl rfl rfl
    obtain rfl : enc' = _ := Except.ok.inj (h.ok.symm.trans heq)
    exact {
      metadata := Snapshot.readMetadataFromBytes_bytes hfits
      offsets := rfl
      created := rfl
      count := rfl
      ordinals := (layout_ordinals c maps.parts _ 0).trans (List.range_eq_range' ..).symm
      entries := forall₂_and (maps.snapshot hsum).finds (layout_summaries c _ _ _ hsum)
      checksum := Snapshot.verifyBodyChecksum_bytes _ }

/-- Two partitions and an empty one; the second has a sidecar and no entry in
`partitions_meta`. -/
def twoPartitions : SnapshotMaps Nat Nat where
  offsets := 5
  batches := ((∅ : Map PartitionKey (WalPayload Nat)).insert ⟨['s'], ['n'], ['q'], none, ['f']⟩
      (.copy ⟨[[7, 8], [9]], 2⟩)).insert ⟨['s'], ['n'], ['p'], some 3, ['f']⟩
      (.arrow ⟨[⟨['a'], none, none⟩], [[1]], by simp⟩) |>.insert
      ⟨['s'], ['n'], ['o'], none, ['f']⟩ (.copy ⟨[], 0⟩)
  partitionsMeta := (∅ : Map PartitionKey (UInt64 × UInt64)).insert
    ⟨['s'], ['n'], ['p'], some 3, ['f']⟩ (8, 2)
  partMetaBlobs := (∅ : Map PartitionKey Bytes).insert ⟨['s'], ['n'], ['q'], none, ['f']⟩ [1, 2]
  createdAt := 4

theorem twoPartitions_ok : (encodeSnapshot Plain.plainCodecs twoPartitions).isOk = true := by
  decide +kernel

theorem twoPartitions_readBack : ∃ enc, Accepted Plain.plainCodecs twoPartitions enc ∧
    ReadBack Plain.plainCodecs twoPartitions enc := by
  cases h : encodeSnapshot Plain.plainCodecs twoPartitions with
  | error e =>
    have hok := twoPartitions_ok
    rw [h] at hok
    cases hok
  | ok enc =>
    have hcapacity : (encodeSnapshot Plain.plainCodecs twoPartitions).toOption.all
        (fun enc => enc.bytes.length < 2 ^ 63) = true := by decide +kernel
    rw [h] at hcapacity
    have haccepted : Accepted Plain.plainCodecs twoPartitions enc :=
      ⟨h, of_decide_eq_true hcapacity⟩
    exact ⟨enc, haccepted, (readBack_iff haccepted).2 (by decide +kernel)⟩

/-! ## Too many partitions -/

section Crowd
open Plain

def words : Nat → List Text
  | 0 => [[]]
  | n + 1 => (words n).map ('a' :: ·) ++ (words n).map ('b' :: ·)

theorem length_words (n : Nat) : (words n).length = 2 ^ n := by
  induction n with
  | zero => rfl
  | succ n ih =>
    rw [words, List.length_append, List.length_map, List.length_map, ih, Nat.pow_succ]
    omega

theorem length_of_mem_words (n : Nat) : ∀ w ∈ words n, w.length = n := by
  induction n with
  | zero => simp [words]
  | succ n ih =>
    intro w hw
    simp only [words, List.mem_append, List.mem_map] at hw
    obtain ⟨v, hv, rfl⟩ | ⟨v, hv, rfl⟩ := hw
    · rw [List.length_cons, ih v hv]
    · rw [List.length_cons, ih v hv]

theorem nodup_words (n : Nat) : (words n).Nodup := by
  induction n with
  | zero => exact List.nodup_singleton _
  | succ n ih =>
    have hmap : ∀ ch : Char, ((words n).map (ch :: ·)).Nodup := fun ch =>
      ih.map (List.cons_injective)
    refine List.Nodup.append (hmap 'a') (hmap 'b') ?_
    intro w ha hb
    obtain ⟨v, -, rfl⟩ := List.mem_map.1 ha
    obtain ⟨v', -, hv⟩ := List.mem_map.1 hb
    cases hv

def crowdKey (partition : Text) : PartitionKey := ⟨[], [], partition, none, []⟩

def crowd (n : Nat) : SnapshotMaps Nat Nat where
  offsets := 0
  batches := {
    entries := (words n).map fun w => ⟨crowdKey w, .copy ⟨[], 1⟩⟩
    nodupKeys := by
      rw [List.NodupKeys, List.keys, List.map_map]
      exact (nodup_words n).map fun v w h => (PartitionKey.mk.inj h).2.2.1 }
  partitionsMeta := ∅
  partMetaBlobs := ∅
  createdAt := 0

theorem crowd_get {n : Nat} {key : PartitionKey} {payload : WalPayload Nat}
    (h : (crowd n).batches.get key = some payload) :
    payload = .copy ⟨[], 1⟩ ∧ ∃ w ∈ words n, key = crowdKey w := by
  obtain ⟨w, hw, heq⟩ := List.mem_map.1 (AList.mem_lookup_iff.1 h)
  cases heq
  exact ⟨rfl, w, hw, rfl⟩

theorem crowd_parts (n : Nat) : (crowd n).parts.length = 2 ^ n := by
  have hall : ∀ key ∈ sortedKeys (crowd n), ((crowd n).part? key).isSome := by
    intro key hkey
    rw [sortedKeys, List.mem_insertionSort, Map.mem_keys_iff] at hkey
    obtain ⟨payload, hpayload⟩ := Option.ne_none_iff_exists'.1 hkey
    refine Option.isSome_iff_exists.2 ⟨⟨key, 0, 0, [], payload⟩, part?_eq_some.2 ⟨rfl, hpayload, ?_⟩⟩
    rw [(crowd_get hpayload).1]
    exact ⟨rfl, rfl, rfl⟩
  rw [SnapshotMaps.parts, List.filterMap_length_eq_length.2 hall, sortedKeys,
    List.length_insertionSort]
  show (((words n).map _).map _).length = 2 ^ n
  rw [List.length_map, List.length_map, length_words]

theorem length_text (w : Text) : (text.enc w).length = 4 * w.length + 1 := by
  show (Coding.encList Coding.char w).length = 4 * w.length + 1
  induction w with
  | nil => rfl
  | cons ch w ih =>
    rw [Coding.encList, List.length_cons, List.length_append, ih, List.length_cons]
    show 3 + (4 * w.length + 1) + 1 = 4 * (w.length + 1) + 1
    omega

theorem length_crowdKey (w : Text) : (plainCodecs.key (crowdKey w)).length = 4 * w.length + 5 := by
  have h := length_text w
  show (text.enc [] ++ (text.enc [] ++ (text.enc w ++ (_ ++ text.enc [])))).length = _
  simp only [List.length_append, h, length_text, List.length_nil]
  show _ + (_ + (_ + (1 + _))) = _
  omega

theorem length_encode_crowd {n : Nat} {p : Part Nat} (h : p ∈ (crowd n).parts) :
    (p.encode plainCodecs).length = 4 * n + 50 := by
  obtain ⟨hget, -, -, hblob⟩ := SnapshotMaps.mem_parts_iff.1 h
  obtain ⟨hpayload, w, hw, hkey⟩ := crowd_get hget
  have hmeta : p.metaBlob = [] := hblob.symm
  rw [Part.length_encode, Part.dataOffset, Part.metaOffset, hkey, length_crowdKey,
    length_of_mem_words n w hw, hmeta, hpayload]
  show 4 + (8 + (4 * n + 5)) + 8 + 8 + 8 + 0 + 1 + 8 + 0 = 4 * n + 50
  omega

theorem crowd_summarized (n : Nat) :
    ∀ p ∈ (crowd n).parts, (summarizePartMeta plainCodecs p.metaBlob).isSome := by
  intro p hp
  have hmeta : p.metaBlob = [] := (SnapshotMaps.mem_parts_iff.1 hp).2.2.2.symm
  rw [hmeta]
  rfl

theorem length_crowd (n : Nat) :
    ((crowd n).snapshot (crowd_summarized n)).bytes.length = 25 + 2 ^ n * (4 * n + 50) + 40 := by
  rw [Snapshot.length_bytes, Snapshot.length_header, List.length_flatMap]
  have hconst : ((crowd n).parts.map fun p => (p.encode plainCodecs).length).sum =
      2 ^ n * (4 * n + 50) := by
    rw [List.sum_eq_card_nsmul _ (4 * n + 50), List.length_map, crowd_parts, smul_eq_mul]
    exact List.forall_mem_map.2 fun p hp => length_encode_crowd hp
  show 4 + 4 + 8 + (8 + 1) + ((crowd n).parts.map fun p => (p.encode plainCodecs).length).sum + 40 = _
  rw [hconst]

/-- **Written, not read.** 2^32 partitions of one row are accepted, and what is
written is not read back. -/
theorem crowd_unread : ∃ enc, Accepted plainCodecs (crowd 32) enc ∧
    ¬ ReadBack plainCodecs (crowd 32) enc ∧
    ∀ m, readMetadataFromBytes plainCodecs enc.bytes = .ok m →
      m.numPartitions ≠ (crowd 32).parts.length := by
  obtain ⟨enc, hok, hlength⟩ := length_encodeSnapshot (crowd_summarized 32)
  have hparts := crowd_parts 32
  have hcount : ∀ m, readMetadataFromBytes plainCodecs enc.bytes = .ok m →
      m.numPartitions ≠ (crowd 32).parts.length := by
    intro m hm
    rw [hparts]
    exact Nat.ne_of_lt (numPartitions_lt hm)
  refine ⟨enc, ⟨hok, ?_⟩, fun h => hcount _ h.metadata h.count, hcount⟩
  rw [hlength, length_crowd]
  decide

end Crowd

end Skippr.L3
