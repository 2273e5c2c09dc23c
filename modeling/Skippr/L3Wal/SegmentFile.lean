import Skippr.Core.Scan
import Skippr.Core.Coding
import Skippr.Core.Fallible
import Skippr.L2Store.Offsets

/-!
# The segment file (`SEGF`)

A WAL segment is one byte string: a header with the source offsets, one PART for
each partition, and a FOOT with the digest of everything before it
(src/buffer/segment_file.rs). `encode_snapshot` writes it and keeps the byte
range of each payload and of each metadata sidecar; `read_metadata_from_reader`
scans a file it has not written and finds the ranges again.

bincode, Arrow IPC, gzip and SHA-256 are the fields of `Codecs`, with the round
trips assumed of them.
-/
namespace Skippr.L3

open Skippr.L2 (Bytes le64 ofLe64)

/-! ## Keys and codecs -/

/-- mirrors segment_file.rs:136-143 -/
structure PartitionKey where
  sinkRef : Text
  ns : Text
  partition : Text
  time : Option Int
  schemaFingerprint : Text
deriving DecidableEq, Repr

namespace PartitionKey

/-- The derived order: field by field, a missing time first. -/
def rank (k : PartitionKey) : Text ×ₗ Text ×ₗ Text ×ₗ WithBot Int ×ₗ Text :=
  toLex (k.sinkRef, toLex (k.ns, toLex (k.partition,
    toLex ((show WithBot Int from k.time), k.schemaFingerprint))))

theorem rank_injective : Function.Injective rank := by
  intro a b h
  obtain ⟨h₁, h⟩ := Prod.mk.inj (toLex.injective h)
  obtain ⟨h₂, h⟩ := Prod.mk.inj (toLex.injective h)
  obtain ⟨h₃, h⟩ := Prod.mk.inj (toLex.injective h)
  obtain ⟨h₄, h₅⟩ := Prod.mk.inj (toLex.injective h)
  cases a
  cases b
  cases h₁
  cases h₂
  cases h₃
  cases h₄
  cases h₅
  rfl

instance : LinearOrder PartitionKey := LinearOrder.lift' rank rank_injective

end PartitionKey

inductive PartCodec
  | arrow
  /-- One gzip member of legacy frames, only read. -/
  | copy
  | copyChunked
deriving DecidableEq, Repr

namespace PartCodec

/-- mirrors segment_file.rs:24-30 -/
def toByte : PartCodec → UInt8
  | arrow => 0
  | copy => 1
  | copyChunked => 2

def ofByte (b : UInt8) : Option PartCodec :=
  if b = 0 then some arrow
  else if b = 1 then some copy
  else if b = 2 then some copyChunked
  else none

@[simp] theorem ofByte_toByte (codec : PartCodec) : ofByte codec.toByte = some codec := by
  cases codec <;> rfl

end PartCodec

/-- What an index entry says about the metadata sidecar of its part.
mirrors segment_file.rs:154-161 -/
inductive PartMetaSummary
  | append
  | cdc (rowCount : UInt64) (canonicalHash : Bytes)
deriving DecidableEq, Repr

/-- A column of an Arrow schema: its name and the two metadata entries that may
carry a field id. -/
structure Field where
  name : Text
  parquetFieldId : Option Text
  icebergFieldId : Option Text
deriving DecidableEq, Repr

structure ArrowStream (D : Type) where
  schema : List Field
  batches : List (List D)
  fits : ∀ b ∈ batches, b.length = schema.length
deriving DecidableEq

/-- Copy rows, encoded by the worker that admitted them.
mirrors segment_file.rs:39-44 -/
structure CopyPart where
  chunks : List Bytes
  rows : Nat
deriving DecidableEq, Repr

/-- The serialisers of the format. `O` is the map of source offsets, `D` an
Arrow array, `R` a copy record. -/
structure Codecs (O D R : Type) where
  offsets : O → Bytes
  readOffsets : Bytes → Option O
  key : PartitionKey → Bytes
  readKey : Bytes → Option PartitionKey
  /-- `parse_part_meta_blob` -/
  parsePartMeta : Bytes → Option PartMetaSummary
  /-- An Arrow IPC stream. -/
  stream : ArrowStream D → Bytes
  readStream : Bytes → Option (ArrowStream D)
  /-- One gzip member of `Vec<CopyFrame>`. -/
  copyFrames : List R → Bytes
  /-- `decode_copy_part` -/
  readCopy : PartCodec → Bytes → Option (List R)
  sha256 : Bytes → Bytes
  readOffsets_offsets : ∀ o, readOffsets (offsets o) = some o
  readKey_key : ∀ k, readKey (key k) = some k
  readStream_stream : ∀ s, readStream (stream s) = some s
  readCopy_copyFrames : ∀ rs, readCopy .copyChunked (copyFrames rs) = some rs
  length_sha256 : ∀ bytes, (sha256 bytes).length = 32

inductive WalPayload (D : Type)
  | arrow (stream : ArrowStream D)
  | copy (part : CopyPart)
deriving DecidableEq

namespace WalPayload
variable {O D R : Type}

/-- mirrors segment_file.rs:85-90 -/
def isEmpty : WalPayload D → Bool
  | arrow s => s.batches.isEmpty
  | copy part => part.rows == 0

/-- mirrors segment_file.rs:109-114 -/
def codec : WalPayload D → PartCodec
  | arrow _ => .arrow
  | copy _ => .copyChunked

def data (c : Codecs O D R) : WalPayload D → Bytes
  | arrow s => c.stream s
  | copy part => part.chunks.flatten

end WalPayload

/-! ## Metadata -/

/-- mirrors segment_file.rs:184-199 -/
structure IndexEntry where
  key : PartitionKey
  bytes : UInt64
  updatedAtSecs : UInt64
  sliceOrdinal : Nat
  partMetaStart : Nat
  partMetaLen : Nat
  partMetaSummary : PartMetaSummary
  codec : PartCodec
  start : Nat
  len : Nat
deriving DecidableEq, Repr

/-- mirrors segment_file.rs:202-210 -/
structure SegmentFileMetadata (O : Type) where
  createdAtSecs : UInt64
  totalBytes : Nat
  numPartitions : Nat
  offsets : O
  index : List IndexEntry
  bodySha256 : Bytes
deriving DecidableEq

inductive Blob
  /-- "WAL offsets blob" -/
  | offsets
  /-- "WAL partition key" -/
  | key
  /-- "WAL PART metadata" -/
  | partMeta
deriving DecidableEq, Repr

inductive SegmentError
  /-- `read_exact` past the end -/
  | unexpectedEof
  /-- "Compactor: bad segment magic" -/
  | badMagic
  /-- "Compactor: read refused version={version}" -/
  | refusedVersion (version : Nat)
  /-- "{what} length {claimed} exceeds remaining {remaining}" -/
  | lengthExceeds (what : Blob) (claimed remaining : Nat)
  /-- "invalid WAL offsets metadata: .." -/
  | invalidOffsets
  /-- "WAL segment missing FOOT" -/
  | missingFoot
  /-- "WAL segment expected PART or FOOT" -/
  | expectedPartOrFoot
  /-- "invalid WAL partition key: .." -/
  | invalidKey
  /-- "invalid WAL PART metadata: .." -/
  | invalidPartMeta
  /-- "WAL PART metadata length mismatch" -/
  | partMetaMismatch
  /-- "unknown WAL PART codec {codec}" -/
  | unknownCodec (codec : UInt8)
  /-- "WAL PART payload range overflow" -/
  | payloadOverflow
  /-- "Compactor: partition length beyond segment end .." -/
  | payloadBeyondEnd (start len fileLen : Nat)
  /-- "WAL segment contains too many partitions" -/
  | tooManyPartitions
  /-- "WAL segment has trailing bytes after FOOT" -/
  | trailingBytes
  /-- "FOOT parts_count {footer} does not match index {index}" -/
  | footCount (footer index : Nat)
  /-- "segment too short for FOOT" -/
  | tooShort
  /-- "missing FOOT" -/
  | noFoot
  /-- "FOOT sha256 does not match body" -/
  | footDigest
deriving DecidableEq, Repr

variable {O D R : Type}

/-- mirrors segment_file.rs:401-424 -/
def summarizePartMeta (c : Codecs O D R) (blob : Bytes) : Option PartMetaSummary :=
  if blob = [] then some .append else c.parsePartMeta blob

/-! ## Writing -/

def le32 (n : Nat) : Bytes := (List.range 4).map fun i => UInt8.ofNat (n / 256 ^ i)

def magic : Bytes := [0x53, 0x45, 0x47, 0x46]

def partTag : Bytes := [0x50, 0x41, 0x52, 0x54]

def footTag : Bytes := [0x46, 0x4f, 0x4f, 0x54]

def version : Nat := 4

/-- `saturating_add` of `w`-bit numbers -/
def satAdd (w a b : Nat) : Nat := min (a + b) (2 ^ w - 1)

def framed (blob : Bytes) : Bytes := le64 blob.length ++ blob

structure EncodedSnapshot (O : Type) where
  bytes : Bytes
  metadata : SegmentFileMetadata O
  sha256 : Bytes

structure Written where
  file : Bytes
  index : List IndexEntry
  totalBytes : Nat
  partsCount : Nat

/-- The arguments of `encode_snapshot`; times are seconds of the epoch. -/
structure SnapshotMaps (O D : Type) where
  offsets : O
  batches : Map PartitionKey (WalPayload D)
  partitionsMeta : Map PartitionKey (UInt64 × UInt64)
  partMetaBlobs : Map PartitionKey Bytes
  createdAt : UInt64

/-- mirrors segment_file.rs:692-707 -/
def header (c : Codecs O D R) (offsets : O) (createdAt : UInt64) : Bytes :=
  magic ++ (le32 version ++ (le64 createdAt.toNat ++ framed (c.offsets offsets)))

/-- mirrors segment_file.rs:716-797 -/
def writePart (c : Codecs O D R) (maps : SnapshotMaps O D) (w : Written) (key : PartitionKey) :
    Except SegmentError Written :=
  match maps.batches.get key with
  | none => .ok w
  | some payload =>
    if payload.isEmpty then .ok w
    else
      let partsCount := satAdd 32 w.partsCount 1
      let (bytes, updated) := (maps.partitionsMeta.get key).getD (0, maps.createdAt)
      let metaBlob := (maps.partMetaBlobs.get key).getD []
      match summarizePartMeta c metaBlob with
      | none => .error .invalidPartMeta
      | some summary =>
        let file := w.file ++ partTag ++ framed (c.key key) ++ le64 bytes.toNat ++ le64 updated.toNat ++
          le64 metaBlob.length
        let partMetaStart := file.length
        let file := file ++ metaBlob ++ [payload.codec.toByte]
        let start := file.length + 8
        let data := payload.data c
        .ok {
          file := file ++ framed data
          index := w.index ++ [{
            key := key
            bytes := bytes
            updatedAtSecs := updated
            sliceOrdinal := partsCount - 1
            partMetaStart := partMetaStart
            partMetaLen := metaBlob.length
            partMetaSummary := summary
            codec := payload.codec
            start := start
            len := data.length }]
          totalBytes := satAdd 64 w.totalBytes data.length
          partsCount := partsCount }

def sortedKeys (maps : SnapshotMaps O D) : List PartitionKey :=
  maps.batches.keys.insertionSort (· ≤ ·)

/-- mirrors segment_file.rs:680-824 -/
def encodeSnapshot (c : Codecs O D R) (maps : SnapshotMaps O D) :
    Except SegmentError (EncodedSnapshot O) := do
  let w ← (sortedKeys maps).foldlM (writePart c maps)
    ⟨header c maps.offsets maps.createdAt, [], 0, 0⟩
  let sha := c.sha256 w.file
  return {
    bytes := w.file ++ footTag ++ le32 w.partsCount ++ sha
    metadata := ⟨maps.createdAt, w.totalBytes, w.partsCount, maps.offsets, w.index, sha⟩
    sha256 := sha }

/-! ## Reading -/

section Read
variable (c : Codecs O D R) (bytes : Bytes)

def readU64 : Cursor SegmentError Nat := do
  return ofLe64 (← readExact bytes .unexpectedEof 8)

def readU32 : Cursor SegmentError Nat := do
  return ofLe64 (← readExact bytes .unexpectedEof 4)

/-- mirrors segment_file.rs:235-275 -/
def readBlobCapped (what : Blob) : Cursor SegmentError Bytes := do
  let claimed ← readU64 bytes
  let pos ← position
  require (claimed ≤ bytes.length - pos) (.lengthExceeds what claimed (bytes.length - pos))
  readExact bytes .unexpectedEof claimed

/-- mirrors segment_file.rs:291-303 -/
def skipPayload (dataLen : Nat) : Cursor SegmentError Unit := do
  let start ← position
  require (start + dataLen < 2 ^ 64) .payloadOverflow
  require (start + dataLen ≤ bytes.length) (.payloadBeyondEnd start dataLen bytes.length)
  seek (start + dataLen)

/-- mirrors segment_file.rs:308-312 -/
def readPartCodec (fileVersion : Nat) : Cursor SegmentError PartCodec :=
  if version ≤ fileVersion then do
    let codec ← readExact bytes .unexpectedEof 1
    orFail (PartCodec.ofByte (codec.headD 0)) (.unknownCodec (codec.headD 0))
  else pure .arrow

/-- mirrors segment_file.rs:547-557 -/
def readSummary (metaLen : Nat) : Cursor SegmentError PartMetaSummary :=
  if metaLen = 0 then pure .append
  else do
    let blob ← readExact bytes .unexpectedEof metaLen
    orFail (summarizePartMeta c blob) .invalidPartMeta

/-- What follows a PART tag.
mirrors segment_file.rs:529-590 -/
def readPart (fileVersion ordinal : Nat) : Cursor SegmentError IndexEntry := do
  let keyBlob ← readBlobCapped bytes .key
  let key ← orFail (c.readKey keyBlob) .invalidKey
  let partBytes ← readU64 bytes
  let updated ← readU64 bytes
  let metaLen ← readU64 bytes
  let partMetaStart ← position
  require (metaLen ≤ bytes.length - partMetaStart)
    (.lengthExceeds .partMeta metaLen (bytes.length - partMetaStart))
  let summary ← readSummary c bytes metaLen
  let pos ← position
  require (metaLen = 0 ∨ pos = partMetaStart + metaLen) .partMetaMismatch
  let codec ← readPartCodec bytes fileVersion
  let dataLen ← readU64 bytes
  let start ← position
  skipPayload bytes dataLen
  require (ordinal < 2 ^ 32) .tooManyPartitions
  return {
    key := key
    bytes := UInt64.ofNat partBytes
    updatedAtSecs := UInt64.ofNat updated
    sliceOrdinal := ordinal
    partMetaStart := partMetaStart
    partMetaLen := metaLen
    partMetaSummary := summary
    codec := codec
    start := start
    len := dataLen }

/-- The loop over the PARTs, up to the tag of the FOOT. Every round reads a tag,
so a file has less rounds than bytes.
mirrors segment_file.rs:514-591 -/
def readParts (fileVersion : Nat) : Nat → List IndexEntry → Nat →
    Cursor SegmentError (List IndexEntry × Nat)
  | 0, _, _ => fun _ => .error .missingFoot
  | rounds + 1, index, totalBytes => do
    let tag ← readExact bytes .missingFoot 4
    if tag = footTag then return (index, totalBytes)
    else
      require (tag = partTag) .expectedPartOrFoot
      let entry ← readPart c bytes fileVersion index.length
      readParts fileVersion rounds (index ++ [entry]) (satAdd 64 totalBytes entry.len)

/-- mirrors segment_file.rs:488-618 -/
def readMetadataFromReader : Cursor SegmentError (SegmentFileMetadata O) := do
  let tag ← readExact bytes .unexpectedEof 4
  require (tag = magic) .badMagic
  let fileVersion ← readU32 bytes
  require (fileVersion = 3 ∨ fileVersion = version) (.refusedVersion fileVersion)
  let created ← readU64 bytes
  let offsetsBlob ← readBlobCapped bytes .offsets
  let offsets ← orFail (c.readOffsets offsetsBlob) .invalidOffsets
  let (index, totalBytes) ← readParts c bytes fileVersion bytes.length [] 0
  let footerParts ← readU32 bytes
  let bodySha256 ← readExact bytes .unexpectedEof 32
  let pos ← position
  require (pos = bytes.length) .trailingBytes
  require (index.length < 2 ^ 32) .tooManyPartitions
  require (footerParts = index.length) (.footCount footerParts index.length)
  return ⟨UInt64.ofNat created, totalBytes, index.length, offsets, index, bodySha256⟩

/-- mirrors segment_file.rs:479-484 -/
def readMetadataFromBytes : Except SegmentError (SegmentFileMetadata O) :=
  (readMetadataFromReader c bytes 0).map Prod.fst

def footerLen : Nat := 4 + 4 + 32

/-- mirrors segment_file.rs:429-445 -/
def verifyBodyChecksum : Except SegmentError Bytes :=
  if bytes.length < footerLen then .error .tooShort
  else
    let body := bytes.take (bytes.length - footerLen)
    let footer := bytes.drop (bytes.length - footerLen)
    if footer.take 4 ≠ footTag then .error .noFoot
    else if c.sha256 body ≠ slice footer 8 32 then .error .footDigest
    else .ok (slice footer 8 32)

end Read

/-! ## Snapshots -/

structure Part (D : Type) where
  key : PartitionKey
  bytes : UInt64
  updatedAt : UInt64
  metaBlob : Bytes
  payload : WalPayload D
deriving DecidableEq

namespace Part

def encode (c : Codecs O D R) (p : Part D) : Bytes :=
  partTag ++ (framed (c.key p.key) ++ (le64 p.bytes.toNat ++ (le64 p.updatedAt.toNat ++
    (le64 p.metaBlob.length ++ (p.metaBlob ++ ([p.payload.codec.toByte] ++
      framed (p.payload.data c)))))))

def metaOffset (c : Codecs O D R) (p : Part D) : Nat := 4 + (8 + (c.key p.key).length) + 8 + 8 + 8

def dataOffset (c : Codecs O D R) (p : Part D) : Nat := p.metaOffset c + p.metaBlob.length + 1 + 8

def summary (c : Codecs O D R) (p : Part D) : PartMetaSummary :=
  (summarizePartMeta c p.metaBlob).getD .append

def entry (c : Codecs O D R) (p : Part D) (pos ordinal : Nat) : IndexEntry where
  key := p.key
  bytes := p.bytes
  updatedAtSecs := p.updatedAt
  sliceOrdinal := ordinal
  partMetaStart := pos + p.metaOffset c
  partMetaLen := p.metaBlob.length
  partMetaSummary := p.summary c
  codec := p.payload.codec
  start := pos + p.dataOffset c
  len := (p.payload.data c).length

end Part

def layout (c : Codecs O D R) : Nat → Nat → List (Part D) → List IndexEntry
  | _, _, [] => []
  | pos, ordinal, p :: ps =>
    p.entry c pos ordinal :: layout c (pos + (p.encode c).length) (ordinal + 1) ps

theorem length_layout (c : Codecs O D R) : ∀ (parts : List (Part D)) (pos ordinal : Nat),
    (layout c pos ordinal parts).length = parts.length
  | [], _, _ => rfl
  | _ :: parts, _, _ => congrArg (· + 1) (length_layout c parts _ _)

def dataBytes (c : Codecs O D R) (parts : List (Part D)) : Nat :=
  (parts.map fun p => (p.payload.data c).length).sum

/-- A segment as it is written: parts in key order, none empty, every sidecar
one that the writer accepts. -/
structure Snapshot (c : Codecs O D R) where
  offsets : O
  createdAt : UInt64
  parts : List (Part D)
  sorted : (parts.map (·.key)).Pairwise (· < ·)
  nonempty : ∀ p ∈ parts, p.payload.isEmpty = false
  summarized : ∀ p ∈ parts, (summarizePartMeta c p.metaBlob).isSome

namespace Snapshot
variable {c : Codecs O D R}

def body (s : Snapshot c) : Bytes := header c s.offsets s.createdAt ++ s.parts.flatMap (Part.encode c)

def footer (s : Snapshot c) : Bytes := footTag ++ (le32 s.parts.length ++ c.sha256 s.body)

def bytes (s : Snapshot c) : Bytes := s.body ++ s.footer

def index (s : Snapshot c) : List IndexEntry :=
  layout c (header c s.offsets s.createdAt).length 0 s.parts

def metadata (s : Snapshot c) : SegmentFileMetadata O :=
  ⟨s.createdAt, dataBytes c s.parts, s.parts.length, s.offsets, s.index, c.sha256 s.body⟩

structure Fits (s : Snapshot c) : Prop where
  bytes : s.bytes.length < 2 ^ 64
  parts : s.parts.length < 2 ^ 32

end Snapshot

/-! ## Lengths -/

theorem length_le64 (n : Nat) : (le64 n).length = 8 := L2.length_le64 n

@[simp] theorem length_le32 (n : Nat) : (le32 n).length = 4 := by simp [le32]

theorem ofLe64_le32 {n : Nat} (h : n < 2 ^ 32) : ofLe64 (le32 n) = n := by
  simp only [le32, ofLe64, List.range, List.range.loop, List.map_cons, List.map_nil,
    List.foldr_cons, List.foldr_nil, UInt8.toNat_ofNat']
  omega

@[simp] theorem length_framed (blob : Bytes) : (framed blob).length = 8 + blob.length := by
  simp [framed, length_le64]

theorem Part.length_encode (c : Codecs O D R) (p : Part D) :
    (p.encode c).length = p.dataOffset c + (p.payload.data c).length := by
  simp only [Part.encode, Part.dataOffset, Part.metaOffset, List.length_append, length_framed,
    length_le64, partTag, List.length_cons, List.length_nil]
  omega

theorem dataBytes_le (c : Codecs O D R) : ∀ parts : List (Part D),
    dataBytes c parts ≤ (parts.flatMap (Part.encode c)).length
  | [] => Nat.le_refl 0
  | p :: parts => by
    have hrest := dataBytes_le c parts
    have hp := p.length_encode c
    simp only [dataBytes, List.map_cons, List.sum_cons, List.flatMap_cons, List.length_append] at hrest ⊢
    omega

theorem length_le_flatMap (c : Codecs O D R) : ∀ parts : List (Part D),
    parts.length ≤ (parts.flatMap (Part.encode c)).length
  | [] => Nat.le_refl 0
  | p :: parts => by
    have hrest := length_le_flatMap c parts
    have hp := p.length_encode c
    simp only [Part.dataOffset] at hp
    simp only [List.length_cons, List.flatMap_cons, List.length_append]
    omega

variable {c : Codecs O D R}

theorem Snapshot.length_bytes (s : Snapshot c) :
    s.bytes.length = (header c s.offsets s.createdAt).length +
      (s.parts.flatMap (Part.encode c)).length + 40 := by
  simp only [Snapshot.bytes, Snapshot.body, Snapshot.footer, List.length_append, length_le32,
    c.length_sha256, footTag, List.length_cons, List.length_nil]

/-! ## What is written -/

/-- The part the maps hold under a key; an empty payload is passed over.
mirrors segment_file.rs:716-741 -/
def SnapshotMaps.part? (maps : SnapshotMaps O D) (key : PartitionKey) : Option (Part D) :=
  match maps.batches.get key with
  | none => none
  | some payload =>
    if payload.isEmpty then none
    else
      let (bytes, updated) := (maps.partitionsMeta.get key).getD (0, maps.createdAt)
      some ⟨key, bytes, updated, (maps.partMetaBlobs.get key).getD [], payload⟩

def SnapshotMaps.parts (maps : SnapshotMaps O D) : List (Part D) :=
  (sortedKeys maps).filterMap maps.part?

section Write
variable {c : Codecs O D R} {maps : SnapshotMaps O D}

theorem satAdd_eq {w a b : Nat} (h : a + b < 2 ^ w) : satAdd w a b = a + b := by
  unfold satAdd
  omega

variable {key : PartitionKey} {p : Part D}

theorem part?_eq_some : maps.part? key = some p ↔
    p.key = key ∧ maps.batches.get key = some p.payload ∧ p.payload.isEmpty = false ∧
      (maps.partitionsMeta.get key).getD (0, maps.createdAt) = (p.bytes, p.updatedAt) ∧
      (maps.partMetaBlobs.get key).getD [] = p.metaBlob := by
  unfold SnapshotMaps.part?
  constructor
  · intro h
    split at h
    · cases h
    · rename_i payload hpayload
      split at h
      · cases h
      · rename_i hne
        cases h
        exact ⟨rfl, hpayload, by simpa using hne, rfl, rfl⟩
  · intro h
    obtain ⟨rfl, hpayload, hne, hbytes, hblob⟩ := h
    rw [hpayload]
    dsimp only
    rw [if_neg (by simp [hne]), hbytes, hblob]

theorem SnapshotMaps.mem_parts (h : p ∈ maps.parts) : maps.part? p.key = some p := by
  obtain ⟨key, -, hkey⟩ := List.mem_filterMap.1 h
  rw [(part?_eq_some.1 hkey).1, hkey]

theorem SnapshotMaps.parts_eq {parts : List (Part D)} (hkeys : sortedKeys maps = parts.map (·.key))
    (hall : ∀ p ∈ parts, maps.part? p.key = some p) : maps.parts = parts := by
  have hsome : parts.filterMap (maps.part? ∘ (·.key)) = parts.filterMap some :=
    List.filterMap_congr hall
  rw [SnapshotMaps.parts, hkeys, List.filterMap_map, hsome, List.filterMap_some]

theorem writePart_of_none (h : maps.part? key = none) (w : Written) :
    writePart c maps w key = .ok w := by
  unfold SnapshotMaps.part? at h
  unfold writePart
  cases hget : maps.batches.get key with
  | none => rfl
  | some payload =>
    rw [hget] at h
    dsimp only at h ⊢
    split at h
    · rename_i hempty
      rw [if_pos hempty]
    · cases h

theorem writePart_of_some (h : maps.part? key = some p)
    (hsum : (summarizePartMeta c p.metaBlob).isSome) (w : Written) :
    writePart c maps w key = .ok {
      file := w.file ++ p.encode c
      index := w.index ++ [p.entry c w.file.length (satAdd 32 w.partsCount 1 - 1)]
      totalBytes := satAdd 64 w.totalBytes (p.payload.data c).length
      partsCount := satAdd 32 w.partsCount 1 } := by
  obtain ⟨rfl, hpayload, hne, hbytes, hblob⟩ := part?_eq_some.1 h
  obtain ⟨summary, hsummary⟩ := Option.isSome_iff_exists.1 hsum
  have hentry : p.summary c = summary := by rw [Part.summary, hsummary, Option.getD_some]
  simp only [writePart, hpayload, hne, hbytes, hblob, hsummary, Bool.false_eq_true, if_false,
    Except.ok.injEq, Written.mk.injEq, and_true]
  refine ⟨by simp [Part.encode], ?_⟩
  rw [List.append_cancel_left_eq, List.cons.injEq, Part.entry, IndexEntry.mk.injEq]
  simp only [hentry, Part.dataOffset, Part.metaOffset, List.length_append, length_framed,
    length_le64, partTag, List.length_cons, List.length_nil, true_and, and_true]
  omega

theorem foldlM_writePart (c : Codecs O D R) (maps : SnapshotMaps O D) :
    ∀ (keys : List PartitionKey) (w : Written),
    (∀ p ∈ keys.filterMap maps.part?, (summarizePartMeta c p.metaBlob).isSome) →
    ∃ w', keys.foldlM (writePart c maps) w = .ok w' ∧
      w'.file = w.file ++ (keys.filterMap maps.part?).flatMap (Part.encode c) ∧
      (w.partsCount + (keys.filterMap maps.part?).length < 2 ^ 32 →
        w'.index = w.index ++ layout c w.file.length w.partsCount (keys.filterMap maps.part?) ∧
        w'.partsCount = w.partsCount + (keys.filterMap maps.part?).length) ∧
      (w.totalBytes + dataBytes c (keys.filterMap maps.part?) < 2 ^ 64 →
        w'.totalBytes = w.totalBytes + dataBytes c (keys.filterMap maps.part?))
  | [], w, _ => ⟨w, rfl, by simp, by simp [layout], by simp [dataBytes]⟩
  | key :: keys, w, hall => by
    rw [List.foldlM_cons]
    cases hpart : maps.part? key with
    | none =>
      rw [writePart_of_none hpart]
      rw [List.filterMap_cons_none hpart] at hall ⊢
      exact foldlM_writePart c maps keys w hall
    | some p =>
      rw [List.filterMap_cons_some hpart] at hall ⊢
      rw [writePart_of_some hpart (hall p List.mem_cons_self)]
      obtain ⟨w', hfold, hfile, hindex, htotal⟩ := foldlM_writePart c maps keys
        ⟨w.file ++ p.encode c, w.index ++ [p.entry c w.file.length (satAdd 32 w.partsCount 1 - 1)],
          satAdd 64 w.totalBytes (p.payload.data c).length, satAdd 32 w.partsCount 1⟩
        (List.forall_mem_cons.1 hall).2
      refine ⟨w', hfold, ?_, ?_, ?_⟩
      · rw [hfile, List.flatMap_cons, List.append_assoc]
      · intro hcount
        rw [List.length_cons] at hcount ⊢
        have hsat : satAdd 32 w.partsCount 1 = w.partsCount + 1 := satAdd_eq (by omega)
        dsimp only at hindex
        rw [hsat] at hindex
        obtain ⟨hindex, hparts⟩ := hindex (by omega)
        refine ⟨?_, by omega⟩
        rw [hindex, layout, List.append_assoc, List.singleton_append, List.length_append,
          Nat.add_sub_cancel]
      · intro hdata
        simp only [dataBytes, List.map_cons, List.sum_cons] at hdata htotal ⊢
        have hsat : satAdd 64 w.totalBytes (p.payload.data c).length =
            w.totalBytes + (p.payload.data c).length := satAdd_eq (by omega)
        rw [hsat] at htotal
        rw [htotal (by omega), Nat.add_assoc]

theorem encodeSnapshot_eq {s : Snapshot c} (hfits : s.Fits) (hoffsets : maps.offsets = s.offsets)
    (hcreated : maps.createdAt = s.createdAt) (hparts : maps.parts = s.parts) :
    encodeSnapshot c maps = .ok ⟨s.bytes, s.metadata, c.sha256 s.body⟩ := by
  have hlen := hfits.bytes
  have hdata := dataBytes_le c s.parts
  rw [s.length_bytes] at hlen
  obtain ⟨w, hfold, hfile, hindex, htotal⟩ := foldlM_writePart c maps (sortedKeys maps)
    ⟨header c maps.offsets maps.createdAt, [], 0, 0⟩
    (by intro p hp; exact s.summarized p (hparts ▸ hp))
  rw [show (sortedKeys maps).filterMap maps.part? = s.parts from hparts] at hfile hindex htotal
  obtain ⟨hindex, hcount⟩ := hindex (by simpa using hfits.parts)
  rw [encodeSnapshot, hfold]
  simp [hfile, hindex, hcount, htotal (by dsimp only; omega), hoffsets, hcreated, Snapshot.bytes,
    Snapshot.footer, Snapshot.body, Snapshot.metadata, Snapshot.index, pure, Except.pure, bind,
    Except.bind]

end Write

/-! ## What is read -/

section Cursor
variable {bytes : Bytes} {pos : Nat}

theorem readU64_of_standsAt {n : Nat} (h : StandsAt bytes pos (le64 n)) (hn : n < 2 ^ 64) :
    readU64 bytes pos = .ok (n, pos + 8) := by
  rw [readU64, bind_of_ok (readExact_of_standsAt h (length_le64 n)), L2.ofLe64_le64 hn]
  rfl

theorem readU32_of_standsAt {n : Nat} (h : StandsAt bytes pos (le32 n)) (hn : n < 2 ^ 32) :
    readU32 bytes pos = .ok (n, pos + 4) := by
  rw [readU32, bind_of_ok (readExact_of_standsAt h (length_le32 n)), ofLe64_le32 hn]
  rfl

theorem readBlobCapped_of_standsAt {blob : Bytes} (what : Blob)
    (h : StandsAt bytes pos (framed blob)) (hlen : bytes.length < 2 ^ 64) :
    readBlobCapped bytes what pos = .ok (blob, pos + (8 + blob.length)) := by
  have hblob : StandsAt bytes (pos + 8) blob := by
    have := h.right
    rwa [length_le64] at this
  have hle := hblob.le
  rw [readBlobCapped, bind_of_ok (readU64_of_standsAt h.left (by omega)),
    bind_of_ok (show position (pos + 8) = .ok (pos + 8, pos + 8) from rfl),
    bind_of_ok (require_of (by omega) _), readExact_of_standsAt hblob rfl, Nat.add_assoc]

theorem skipPayload_of_standsAt {data : Bytes} (h : StandsAt bytes pos data)
    (hlen : bytes.length < 2 ^ 64) :
    skipPayload bytes data.length pos = .ok ((), pos + data.length) := by
  have hle := h.le
  rw [skipPayload, bind_of_ok (show position pos = .ok (pos, pos) from rfl),
    bind_of_ok (require_of (by omega) _), bind_of_ok (require_of (by omega) _)]
  rfl

theorem readPartCodec_of_standsAt {codec : PartCodec} (h : StandsAt bytes pos [codec.toByte]) :
    readPartCodec bytes version pos = .ok (codec, pos + 1) := by
  rw [readPartCodec, if_pos (Nat.le_refl _), bind_of_ok (readExact_of_standsAt (n := 1) h rfl)]
  exact orFail_of codec.ofByte_toByte _

variable {c : Codecs O D R}

theorem readSummary_of_standsAt {p : Part D} (h : StandsAt bytes pos p.metaBlob)
    (hsum : (summarizePartMeta c p.metaBlob).isSome) :
    readSummary c bytes p.metaBlob.length pos = .ok (p.summary c, pos + p.metaBlob.length) := by
  obtain ⟨summary, hsummary⟩ := Option.isSome_iff_exists.1 hsum
  have hp : p.summary c = summary := by rw [Part.summary, hsummary, Option.getD_some]
  unfold readSummary
  split
  · rename_i hzero
    have hnil := List.length_eq_zero_iff.1 hzero
    rw [hnil, summarizePartMeta, if_pos rfl] at hsummary
    rw [hzero, hp, ← Option.some.inj hsummary]
    rfl
  · rw [bind_of_ok (readExact_of_standsAt h rfl), hp]
    exact orFail_of hsummary _

theorem readPart_of_standsAt {p : Part D} (h : StandsAt bytes pos (p.encode c))
    (hsum : (summarizePartMeta c p.metaBlob).isSome) (hlen : bytes.length < 2 ^ 64) {ordinal : Nat}
    (hordinal : ordinal < 2 ^ 32) :
    readPart c bytes version ordinal (pos + 4) =
      .ok (p.entry c pos ordinal, pos + (p.encode c).length) := by
  -- One fact for each field: what stands behind the fields before it.
  have hkey := h.right
  have hbytes := hkey.right
  have hupdated := hbytes.right
  have hmetaLen := hupdated.right
  have hmeta := hmetaLen.right
  have hcodec := hmeta.right
  have hframe := hcodec.right
  have hdata := hframe.right
  simp only [length_framed, length_le64, List.length_cons, List.length_nil,
    show partTag.length = 4 from rfl] at hkey hbytes hupdated hmetaLen hmeta hcodec hframe hdata
  have hmetaLe := hmeta.left.le
  have hdataLe := hdata.le
  rw [readPart, bind_of_ok (readBlobCapped_of_standsAt .key hkey.left hlen),
    bind_of_ok (orFail_of (c.readKey_key _) _),
    bind_of_ok (readU64_of_standsAt hbytes.left p.bytes.toNat_lt),
    bind_of_ok (readU64_of_standsAt hupdated.left p.updatedAt.toNat_lt),
    bind_of_ok (readU64_of_standsAt hmetaLen.left (by omega)),
    bind_of_ok (show position _ = .ok (_, _) from rfl), bind_of_ok (require_of (by omega) _),
    bind_of_ok (readSummary_of_standsAt hmeta.left hsum),
    bind_of_ok (show position _ = .ok (_, _) from rfl), bind_of_ok (require_of (.inr rfl) _),
    bind_of_ok (readPartCodec_of_standsAt hcodec.left),
    bind_of_ok (readU64_of_standsAt hframe.left (by omega)),
    bind_of_ok (show position _ = .ok (_, _) from rfl),
    bind_of_ok (skipPayload_of_standsAt hdata hlen), bind_of_ok (require_of hordinal _)]
  show Except.ok (_, _) = Except.ok (_, _)
  rw [Except.ok.injEq, Prod.mk.injEq, Part.entry, IndexEntry.mk.injEq, p.length_encode]
  simp only [Part.dataOffset, Part.metaOffset, UInt64.ofNat_toNat, true_and, and_true]
  omega

theorem readParts_of_standsAt (hlen : bytes.length < 2 ^ 64) :
    ∀ (parts : List (Part D)) (pos rounds total : Nat) (index : List IndexEntry),
    StandsAt bytes pos (parts.flatMap (Part.encode c) ++ footTag) →
    (∀ p ∈ parts, (summarizePartMeta c p.metaBlob).isSome) →
    parts.length < rounds → index.length + parts.length < 2 ^ 32 →
    total + dataBytes c parts < 2 ^ 64 →
    readParts c bytes version rounds index total pos =
      .ok ((index ++ layout c pos index.length parts, total + dataBytes c parts),
        pos + (parts.flatMap (Part.encode c)).length + 4)
  | _, _, 0, _, _, _, _, hrounds, _, _ => by omega
  | [], pos, rounds + 1, total, index, h, _, _, _, _ => by
    rw [List.flatMap_nil, List.nil_append] at h
    rw [readParts, bind_of_ok (readExact_of_standsAt (n := 4) h rfl), if_pos rfl]
    simp [layout, dataBytes, pure, StateT.pure, Except.pure]
  | p :: parts, pos, rounds + 1, total, index, h, hsum, hrounds, hcount, htotal => by
    rw [List.flatMap_cons, List.append_assoc] at h
    simp only [dataBytes, List.map_cons, List.sum_cons, List.length_cons] at hcount htotal hrounds
    have htag : StandsAt bytes pos partTag := h.left.left
    have hpart : readPart c bytes version index.length (pos + 4) = _ :=
      readPart_of_standsAt h.left (hsum p List.mem_cons_self) hlen (by omega)
    have hrest := readParts_of_standsAt hlen parts (pos + (p.encode c).length) rounds
      (total + (p.payload.data c).length) (index ++ [p.entry c pos index.length]) h.right
      (List.forall_mem_cons.1 hsum).2 (by omega) (by simp; omega)
      (by simp only [dataBytes]; omega)
    rw [readParts, bind_of_ok (readExact_of_standsAt (n := 4) htag rfl), if_neg (by decide),
      bind_of_ok (require_of rfl _), bind_of_ok hpart,
      show (p.entry c pos index.length).len = (p.payload.data c).length from rfl,
      satAdd_eq (by omega), hrest]
    simp only [layout, dataBytes, List.flatMap_cons, List.map_cons, List.sum_cons, List.length_cons,
      List.length_append, List.length_nil, List.append_assoc, List.singleton_append,
      Except.ok.injEq, Prod.mk.injEq, true_and]
    omega

end Cursor

namespace Snapshot
variable {c : Codecs O D R} {s : Snapshot c}

theorem bytes_eq (s : Snapshot c) : s.bytes = header c s.offsets s.createdAt ++
    ((s.parts.flatMap (Part.encode c) ++ footTag) ++ (le32 s.parts.length ++ c.sha256 s.body)) := by
  have hbody : ∀ x, s.body ++ x =
      header c s.offsets s.createdAt ++ (s.parts.flatMap (Part.encode c) ++ x) :=
    fun x => List.append_assoc _ _ _
  rw [bytes, hbody, footer, List.append_assoc]

theorem length_header (s : Snapshot c) :
    (header c s.offsets s.createdAt).length = 4 + 4 + 8 + (8 + (c.offsets s.offsets).length) := by
  simp only [header, magic, List.length_append, List.length_cons, List.length_nil, length_le32,
    length_le64, length_framed]
  omega

theorem length_index (s : Snapshot c) : s.index.length = s.parts.length := length_layout c s.parts _ _

/-- **The scan of a written segment** finds its offsets, its creation second,
and for every part the entry the writer kept. -/
theorem readMetadataFromBytes_bytes (h : s.Fits) :
    readMetadataFromBytes c s.bytes = .ok s.metadata := by
  have hlen := h.bytes
  have hdata := dataBytes_le c s.parts
  have hcount := length_le_flatMap c s.parts
  have hbytes := s.length_bytes
  have hall := standsAt_self s.bytes
  nth_rewrite 2 [bytes_eq] at hall
  -- What stands behind each field of the header, then behind the parts.
  have hmagic := hall.left
  have hversion := hmagic.right
  have hcreated := hversion.right
  have hoffsets := hcreated.right
  have hparts := hall.right
  have hfooter := hparts.right
  have hsha := hfooter.right
  simp only [length_le32, length_le64, show magic.length = 4 from rfl, List.length_append,
    show footTag.length = 4 from rfl, length_header, Nat.zero_add] at hversion hcreated hoffsets hparts hfooter hsha
  have hloop := readParts_of_standsAt hlen s.parts _ s.bytes.length 0 [] hparts.left s.summarized
    (by omega) (by simpa using h.parts) (by omega)
  rw [List.nil_append, Nat.zero_add, List.length_nil,
    show layout c _ 0 s.parts = s.index by rw [index, length_header]] at hloop
  rw [← Nat.add_assoc] at hfooter hsha
  have hend : 4 + 4 + 8 + (8 + (c.offsets s.offsets).length) +
      (s.parts.flatMap (Part.encode c)).length + 4 + 4 + 32 = s.bytes.length := by
    rw [hbytes, length_header]
  rw [readMetadataFromBytes, readMetadataFromReader,
    bind_of_ok (readExact_of_standsAt (n := 4) hmagic.left rfl), bind_of_ok (require_of rfl _),
    bind_of_ok (readU32_of_standsAt hversion.left (by decide)), bind_of_ok (require_of (.inr rfl) _),
    bind_of_ok (readU64_of_standsAt hcreated.left s.createdAt.toNat_lt),
    bind_of_ok (readBlobCapped_of_standsAt .offsets hoffsets hlen),
    bind_of_ok (orFail_of (c.readOffsets_offsets _) _), bind_of_ok hloop]
  dsimp only
  rw [bind_of_ok (readU32_of_standsAt hfooter.left h.parts),
    bind_of_ok (readExact_of_standsAt hsha (c.length_sha256 _)),
    bind_of_ok (show position _ = .ok (_, _) from rfl), bind_of_ok (require_of hend _),
    bind_of_ok (require_of (by rw [length_index]; exact h.parts) _),
    bind_of_ok (require_of s.length_index.symm _), UInt64.ofNat_toNat, length_index]
  rfl

theorem verifyBodyChecksum_bytes (s : Snapshot c) :
    verifyBodyChecksum c s.bytes = .ok (c.sha256 s.body) := by
  have hfooter : s.footer.length = footerLen := by
    simp [footer, footTag, footerLen, c.length_sha256]
  have hcut : s.bytes.length - footerLen = s.body.length := by
    rw [bytes, List.length_append, hfooter, Nat.add_sub_cancel]
  have hbody : s.bytes.take s.body.length = s.body := List.take_left
  have hdrop : s.bytes.drop s.body.length = s.footer := List.drop_left
  have hsha : slice s.footer 8 32 = c.sha256 s.body := by
    have hstands := (standsAt_self s.footer).right.right
    have hslice := hstands.slice_eq
    rwa [c.length_sha256, length_le32] at hslice
  have htag : s.footer.take 4 = footTag := rfl
  unfold verifyBodyChecksum
  rw [if_neg (by rw [bytes, List.length_append]; omega), hcut, hbody, hdrop]
  dsimp only
  rw [hsha, htag, if_neg (fun h => h rfl), if_neg (fun h => h rfl)]

end Snapshot

structure Finds (c : Codecs O D R) (file : Bytes) (e : IndexEntry) (p : Part D) : Prop where
  key : e.key = p.key
  bytes : e.bytes = p.bytes
  updatedAt : e.updatedAtSecs = p.updatedAt
  codec : e.codec = p.payload.codec
  inside : e.start + e.len ≤ file.length
  data : slice file e.start e.len = p.payload.data c
  metaLen : e.partMetaLen = p.metaBlob.length
  metaInside : e.partMetaStart + e.partMetaLen ≤ file.length
  partMeta : slice file e.partMetaStart e.partMetaLen = p.metaBlob

theorem Part.finds {p : Part D} {file : Bytes} {pos : Nat} (ordinal : Nat)
    (h : StandsAt file pos (p.encode c)) : Finds c file (p.entry c pos ordinal) p := by
  have hmeta := h.right.right.right.right.right
  have hdata := hmeta.right.right.right
  simp only [length_framed, length_le64, List.length_cons, List.length_nil,
    show partTag.length = 4 from rfl] at hmeta hdata
  have hmetaPos : pos + 4 + (8 + (c.key p.key).length) + 8 + 8 + 8 =
      (p.entry c pos ordinal).partMetaStart := by
    simp only [Part.entry, Part.metaOffset]
    omega
  have hdataPos : (p.entry c pos ordinal).partMetaStart + p.metaBlob.length + (0 + 1) + 8 =
      (p.entry c pos ordinal).start := by
    simp only [Part.entry, Part.dataOffset]
    omega
  rw [hmetaPos] at hmeta hdata
  rw [hdataPos] at hdata
  exact ⟨rfl, rfl, rfl, rfl, hdata.le, hdata.slice_eq, rfl, hmeta.left.le, hmeta.left.slice_eq⟩

theorem layout_finds {file : Bytes} : ∀ (parts : List (Part D)) (pos ordinal : Nat),
    StandsAt file pos (parts.flatMap (Part.encode c)) →
    List.Forall₂ (Finds c file) (layout c pos ordinal parts) parts
  | [], _, _, _ => .nil
  | p :: parts, _, ordinal, h =>
    .cons (p.finds ordinal h.left) (layout_finds parts _ (ordinal + 1) h.right)

theorem Snapshot.finds (s : Snapshot c) : List.Forall₂ (Finds c s.bytes) s.index s.parts := by
  have hall := (standsAt_self s.bytes)
  nth_rewrite 2 [bytes_eq] at hall
  have hparts := hall.right.left.left
  rw [Nat.zero_add] at hparts
  exact layout_finds s.parts _ 0 hparts

/-! ## Codecs to run with -/

namespace Plain
open Coding

def text : Coding Text := list char

def int : Coding Int :=
  (pair nat nat).comap (fun i => (i.toNat, (-i).toNat)) (fun x => some ((x.1 : Int) - x.2)) fun i => by
    simp only [Option.some.injEq]
    omega

def field : Coding Field :=
  (pair text (pair (option text) (option text))).comap
    (fun f => (f.name, f.parquetFieldId, f.icebergFieldId)) (fun x => some ⟨x.1, x.2.1, x.2.2⟩) fun _ => rfl

def partitionKey : Coding PartitionKey :=
  (pair text (pair text (pair text (pair (option int) text)))).comap
    (fun k => (k.sinkRef, k.ns, k.partition, k.time, k.schemaFingerprint))
    (fun x => some ⟨x.1, x.2.1, x.2.2.1, x.2.2.2.1, x.2.2.2.2⟩) fun _ => rfl

def arrowStream : Coding (ArrowStream Nat) :=
  (pair (list field) (list (list nat))).comap (fun s => (s.schema, s.batches))
    (fun x => if h : ∀ b ∈ x.2, b.length = x.1.length then some ⟨x.1, x.2, h⟩ else none)
    fun s => dif_pos s.fits

def checksum (bytes : Bytes) : Bytes :=
  L2.le64 (bytes.foldl (fun h b => (31 * h + b.toNat) % 2 ^ 64) 7) ++ List.replicate 24 0

def plainCodecs : Codecs Nat Nat Nat where
  offsets := nat.enc
  readOffsets := nat.read
  key := partitionKey.enc
  readKey := partitionKey.read
  parsePartMeta _ := some .append
  stream := arrowStream.enc
  readStream := arrowStream.read
  copyFrames := (list nat).enc
  readCopy _ := (list nat).read
  sha256 := checksum
  readOffsets_offsets := nat.read_enc
  readKey_key := partitionKey.read_enc
  readStream_stream := arrowStream.read_enc
  readCopy_copyFrames := (list nat).read_enc
  length_sha256 bytes := by simp [checksum, L2.length_le64]

end Plain

end Skippr.L3
