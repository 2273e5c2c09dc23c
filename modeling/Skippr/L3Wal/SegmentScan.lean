import Skippr.L3Wal.SegmentRoundTrip

/-!
# The scan of a segment file that may hold anything

`read_metadata_from_reader` (src/buffer/segment_file.rs:488-618) believes no
length it reads: a blob is capped by what remains, a payload must end inside the
file, and the FOOT must end where the file ends. So what it accepts is laid out
one range behind the other in front of the FOOT, whatever wrote the bytes, and
the loop over the PARTs ends because each round reads its tag.
-/
namespace Skippr.L3

open Skippr.L2 (Bytes)

variable {O D R : Type} {c : Codecs O D R} {bytes : Bytes} {fileVersion : Nat}

/-! ## One part -/

theorem advances_readU64 : Advances bytes 8 (readU64 bytes) :=
  (Advances.readExact _).bind fun _ => .pure _

theorem advances_readU32 : Advances bytes 4 (readU32 bytes) :=
  (Advances.readExact _).bind fun _ => .pure _

theorem advances_readBlobCapped (what : Blob) : Advances bytes 8 (readBlobCapped bytes what) :=
  advances_readU64.bind fun _ => Advances.position.bind fun _ => Advances.require.bind fun _ =>
    (Advances.readExact _).mono (Nat.zero_le _)

theorem advances_readSummary (metaLen : Nat) : Advances bytes metaLen (readSummary c bytes metaLen) := by
  unfold readSummary
  split
  · rename_i hzero
    rw [hzero]
    exact .pure _
  · exact (Advances.readExact _).bind fun _ => .orFail

theorem advances_readPartCodec : Advances bytes 0 (readPartCodec bytes fileVersion) := by
  unfold readPartCodec
  split
  · exact ((Advances.readExact _).bind fun _ => .orFail).mono (Nat.zero_le _)
  · exact .pure _

theorem skipPayload_ok {dataLen pos pos' : Nat} (h : skipPayload bytes dataLen pos = .ok ((), pos')) :
    pos' = pos + dataLen ∧ pos + dataLen ≤ bytes.length := by
  obtain ⟨start, _, hstart, h⟩ := bind_eq_ok_at h
  cases hstart
  obtain ⟨_, mid, hfits, h⟩ := bind_eq_ok_at h
  obtain ⟨_, last, hinside, h⟩ := bind_eq_ok_at h
  cases h
  exact ⟨rfl, of_require hinside⟩

def IndexEntry.ranges (e : IndexEntry) : List (Nat × Nat) :=
  [(e.partMetaStart, e.partMetaLen), (e.start, e.len)]

theorem readPart_ok {ordinal pos pos' : Nat} {e : IndexEntry} (hpos : pos ≤ bytes.length)
    (h : readPart c bytes fileVersion ordinal pos = .ok (e, pos')) :
    e.sliceOrdinal = ordinal ∧ pos ≤ e.partMetaStart ∧
      e.partMetaStart + e.partMetaLen ≤ e.start ∧ e.start + e.len = pos' ∧
      pos' ≤ bytes.length := by
  rw [readPart] at h
  obtain ⟨_, p₁, hkey, h⟩ := bind_eq_ok_at h
  obtain ⟨_, p₂, hparsed, h⟩ := bind_eq_ok_at h
  obtain ⟨_, p₃, hbytes, h⟩ := bind_eq_ok_at h
  obtain ⟨_, p₄, hupdated, h⟩ := bind_eq_ok_at h
  obtain ⟨metaLen, p₅, hlen, h⟩ := bind_eq_ok_at h
  obtain ⟨metaStart, _, hstart, h⟩ := bind_eq_ok_at h
  cases hstart
  obtain ⟨_, p₆, hcap, h⟩ := bind_eq_ok_at h
  obtain ⟨_, p₇, hsummary, h⟩ := bind_eq_ok_at h
  obtain ⟨_, _, hhere, h⟩ := bind_eq_ok_at h
  cases hhere
  obtain ⟨_, p₈, hmatch, h⟩ := bind_eq_ok_at h
  obtain ⟨_, p₉, hcodec, h⟩ := bind_eq_ok_at h
  obtain ⟨dataLen, p₁₀, hdata, h⟩ := bind_eq_ok_at h
  obtain ⟨start, _, hstart, h⟩ := bind_eq_ok_at h
  cases hstart
  obtain ⟨_, p₁₁, hskip, h⟩ := bind_eq_ok_at h
  obtain ⟨_, p₁₂, hordinal, h⟩ := bind_eq_ok_at h
  cases h
  -- Each reader stays inside, so the positions only grow.
  have h₁ := advances_readBlobCapped _ _ _ _ hpos hkey
  have h₂ := Advances.orFail _ _ _ h₁.2 hparsed
  have h₃ := advances_readU64 _ _ _ h₂.2 hbytes
  have h₄ := advances_readU64 _ _ _ h₃.2 hupdated
  have h₅ := advances_readU64 _ _ _ h₄.2 hlen
  have h₆ := Advances.require _ _ _ h₅.2 hcap
  have h₇ := advances_readSummary _ _ _ _ h₆.2 hsummary
  have h₈ := Advances.require _ _ _ h₇.2 hmatch
  have h₉ := advances_readPartCodec _ _ _ h₈.2 hcodec
  have h₁₀ := advances_readU64 _ _ _ h₉.2 hdata
  have h₁₁ := skipPayload_ok hskip
  obtain ⟨-, rfl⟩ := require_ok hordinal
  refine ⟨rfl, ?_, ?_, h₁₁.1.symm, h₁₁.1 ▸ h₁₁.2⟩
  · show pos ≤ p₅
    omega
  · show p₅ + metaLen ≤ p₁₀
    omega

theorem advances_readPart {ordinal : Nat} : Advances bytes 0 (readPart c bytes fileVersion ordinal) := by
  intro pos e pos' hpos h
  obtain ⟨-, hmeta, hpayload, hend, hlen⟩ := readPart_ok hpos h
  omega

/-! ## The loop -/

/-- One round: the FOOT ends the loop, a PART is added to the index.
mirrors segment_file.rs:514-591 -/
def readRound (c : Codecs O D R) (bytes : Bytes) (fileVersion : Nat) (s : List IndexEntry × Nat) :
    Cursor SegmentError ((List IndexEntry × Nat) ⊕ (List IndexEntry × Nat)) := do
  let tag ← readExact bytes .missingFoot 4
  if tag = footTag then return .inr s
  else
    require (tag = partTag) .expectedPartOrFoot
    let entry ← readPart c bytes fileVersion s.1.length
    return .inl (s.1 ++ [entry], satAdd 64 s.2 entry.len)

theorem readParts_eq (n : Nat) (s : List IndexEntry × Nat) :
    readParts c bytes fileVersion n s.1 s.2 =
      rounds .missingFoot (readRound c bytes fileVersion) n s := by
  induction n generalizing s with
  | zero => rfl
  | succ n ih =>
    rw [readParts, rounds, readRound, bind_assoc]
    congr 1
    funext tag
    split
    · rw [pure_bind]
      rfl
    · simp only [bind_assoc, pure_bind, Sum.elim_inl, ← ih]

theorem advances_readRound (s : List IndexEntry × Nat) :
    Advances bytes 4 (readRound c bytes fileVersion s) := by
  unfold readRound
  apply Advances.bind (n := 0)
  · exact .readExact _
  · intro tag
    split
    · exact .pure _
    · exact Advances.require.bind fun _ => advances_readPart.bind fun _ => .pure _

theorem readRound_ok {s : List IndexEntry × Nat} {pos pos' : Nat}
    {x : (List IndexEntry × Nat) ⊕ (List IndexEntry × Nat)}
    (h : readRound c bytes fileVersion s pos = .ok (x, pos')) :
    (x = .inr s ∧ slice bytes pos 4 = footTag ∧ pos' = pos + 4) ∨
      ∃ e, x = .inl (s.1 ++ [e], satAdd 64 s.2 e.len) ∧ e.sliceOrdinal = s.1.length ∧
        pos ≤ e.partMetaStart ∧ e.partMetaStart + e.partMetaLen ≤ e.start ∧
        e.start + e.len = pos' ∧ pos' ≤ bytes.length := by
  obtain ⟨tag, p₁, htag, h⟩ := bind_eq_ok_at h
  obtain ⟨rfl, rfl, hlen⟩ := readExact_ok htag
  split at h
  · rename_i hfoot
    cases h
    exact .inl ⟨rfl, hfoot, rfl⟩
  · obtain ⟨_, p₂, hpart, h⟩ := bind_eq_ok_at h
    obtain ⟨-, rfl⟩ := require_ok hpart
    obtain ⟨e, p₃, he, h⟩ := bind_eq_ok_at h
    obtain ⟨hordinal, hmeta, hpayload, hend, hinside⟩ := readPart_ok hlen he
    cases h
    exact .inr ⟨e, rfl, hordinal, by omega, hpayload, hend, hinside⟩

/-! ## What has been scanned -/

def ranges (index : List IndexEntry) : List (Nat × Nat) := index.flatMap (·.ranges)

/-- The entries found up to a position: numbered from zero, each range behind
the one before. -/
structure Placed (index : List IndexEntry) (pos : Nat) : Prop where
  ordinals : index.map (·.sliceOrdinal) = List.range index.length
  behind : ∀ r ∈ ranges index, r.1 + r.2 ≤ pos
  ordered : (ranges index).Pairwise fun a b => a.1 + a.2 ≤ b.1

namespace Placed

theorem nil (pos : Nat) : Placed [] pos :=
  ⟨rfl, by simp [ranges], by simp [ranges]⟩

theorem concat {index : List IndexEntry} {pos pos' : Nat} {e : IndexEntry} (h : Placed index pos)
    (hordinal : e.sliceOrdinal = index.length) (hmeta : pos ≤ e.partMetaStart)
    (hpayload : e.partMetaStart + e.partMetaLen ≤ e.start) (hend : e.start + e.len = pos') :
    Placed (index ++ [e]) pos' := by
  have hranges : ranges (index ++ [e]) = ranges index ++ e.ranges := by
    rw [ranges, List.flatMap_append, List.flatMap_singleton]
    rfl
  constructor
  · rw [List.map_append, h.ordinals, List.length_append, List.length_singleton, List.range_succ]
    simp only [List.map_cons, List.map_nil, hordinal]
  · intro r hr
    rw [hranges] at hr
    cases List.mem_append.1 hr with
    | inl hold =>
      have := h.behind r hold
      omega
    | inr hnew =>
      simp only [IndexEntry.ranges, List.mem_cons, List.not_mem_nil, or_false] at hnew
      obtain rfl | rfl := hnew
      · dsimp only
        omega
      · exact Nat.le_of_eq hend
  · rw [hranges]
    refine List.pairwise_append.2 ⟨h.ordered, ?_, fun a ha b hb => ?_⟩
    · simp only [IndexEntry.ranges, List.pairwise_cons, List.mem_singleton, forall_eq,
        List.not_mem_nil, false_implies, implies_true, List.Pairwise.nil, and_true]
      exact hpayload
    · have hold := h.behind a ha
      simp only [IndexEntry.ranges, List.mem_cons, List.not_mem_nil, or_false] at hb
      obtain rfl | rfl := hb
      · dsimp only
        omega
      · dsimp only
        omega

theorem disjoint {index : List IndexEntry} {pos : Nat} (h : Placed index pos) :
    (ranges index).Pairwise fun a b =>
      Disjoint (Set.Ico a.1 (a.1 + a.2)) (Set.Ico b.1 (b.1 + b.2)) := by
  refine h.ordered.imp fun {a b} hab => ?_
  rw [Set.disjoint_left]
  intro i ha hb
  have hlt := ha.2
  have hge := hb.1
  omega

end Placed

theorem readParts_ok (n : Nat) : ∀ {index index' : List IndexEntry} {total total' pos pos' : Nat},
    Placed index pos → pos ≤ bytes.length →
    readParts c bytes fileVersion n index total pos = .ok ((index', total'), pos') →
    ∃ foot, Placed index' foot ∧ pos ≤ foot ∧ slice bytes foot 4 = footTag ∧ pos' = foot + 4 := by
  induction n with
  | zero =>
    intro index index' total total' pos pos' _ _ h
    cases h
  | succ n ih =>
    intro index index' total total' pos pos' hplaced hpos h
    rw [readParts_eq (n + 1) (index, total), rounds] at h
    obtain ⟨x, mid, hround, h⟩ := bind_eq_ok_at h
    obtain ⟨rfl, hfoot, rfl⟩ | ⟨e, rfl, hordinal, hmeta, hpayload, hend, hinside⟩ :=
      readRound_ok hround
    · cases h
      exact ⟨pos, hplaced, Nat.le_refl _, hfoot, rfl⟩
    · rw [Sum.elim_inl, ← readParts_eq] at h
      obtain ⟨foot, hrest, hle, htag, hpos'⟩ :=
        ih (hplaced.concat hordinal hmeta hpayload hend) hinside h
      exact ⟨foot, hrest, by omega, htag, hpos'⟩

/-! ## The whole file -/

/-- The metadata is that of a file of this layout: the parts in front of a FOOT
that ends the file, with the digest of the FOOT. -/
structure LaidOut (c : Codecs O D R) (bytes : Bytes) (m : SegmentFileMetadata O) : Prop where
  ordinals : m.index.map (·.sliceOrdinal) = List.range m.index.length
  inside : footerLen ≤ bytes.length ∧
    ∀ r ∈ ranges m.index, r.1 + r.2 ≤ bytes.length - footerLen
  ordered : (ranges m.index).Pairwise fun a b => a.1 + a.2 ≤ b.1
  disjoint : (ranges m.index).Pairwise fun a b =>
    Disjoint (Set.Ico a.1 (a.1 + a.2)) (Set.Ico b.1 (b.1 + b.2))
  /-- `verify_body_checksum` compares the digest of the body with this one. -/
  digest : verifyBodyChecksum c bytes =
    if c.sha256 (bytes.take (bytes.length - footerLen)) = m.bodySha256 then .ok m.bodySha256
    else .error .footDigest

theorem verifyBodyChecksum_of_foot {foot : Nat} (htag : slice bytes foot 4 = footTag)
    (hend : foot + 4 + 4 + 32 = bytes.length) :
    verifyBodyChecksum c bytes =
      if c.sha256 (bytes.take foot) = slice bytes (foot + 4 + 4) 32 then
        .ok (slice bytes (foot + 4 + 4) 32)
      else .error .footDigest := by
  have hcut : bytes.length - footerLen = foot := by
    unfold footerLen
    omega
  have hfoot : (bytes.drop foot).take 4 = footTag := htag
  have hsha : slice (bytes.drop foot) 8 32 = slice bytes (foot + 4 + 4) 32 := by
    rw [slice, slice, List.drop_drop]
  unfold verifyBodyChecksum
  rw [if_neg (by unfold footerLen; omega), hcut]
  dsimp only
  rw [hfoot, hsha, if_neg (fun h => h rfl), ite_not]

theorem laidOut_of_ok {m : SegmentFileMetadata O} (h : readMetadataFromBytes c bytes = .ok m) :
    LaidOut c bytes m := by
  rw [readMetadataFromBytes, map_eq_ok] at h
  obtain ⟨⟨m', last⟩, h, rfl⟩ := h
  rw [readMetadataFromReader] at h
  obtain ⟨_, p₁, hmagic, h⟩ := bind_eq_ok_at h
  obtain ⟨_, p₂, hsegf, h⟩ := bind_eq_ok_at h
  obtain ⟨fileVersion, p₃, hversion, h⟩ := bind_eq_ok_at h
  obtain ⟨_, p₄, haccepted, h⟩ := bind_eq_ok_at h
  obtain ⟨_, p₅, hcreated, h⟩ := bind_eq_ok_at h
  obtain ⟨_, p₆, hblob, h⟩ := bind_eq_ok_at h
  obtain ⟨_, p₇, hoffsets, h⟩ := bind_eq_ok_at h
  obtain ⟨⟨index, total⟩, p₈, hparts, h⟩ := bind_eq_ok_at h
  obtain ⟨_, p₉, hcount, h⟩ := bind_eq_ok_at h
  obtain ⟨_, p₁₀, hsha, h⟩ := bind_eq_ok_at h
  obtain ⟨_, _, hpos, h⟩ := bind_eq_ok_at h
  cases hpos
  obtain ⟨_, p₁₁, htrailing, h⟩ := bind_eq_ok_at h
  obtain ⟨_, p₁₂, -, h⟩ := bind_eq_ok_at h
  obtain ⟨_, p₁₃, -, h⟩ := bind_eq_ok_at h
  cases h
  have h₁ := Advances.readExact _ _ _ _ (Nat.zero_le _) hmagic
  have h₂ := Advances.require _ _ _ h₁.2 hsegf
  have h₃ := advances_readU32 _ _ _ h₂.2 hversion
  have h₄ := Advances.require _ _ _ h₃.2 haccepted
  have h₅ := advances_readU64 _ _ _ h₄.2 hcreated
  have h₆ := advances_readBlobCapped _ _ _ _ h₅.2 hblob
  have h₇ := Advances.orFail _ _ _ h₆.2 hoffsets
  obtain ⟨foot, hplaced, -, htag, rfl⟩ := readParts_ok _ (.nil p₇) h₇.2 hparts
  obtain ⟨_, _, hread, hcount⟩ := bind_eq_ok_at hcount
  obtain ⟨-, rfl, -⟩ := readExact_ok hread
  cases hcount
  obtain ⟨rfl, rfl, -⟩ := readExact_ok hsha
  have hend := of_require htrailing
  have hcut : bytes.length - footerLen = foot := by
    unfold footerLen
    omega
  exact {
    ordinals := hplaced.ordinals
    inside := ⟨by unfold footerLen; omega, by rw [hcut]; exact hplaced.behind⟩
    ordered := hplaced.ordered
    disjoint := hplaced.disjoint
    digest := by rw [hcut]; exact verifyBodyChecksum_of_foot htag hend }

theorem advances_readParts (n : Nat) (index : List IndexEntry) (total : Nat) :
    Advances bytes 4 (readParts c bytes fileVersion n index total) := by
  rw [readParts_eq n (index, total)]
  exact .rounds advances_readRound n _

theorem advances_readMetadataFromReader : Advances bytes 64 (readMetadataFromReader c bytes) := by
  unfold readMetadataFromReader
  apply Advances.bind (n := 60) (.readExact _)
  intro _
  apply Advances.bind (n := 60) .require
  intro _
  apply Advances.bind (n := 56) advances_readU32
  intro fileVersion
  apply Advances.bind (n := 56) .require
  intro _
  apply Advances.bind (n := 48) advances_readU64
  intro _
  apply Advances.bind (n := 40) (advances_readBlobCapped _)
  intro _
  apply Advances.bind (n := 40) .orFail
  intro _
  apply Advances.bind (n := 36) (advances_readParts _ _ _)
  intro _
  apply Advances.bind (n := 32) advances_readU32
  intro _
  apply Advances.bind (n := 0) (.readExact _)
  intro _
  exact Advances.position.bind fun _ => Advances.require.bind fun _ => Advances.require.bind fun _ =>
    Advances.require.bind fun _ => .pure _

/-- **The scan is safe.** Whatever the bytes are: an accepted file is laid out in
front of its FOOT; the loop over the PARTs, which the source does not bound, ends
with what `readParts` returns; and it passes only positions of the file, as does
the reader as a whole. -/
theorem readMetadataFromBytes_safe (c : Codecs O D R) (bytes : Bytes) :
    (∀ m, readMetadataFromBytes c bytes = .ok m → LaidOut c bytes m) ∧
    (∀ fileVersion pos, 0 < pos → pos ≤ bytes.length →
      Loops (readRound c bytes fileVersion) ([], 0) pos
        (readParts c bytes fileVersion bytes.length [] 0 pos) ∧
      ∀ s pos', Heads (readRound c bytes fileVersion) ([], 0) pos s pos' → pos' ≤ bytes.length) ∧
    Advances bytes 64 (readMetadataFromReader c bytes) := by
  refine ⟨fun m h => laidOut_of_ok h, fun fileVersion pos hpos hle => ⟨?_, fun s pos' h => ?_⟩,
    advances_readMetadataFromReader⟩
  · rw [readParts_eq bytes.length ([], 0)]
    exact loops_of_rounds (fun s => (advances_readRound s).mono (by decide)) _ _ _ hle (by omega)
  · exact (h.inside advances_readRound hle).2

def twoPartitionsFile : Bytes :=
  ((encodeSnapshot Plain.plainCodecs twoPartitions).toOption.map (·.bytes)).getD []

theorem readMetadataFromBytes_twoPartitions :
    (∃ m, readMetadataFromBytes Plain.plainCodecs twoPartitionsFile = .ok m ∧ m.index.length = 2 ∧
      LaidOut Plain.plainCodecs twoPartitionsFile m) ∧
    Loops (readRound Plain.plainCodecs twoPartitionsFile version) ([], 0) 25
      (readParts Plain.plainCodecs twoPartitionsFile version twoPartitionsFile.length [] 0 25) := by
  obtain ⟨hlaid, hloop, -⟩ := readMetadataFromBytes_safe Plain.plainCodecs twoPartitionsFile
  constructor
  · have hrun : ((readMetadataFromBytes Plain.plainCodecs twoPartitionsFile).map
        fun m => m.index.length) = .ok 2 := by decide +kernel
    obtain ⟨m, hm, htwo⟩ := map_eq_ok.1 hrun
    exact ⟨m, hm, htwo.symm, hlaid m hm⟩
  · exact (hloop version 25 (by decide) (by decide +kernel)).1

end Skippr.L3
