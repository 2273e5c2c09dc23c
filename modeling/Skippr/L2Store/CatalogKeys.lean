import Skippr.L2Store.Catalog

/-!
# Catalog keys: the decoder and the scan prefixes

All rows of the catalog lie in one flat key space. A key is rendered as
`wal#kind#component`, with one component or two, and a scan of one kind reads
the keys that start with `catalog/wal#kind#`. What keeps the kinds and the
components apart is that `validate_path_component` refuses `#`.

* `asStr_prefix_iff`: which encodings a scan prefix catches.

The decoder accepts more than the encoder writes: an ordinal may have leading
zeros or a plus sign. So the keys under a prefix are encodings in the stores that
commits build, not in any store (`ordinal_not_canonical`).
-/
namespace Skippr.L2.Catalog

open Skippr.L1

/-! ## Constructors -/

section Constructors
variable {α : Type} {raw : Text}

/-- A value built over a component once `validate_path_component` has passed it. -/
def validated (raw : Text) (make : validatePathComponent raw = .ok () → α) : Except PathError α :=
  match h : validatePathComponent raw with
  | .ok () => .ok (make h)
  | .error e => .error e

theorem validated_of_valid {make : validatePathComponent raw = .ok () → α}
    (h : validatePathComponent raw = .ok ()) : validated raw make = .ok (make h) := by
  unfold validated
  split
  · rfl
  · rename_i e herr
    rw [h] at herr
    cases herr

end Constructors

/-- mirrors crates/skippr-wal-catalog/src/key.rs:9-13 -/
def CompactionId.new (raw : Text) : Except PathError CompactionId := validated raw (CompactionId.mk raw)

/-- mirrors key.rs:26-30 -/
def CheckpointKey.new (raw : Text) : Except PathError CheckpointKey :=
  validated raw (CheckpointKey.mk raw)

/-- mirrors key.rs:44-56 -/
def OffsetHintKey.new (ns part : Text) : Except PathError OffsetHintKey :=
  match h : validatePathComponent ns with
  | .ok () => validated part (OffsetHintKey.mk ns part h)
  | .error e => .error e

@[simp] theorem CompactionId.new_raw (id : CompactionId) : CompactionId.new id.raw = .ok id :=
  validated_of_valid id.valid

@[simp] theorem CheckpointKey.new_raw (key : CheckpointKey) : CheckpointKey.new key.raw = .ok key :=
  validated_of_valid key.valid

@[simp] theorem OffsetHintKey.new_parts (key : OffsetHintKey) :
    OffsetHintKey.new key.ns key.partition = .ok key := by
  unfold OffsetHintKey.new
  split
  · exact validated_of_valid key.partitionValid
  · rename_i e herr
    rw [key.nsValid] at herr
    cases herr

/-! ## Decoding -/

/-- mirrors key.rs:68-98 -/
inductive CatalogPrefix
  | segment
  | index
  | legacySlice
  | compaction
  | checkpoint
  | offsetHint
deriving DecidableEq, Repr

def CatalogPrefix.asStr : CatalogPrefix → Text
  | .segment => wal ++ ['s', 'e', 'g', '#']
  | .index => wal ++ ['i', 'd', 'x', '#']
  | .legacySlice => wal ++ ['s', 'l', 'i', 'c', 'e', '#']
  | .compaction => wal ++ ['c', 'm', 'p', '#']
  | .checkpoint => wal ++ ['c', 'p', '#']
  | .offsetHint => wal ++ ['h', 'i', 'n', 't', '#']

/-- The kind of a key that scans run over; `Seq` and `Format` are single rows. -/
def CatalogKey.kind : CatalogKey → Option CatalogPrefix
  | .segment _ => some .segment
  | .index _ => some .index
  | .legacySlice _ _ => some .legacySlice
  | .compaction _ => some .compaction
  | .checkpoint _ => some .checkpoint
  | .offsetHint _ => some .offsetHint
  | .seq => none
  | .format => none

/-- `PathError::InvalidComponent`, by the text it carries. -/
inductive KeyError
  | component (err : PathError)
  /-- "slice SK must be wal#slice#seg#ordinal: .." -/
  | sliceShape (sk : Text)
  /-- "slice ordinal is not u32: .." -/
  | ordinalNotU32 (sk : Text)
  /-- "offset hint SK must be wal#hint#ns#part: .." -/
  | hintShape (sk : Text)
  /-- "unknown catalog SK: .." -/
  | unknown (sk : Text)
deriving DecidableEq, Repr

def stripPrefix (pre sk : Text) : Option Text :=
  if pre.isPrefixOf sk then some (sk.drop pre.length) else none

def parseU32 (l : Text) : Option UInt32 :=
  (parseU64 l).bind fun n => if n < 2 ^ 32 then some (UInt32.ofNat n) else none

def decodeSlice (sk rest : Text) : Except KeyError CatalogKey :=
  match rsplitOnce '#' rest with
  | none => .error (.sliceShape sk)
  | some (segment, ordinal) =>
    match parseU32 ordinal with
    | none => .error (.ordinalNotU32 sk)
    | some ordinal =>
      ((SegmentId.new segment).mapError .component).map fun id => .legacySlice id ordinal

def decodeHint (sk rest : Text) : Except KeyError CatalogKey :=
  match splitOnce '#' rest with
  | none => .error (.hintShape sk)
  | some (ns, part) => ((OffsetHintKey.new ns part).mapError .component).map .offsetHint

/-- mirrors key.rs:130-171 -/
def CatalogKey.decode (sk : Text) : Except KeyError CatalogKey :=
  if sk = wal ++ ['s', 'e', 'q'] then .ok .seq
  else if sk = wal ++ ['f', 'o', 'r', 'm', 'a', 't'] then .ok .format
  else
    match stripPrefix CatalogPrefix.segment.asStr sk with
    | some rest => ((SegmentId.new rest).mapError .component).map .segment
    | none =>
      match stripPrefix CatalogPrefix.index.asStr sk with
      | some rest => ((SegmentId.new rest).mapError .component).map .index
      | none =>
        match stripPrefix CatalogPrefix.legacySlice.asStr sk with
        | some rest => decodeSlice sk rest
        | none =>
          match stripPrefix CatalogPrefix.compaction.asStr sk with
          | some rest => ((CompactionId.new rest).mapError .component).map .compaction
          | none =>
            match stripPrefix CatalogPrefix.checkpoint.asStr sk with
            | some rest => ((CheckpointKey.new rest).mapError .component).map .checkpoint
            | none =>
              match stripPrefix CatalogPrefix.offsetHint.asStr sk with
              | some rest => decodeHint sk rest
              | none => .error (.unknown sk)

theorem parseU32_showNat (n : UInt32) : parseU32 (showNat n.toNat) = some n := by
  have hlt := n.toNat_lt
  have hparse : parseU64 (showNat n.toNat) = some n.toNat := parseU64_showNat (by omega)
  rw [parseU32, hparse, Option.bind_some, if_pos hlt, UInt32.ofNat_toNat]

theorem decodeSlice_of_parts (sk : Text) (id : SegmentId) (ordinal : UInt32) :
    decodeSlice sk (id.raw ++ '#' :: showNat ordinal.toNat) = .ok (.legacySlice id ordinal) := by
  have hsplit : rsplitOnce '#' (id.raw ++ '#' :: showNat ordinal.toNat) =
      some (id.raw, showNat ordinal.toNat) := rsplitOnce_append (notMem_showNat (by decide)) _
  simp only [decodeSlice, hsplit, parseU32_showNat, SegmentId.new_raw]
  rfl

theorem decodeHint_of_parts (sk : Text) (key : OffsetHintKey) :
    decodeHint sk (key.ns ++ '#' :: key.partition) = .ok (.offsetHint key) := by
  have hsplit : splitOnce '#' (key.ns ++ '#' :: key.partition) = some (key.ns, key.partition) :=
    splitOnce_append (notMem_of_valid key.nsValid (by decide)) _
  simp only [decodeHint, hsplit, OffsetHintKey.new_parts]
  rfl

/-- The decoder tests the kinds one after the other; no encoding passes the
test of another kind. -/
theorem decode_catalogKey (key : CatalogKey) : CatalogKey.decode key.encode = .ok key := by
  cases key <;>
    simp [CatalogKey.decode, CatalogKey.encode, CatalogPrefix.asStr, stripPrefix, wal,
      decodeSlice_of_parts, decodeHint_of_parts] <;> rfl

/-! ## Scan prefixes -/

def catalogFamily : Text := ['c', 'a', 't', 'a', 'l', 'o', 'g', '/']

/-- The prefix a scan hands to the store.
mirrors crates/skippr-wal-catalog/src/memory_kv.rs:218 -/
def CatalogPrefix.scanned (p : CatalogPrefix) : Text := catalogFamily ++ p.asStr

theorem asStr_prefix_iff (p : CatalogPrefix) (key : CatalogKey) :
    p.asStr <+: key.encode ↔ key.kind = some p := by
  cases p <;> cases key <;>
    simp [CatalogPrefix.asStr, CatalogKey.encode, CatalogKey.kind, wal]

theorem scanned_prefix_iff (p : CatalogPrefix) (key : CatalogKey) :
    p.scanned <+: storeKey key ↔ key.kind = some p := by
  rw [← asStr_prefix_iff]
  exact List.prefix_append_right_inj _

section Content
variable {B V H : Type}

def CatalogKeyed (rows : Map Text V) : Prop :=
  ∀ key ∈ rows.keys, catalogFamily <+: key → ∃ k, key = storeKey k

theorem CatalogKeyed.applyWrites {rows : Map Text V} (h : CatalogKeyed rows) {ws : List (KvOp V)}
    (hws : ∀ w ∈ ws, catalogFamily <+: w.key → ∃ k, w.key = storeKey k) :
    CatalogKeyed (applyWrites rows ws) := by
  intro key hmem hfamily
  cases hlast : lastWrite key ws with
  | some w =>
    obtain ⟨hw, rfl⟩ := mem_of_lastWrite hlast
    exact hws w hw hfamily
  | none =>
    rw [Map.mem_keys_iff, get_applyWrites, hlast] at hmem
    exact h key ((Map.mem_keys_iff rows key).2 hmem) hfamily

variable [DecidableEq H] {c : Codec B V H}

theorem CatalogKeyed.commit {store : SkipprStore V} (h : CatalogKeyed store.rows) (faults : Faults)
    (txn : CatalogTxn c) (fence : CatalogFence) :
    CatalogKeyed (catalogCommit c faults store txn fence).2.rows := by
  rcases catalogCommit_cases faults store txn fence with ⟨-, -, hrows⟩ | ⟨-, e, herror⟩
  · rw [hrows]
    apply h.applyWrites
    intro w hw _
    obtain ⟨op, -, rfl⟩ := List.mem_map.1 hw
    exact ⟨op.key, CatalogOp.write_key op⟩
  · rw [herror]
    exact h

/-- The stores that commits build from an empty one: catalog transactions, and
commits of the other families. -/
inductive Built (c : Codec B V H) : SkipprStore V → Prop
  | empty {store : SkipprStore V} : store.rows = ∅ → Built c store
  | catalog {store : SkipprStore V} (faults : Faults) (txn : CatalogTxn c) (fence : CatalogFence) :
      Built c store → Built c (catalogCommit c faults store txn fence).2
  | other {store : SkipprStore V} (faults : Faults) (ops : List (KvOp V)) (fence : CatalogFence) :
      (∀ op ∈ ops, ¬ catalogFamily <+: op.key) → Built c store →
      Built c (store.commit faults ops fence).2

theorem Built.keyed {store : SkipprStore V} (h : Built c store) : CatalogKeyed store.rows := by
  induction h with
  | empty hrows =>
    rw [hrows]
    intro key hmem
    cases hmem
  | catalog faults txn fence _ ih => exact ih.commit faults txn fence
  | @other store faults ops fence hops _ ih =>
    rcases commit_cases faults store ops fence with ⟨-, -, -, hrows⟩ | ⟨-, e, herror⟩
    · rw [hrows]
      exact ih.applyWrites fun w hw hfamily => absurd hfamily (hops w hw)
    · rw [herror]
      exact ih

theorem keys_under_iff {rows : Map Text V} (h : CatalogKeyed rows) (p : CatalogPrefix) (key : Text) :
    (key ∈ rows.keys ∧ p.scanned <+: key) ↔
      ∃ k, k.kind = some p ∧ key = storeKey k ∧ storeKey k ∈ rows.keys := by
  constructor
  · rintro ⟨hmem, hpre⟩
    obtain ⟨k, rfl⟩ := h key hmem ((List.prefix_append _ _).trans hpre)
    exact ⟨k, (scanned_prefix_iff p k).1 hpre, rfl, hmem⟩
  · rintro ⟨k, hkind, rfl, hmem⟩
    exact ⟨hmem, (scanned_prefix_iff p k).2 hkind⟩

end Content

/-- **The key space of the catalog.** Decoding undoes encoding, no two keys
share an encoding, and in every store that commits build the keys under the
prefix of a kind are the encodings of the keys of that kind. -/
theorem catalogKey_codec :
    (∀ key, CatalogKey.decode key.encode = .ok key) ∧ Function.Injective CatalogKey.encode ∧
      ∀ {B V H : Type} [DecidableEq H] (c : Codec B V H) (store : SkipprStore V), Built c store →
        ∀ p : CatalogPrefix, {key | key ∈ store.rows.keys ∧ p.scanned <+: key} =
          {key | ∃ k, k.kind = some p ∧ key = storeKey k ∧ storeKey k ∈ store.rows.keys} := by
  refine ⟨decode_catalogKey, CatalogKey.encode_injective, ?_⟩
  intro B V H _ c store hbuilt p
  ext key
  exact keys_under_iff hbuilt.keyed p key

def putSegment : CatalogTxn plain where
  ops := [.put segmentKey (.segment 3 0) .notExists]
  bounded := by decide
  pushable := List.forall_mem_singleton.2 ⟨fun h => (by cases h), by decide⟩

/-- A segment row is put into an empty store. -/
theorem catalogKey_codec_segment :
    let store := (catalogCommit plain noFaults (.fjall ⟨∅, node⟩) putSegment node).2
    storeKey segmentKey ∈ store.rows.keys ∧
      {key | key ∈ store.rows.keys ∧ CatalogPrefix.segment.scanned <+: key} =
        {key | ∃ k, k.kind = some .segment ∧ key = storeKey k ∧ storeKey k ∈ store.rows.keys} :=
  ⟨by decide +kernel, catalogKey_codec.2.2 plain _ (.catalog noFaults putSegment node (.empty rfl)) _⟩

def zeroPadded : Text := catalogFamily ++ "wal#slice#a#007".toList

/-- A store with a key that decodes and that no encoding gives. -/
theorem ordinal_not_canonical :
    let rows : Map Text Unit := (∅ : Map Text Unit).insert zeroPadded ()
    zeroPadded ∈ rows.keys ∧ CatalogPrefix.legacySlice.scanned <+: zeroPadded ∧
      ¬ ∃ k, zeroPadded = storeKey k := by
  refine ⟨by decide +kernel, by decide +kernel, fun ⟨k, hk⟩ => ?_⟩
  have hencode : "wal#slice#a#007".toList = k.encode := List.append_cancel_left hk
  have hdecode := decode_catalogKey k
  rw [← hencode, show CatalogKey.decode "wal#slice#a#007".toList =
    .ok (.legacySlice ⟨['a'], rfl⟩ 7) from rfl] at hdecode
  cases hdecode
  revert hencode
  decide

end Skippr.L2.Catalog
