import Skippr.L3Wal.SegmentFile

/-!
# Rewriting a segment onto the next schema

A migration alters the columns of a namespace while segments of the old schema
are still in the WAL. `rewrite_wal_bytes` (src/migration/wal.rs) decodes every
part of a segment, alters the schema of the Arrow parts of the namespace and
encodes the whole segment again.
-/
namespace Skippr.L3

open Skippr.L2 (Bytes)

variable {O D R : Type}

/-! ## Columns -/

/-- mirrors src/discover/schema_alter.rs:8-13 -/
inductive SchemaAlterOp
  | rename (old new : Text)
  | merge (src dst : Text)
  | drop (column : Text)
  | promote (column : Text)
deriving DecidableEq, Repr

/-- One call of `rewrite_live_wal`: a namespace, an operation and the field id
of its column. -/
structure Stmt where
  ns : Text
  op : SchemaAlterOp
  fieldId : Int
deriving DecidableEq, Repr

/-- mirrors wal.rs:51-57 -/
def lookupName : SchemaAlterOp → Text
  | .rename old _ => old
  | .merge src _ => src
  | .drop column => column
  | .promote column => column

/-- mirrors wal.rs:59-61 -/
def icebergFlatten (name : Text) : Text := name.map fun ch => if ch = '.' ∨ ch = '-' then '_' else ch

/-- mirrors wal.rs:63-67 -/
def fieldHasId (f : Field) (idToken : Text) : Bool :=
  f.parquetFieldId == some idToken || f.icebergFieldId == some idToken

/-- The statement is about the column.
mirrors wal.rs:40 -/
def Stmt.names (st : Stmt) (f : Field) : Bool :=
  fieldHasId f (showInt st.fieldId) || f.name == lookupName st.op

/-- mirrors wal.rs:39-49 -/
def rewriteField (st : Stmt) (f : Field) : Field :=
  if st.names f then
    match st.op with
    | .rename _ new => { f with name := icebergFlatten new }
    | .promote _ => f
    | .drop _ | .merge .. => f
  else f

def ArrowStream.mapFields (f : Field → Field) (s : ArrowStream D) : ArrowStream D where
  schema := s.schema.map f
  batches := s.batches
  fits := by simpa using s.fits

/-- mirrors wal.rs:15-37 -/
def ArrowStream.rewrite (st : Stmt) (s : ArrowStream D) : ArrowStream D := s.mapFields (rewriteField st)

theorem ArrowStream.mapFields_congr {f g : Field → Field} {s : ArrowStream D}
    (h : ∀ x ∈ s.schema, f x = g x) : s.mapFields f = s.mapFields g := by
  simp only [mapFields, ArrowStream.mk.injEq, and_true]
  exact List.map_congr_left h

theorem ArrowStream.mapFields_id (s : ArrowStream D) : s.mapFields (fun f => f) = s := by
  simp only [mapFields, List.map_id']

theorem ArrowStream.mapFields_mapFields (f g : Field → Field) (s : ArrowStream D) :
    (s.mapFields f).mapFields g = s.mapFields fun x => g (f x) := by
  simp only [mapFields, List.map_map, Function.comp_def]

/-- Rewriting twice is rewriting once: a renamed column has the new name, and
the name it is given does not depend on the one it has. -/
theorem rewriteField_idem (st : Stmt) (f : Field) :
    rewriteField st (rewriteField st f) = rewriteField st f := by
  by_cases hf : st.names f
  · cases hop : st.op with
    | rename old new | merge src dst | drop column | promote column => simp [rewriteField, hf, hop]
  · simp [rewriteField, hf]

/-! ## The rewrite -/

inductive RewriteError
  /-- of `read_metadata_from_bytes` or `encode_snapshot` -/
  | segment (e : SegmentError)
  /-- "copy/non-Arrow WAL parts cannot be rewritten" -/
  | copyPart
  /-- "WAL part exceeds payload length" -/
  | partExceeds
  /-- of the Arrow reader -/
  | arrow
  /-- `RecordBatch::try_new` without columns -/
  | noColumns
  /-- of `decode_copy_part` -/
  | copyDecode
  /-- "WAL part metadata exceeds payload length" -/
  | partMetaExceeds
  /-- of `payload_bytes` -/
  | payload
deriving DecidableEq, Repr

/-- mirrors src/buffer/segment_file.rs:47-63 -/
def CopyPart.encode (c : Codecs O D R) (records : List R) : CopyPart :=
  if records.isEmpty then ⟨[], 0⟩ else ⟨[c.copyFrames records], records.length⟩

/-- The payload a part is written with, and whether a batch was rewritten.
mirrors wal.rs:161-178 -/
def rewritePayload (c : Codecs O D R) (st : Stmt) (e : IndexEntry) (data : Bytes) :
    Except RewriteError (WalPayload D × Bool) :=
  if e.codec = .arrow then
    match c.readStream data with
    | none => .error .arrow
    | some s =>
      if e.key.ns = st.ns then
        if s.schema = [] ∧ s.batches ≠ [] then .error .noColumns
        else .ok (.arrow (s.rewrite st), !s.batches.isEmpty)
      else .ok (.arrow s, false)
  else
    match c.readCopy e.codec data with
    | none => .error .copyDecode
    | some records => .ok (.copy (CopyPart.encode c records), false)

structure Collected (D : Type) where
  batches : Map PartitionKey (WalPayload D)
  partitionsMeta : Map PartitionKey (UInt64 × UInt64)
  partMetaBlobs : Map PartitionKey Bytes
  mutated : Bool

/-- One round of the loop over the index.
mirrors wal.rs:151-195 -/
def collectPart (c : Codecs O D R) (bytes : Bytes) (st : Stmt) (acc : Collected D) (e : IndexEntry) :
    Except RewriteError (Collected D) :=
  if e.codec ≠ .arrow ∧ e.key.ns = st.ns then .error .copyPart
  else if bytes.length < e.start + e.len then .error .partExceeds
  else
    match rewritePayload c st e (slice bytes e.start e.len) with
    | .error err => .error err
    | .ok (payload, mutated) =>
      if 0 < e.partMetaLen ∧ bytes.length < e.partMetaStart + e.partMetaLen then .error .partMetaExceeds
      else .ok {
        batches := acc.batches.insert e.key payload
        partitionsMeta := acc.partitionsMeta.insert e.key (e.bytes, e.updatedAtSecs)
        partMetaBlobs :=
          if 0 < e.partMetaLen then
            acc.partMetaBlobs.insert e.key (slice bytes e.partMetaStart e.partMetaLen)
          else acc.partMetaBlobs
        mutated := acc.mutated || mutated }

/-- mirrors wal.rs:140-209 -/
def rewriteWalBytes (c : Codecs O D R) (bytes : Bytes) (st : Stmt) :
    Except RewriteError (Option (EncodedSnapshot O)) :=
  match readMetadataFromBytes c bytes with
  | .error e => .error (.segment e)
  | .ok found =>
    match found.index.foldlM (collectPart c bytes st) ⟨∅, ∅, ∅, false⟩ with
    | .error e => .error e
    | .ok got =>
      if got.mutated = false then .ok none
      else
        match encodeSnapshot c
          ⟨found.offsets, got.batches, got.partitionsMeta, got.partMetaBlobs, found.createdAtSecs⟩ with
        | .error e => .error (.segment e)
        | .ok encoded => .ok (some encoded)

/-! ## Rows -/

inductive Rows (D R : Type)
  | arrow (stream : ArrowStream D)
  | copy (records : List R)
deriving DecidableEq

/-- The rows in a range of a payload.
mirrors src/sqlrt/wal_slice.rs:133-143, segment_file.rs:355-397 -/
def decodeData (c : Codecs O D R) (codec : PartCodec) (data : Bytes) : Option (Rows D R) :=
  if codec = .arrow then (c.readStream data).map .arrow else (c.readCopy codec data).map .copy

/-- The rows of a slice. A file is read from the start of the range; an object
is cut first, and the range checked (`checked`).
mirrors wal_slice.rs:96-131 -/
def decodeSlice (c : Codecs O D R) (checked : Bool) (bytes : Bytes) (e : IndexEntry) :
    Option (Rows D R) :=
  if checked ∧ bytes.length < e.start + e.len then none
  else decodeData c e.codec (slice bytes e.start e.len)

def readPartMeta (bytes : Bytes) (e : IndexEntry) : Bytes := slice bytes e.partMetaStart e.partMetaLen

def Rows.rewrite (st : Stmt) (ns : Text) : Rows D R → Rows D R
  | .arrow s => if ns = st.ns then .arrow (s.rewrite st) else .arrow s
  | .copy records => .copy records

def ArrowStream.dropColumns (p : Field → Bool) (s : ArrowStream D) : ArrowStream D where
  schema := s.schema.filter fun f => !p f
  batches := s.batches.map fun b => ((s.schema.zip b).filter fun x => !p x.1).map Prod.snd
  fits := by
    refine List.forall_mem_map.2 fun row hrow => ?_
    have hfst : (s.schema.zip row).map Prod.fst = s.schema :=
      List.map_fst_zip (Nat.le_of_eq (s.fits row hrow).symm)
    have hfilter : ((s.schema.zip row).filter fun x => !p x.1).map Prod.fst =
        ((s.schema.zip row).map Prod.fst).filter fun f => !p f := by
      rw [List.filter_map]
      rfl
    rw [hfst] at hfilter
    rw [List.length_map, ← hfilter, List.length_map]

/-- What the operation means for the rows of a slice. -/
def Stmt.apply (st : Stmt) (ns : Text) : Rows D R → Rows D R
  | .arrow s =>
    if ns = st.ns then
      match st.op with
      | .drop _ => .arrow (s.dropColumns st.names)
      | _ => .arrow (s.rewrite st)
    else .arrow s
  | .copy records => .copy records

theorem ArrowStream.dropColumns_eq_self {p : Field → Bool} {s : ArrowStream D}
    (h : ∀ f ∈ s.schema, p f = false) : s.dropColumns p = s := by
  obtain ⟨schema, batches, fits⟩ := s
  simp only [dropColumns, ArrowStream.mk.injEq]
  refine ⟨List.filter_eq_self.2 fun f hf => by simp [h f hf], ?_⟩
  conv_rhs => rw [← List.map_id batches]
  apply List.map_congr_left
  intro b hb
  have hall : (schema.zip b).filter (fun x => !p x.1) = schema.zip b :=
    List.filter_eq_self.2 fun x hx => by simp [h x.1 (List.of_mem_zip hx).1]
  rw [hall, List.map_snd_zip (Nat.le_of_eq (fits b hb)), id]

variable {st : Stmt} {c : Codecs O D R}

theorem Stmt.apply_eq_rewrite {ns : Text} {rows : Rows D R}
    (h : ∀ s column, rows = .arrow s → ns = st.ns → st.op = .drop column →
      ∀ f ∈ s.schema, st.names f = false) : st.apply ns rows = rows.rewrite st ns := by
  cases rows with
  | copy records => rfl
  | arrow s =>
    simp only [Stmt.apply, Rows.rewrite]
    split
    · rename_i hns
      cases hop : st.op with
      | rename old new | merge src dst | promote column => rfl
      | drop column =>
        have hnone := h s column rfl hns hop
        have hsame : s.rewrite st = s.mapFields fun f => f :=
          ArrowStream.mapFields_congr fun f hf => by simp [rewriteField, hnone f hf]
        rw [ArrowStream.dropColumns_eq_self hnone, hsame, ArrowStream.mapFields_id]
    · rfl

/-! ## Parts -/

namespace WalPayload
variable (c : Codecs O D R)

def rows : WalPayload D → Option (Rows D R)
  | .arrow s => some (.arrow s)
  | .copy part => (c.readCopy .copyChunked part.chunks.flatten).map .copy

def rewrite (st : Stmt) (ns : Text) : WalPayload D → WalPayload D
  | .arrow s => if ns = st.ns then .arrow (s.rewrite st) else .arrow s
  | .copy part =>
    match c.readCopy .copyChunked part.chunks.flatten with
    | some records => .copy (CopyPart.encode c records)
    | none => .copy part

def Kept (st : Stmt) (ns : Text) : WalPayload D → Prop
  | .arrow s => ns = st.ns → (c.stream (s.rewrite st)).length = (c.stream s).length
  | .copy part => ∀ records, c.readCopy .copyChunked part.chunks.flatten = some records →
      records ≠ [] ∧ (c.copyFrames records).length = part.chunks.flatten.length

variable {c} {st : Stmt} {ns : Text}

theorem rewrite_copy {part : CopyPart} {records : List R}
    (h : c.readCopy .copyChunked part.chunks.flatten = some records) :
    (WalPayload.copy part : WalPayload D).rewrite c st ns = .copy (CopyPart.encode c records) := by
  simp only [rewrite, h]

theorem rewrite_copy_none {part : CopyPart}
    (h : c.readCopy .copyChunked part.chunks.flatten = none) :
    (WalPayload.copy part : WalPayload D).rewrite c st ns = .copy part := by
  simp only [rewrite, h]

theorem rewrite_data_length : ∀ {payload : WalPayload D}, payload.Kept c st ns →
    ((payload.rewrite c st ns).data c).length = (payload.data c).length
  | .arrow s, h => by
    by_cases hns : ns = st.ns
    · rw [rewrite, if_pos hns]
      exact h hns
    · rw [rewrite, if_neg hns]
  | .copy part, h => by
    cases hread : c.readCopy .copyChunked part.chunks.flatten with
    | none => rw [rewrite_copy_none hread]
    | some records =>
      obtain ⟨hne, hlen⟩ := h records hread
      rw [rewrite_copy hread]
      simpa [CopyPart.encode, hne, data] using hlen

theorem rewrite_codec : ∀ payload : WalPayload D, (payload.rewrite c st ns).codec = payload.codec
  | .arrow s => by
    rw [rewrite]
    split <;> rfl
  | .copy part => by
    rw [rewrite]
    split <;> rfl

theorem rewrite_nonempty : ∀ {payload : WalPayload D}, payload.Kept c st ns → payload.isEmpty = false →
    (payload.rewrite c st ns).isEmpty = false
  | .arrow s, _, hne => by
    rw [rewrite]
    split
    · exact hne
    · exact hne
  | .copy part, h, hne => by
    cases hread : c.readCopy .copyChunked part.chunks.flatten with
    | none => rwa [rewrite_copy_none hread]
    | some records =>
      rw [rewrite_copy hread]
      simp [CopyPart.encode, (h records hread).1, isEmpty]

theorem rewrite_rows : ∀ {payload : WalPayload D}, payload.Kept c st ns →
    (payload.rewrite c st ns).rows c = (payload.rows c).map (Rows.rewrite st ns)
  | .arrow s, _ => by
    by_cases hns : ns = st.ns
    · simp [rewrite, rows, Rows.rewrite, hns]
    · simp [rewrite, rows, Rows.rewrite, hns]
  | .copy part, h => by
    cases hread : c.readCopy .copyChunked part.chunks.flatten with
    | none => simp [rewrite_copy_none hread, rows, hread]
    | some records =>
      simp [rewrite_copy hread, rows, hread, CopyPart.encode, (h records hread).1,
        c.readCopy_copyFrames, Rows.rewrite]

theorem rewritePayload_eq {e : IndexEntry} {payload payload' : WalPayload D} {mutated : Bool}
    (hcodec : e.codec = payload.codec)
    (h : rewritePayload c st e (payload.data c) = .ok (payload', mutated)) :
    payload' = payload.rewrite c st e.key.ns ∧ (mutated = true → e.key.ns = st.ns) ∧
      (payload.isEmpty = false → mutated = false → payload.codec = .arrow → e.key.ns ≠ st.ns) := by
  cases payload with
  | arrow s =>
    simp only [rewritePayload, hcodec, codec, data, c.readStream_stream, if_true] at h
    by_cases hns : e.key.ns = st.ns
    · rw [if_pos hns] at h
      split at h
      · cases h
      · cases h
        refine ⟨by rw [rewrite, if_pos hns], fun _ => hns, fun hne hmut _ => ?_⟩
        rw [isEmpty] at hne
        rw [hne] at hmut
        cases hmut
    · rw [if_neg hns] at h
      cases h
      exact ⟨(if_neg hns).symm, (fun hmut => by cases hmut), fun _ _ _ => hns⟩
  | copy part =>
    simp only [rewritePayload, hcodec, codec, data, reduceCtorEq, if_false] at h
    cases hread : c.readCopy .copyChunked part.chunks.flatten with
    | none =>
      rw [hread] at h
      cases h
    | some records =>
      rw [hread] at h
      cases h
      exact ⟨(rewrite_copy hread).symm, (fun hmut => by cases hmut), fun _ _ hc => by cases hc⟩

end WalPayload

namespace Part
variable {c : Codecs O D R} {st : Stmt} {p : Part D}

def rewrite (c : Codecs O D R) (st : Stmt) (p : Part D) : Part D :=
  { p with payload := p.payload.rewrite c st p.key.ns }

def Kept (c : Codecs O D R) (st : Stmt) (p : Part D) : Prop := p.payload.Kept c st p.key.ns

theorem rewrite_entry (h : p.Kept c st) (pos ordinal : Nat) :
    (p.rewrite c st).entry c pos ordinal = p.entry c pos ordinal := by
  simp only [entry, rewrite, WalPayload.rewrite_data_length h, WalPayload.rewrite_codec]
  rfl

theorem rewrite_length (h : p.Kept c st) : ((p.rewrite c st).encode c).length = (p.encode c).length := by
  rw [length_encode, length_encode, rewrite, WalPayload.rewrite_data_length h]
  rfl

end Part

theorem layout_rewrite : ∀ {parts : List (Part D)} (pos ordinal : Nat),
    (∀ p ∈ parts, p.Kept c st) → layout c pos ordinal (parts.map (Part.rewrite c st)) = layout c pos ordinal parts
  | [], _, _, _ => rfl
  | p :: parts, pos, ordinal, h => by
    have hp := h p List.mem_cons_self
    rw [List.map_cons, layout, layout, Part.rewrite_entry hp, Part.rewrite_length hp,
      layout_rewrite _ _ (List.forall_mem_cons.1 h).2]

theorem length_flatMap_rewrite : ∀ {parts : List (Part D)},
    (∀ p ∈ parts, p.Kept c st) →
    ((parts.map (Part.rewrite c st)).flatMap (Part.encode c)).length = (parts.flatMap (Part.encode c)).length
  | [], _ => rfl
  | p :: parts, h => by
    have hrest := length_flatMap_rewrite (List.forall_mem_cons.1 h).2
    simp only [List.map_cons, List.flatMap_cons, List.length_append,
      Part.rewrite_length (h p List.mem_cons_self), hrest]

theorem Finds.decode {file : Bytes} {e : IndexEntry} {p : Part D} (h : Finds c file e p)
    (checked : Bool) : decodeSlice c checked file e = p.payload.rows c := by
  have hinside := h.inside
  rw [decodeSlice, if_neg (by omega), decodeData, h.data, h.codec]
  cases p.payload with
  | arrow s =>
    simp only [WalPayload.codec, WalPayload.data, if_true]
    rw [c.readStream_stream, Option.map_some]
    rfl
  | copy part => rfl

/-! ## The loop -/

structure Collects (c : Codecs O D R) (st : Stmt) (acc : Collected D) (done : List (Part D)) : Prop where
  payload : ∀ p ∈ done, acc.batches.get p.key = some (p.payload.rewrite c st p.key.ns)
  bytes : ∀ p ∈ done, acc.partitionsMeta.get p.key = some (p.bytes, p.updatedAt)
  metaBlob : ∀ p ∈ done, (acc.partMetaBlobs.get p.key).getD [] = p.metaBlob
  keys : ∀ k, acc.batches.get k ≠ none → k ∈ done.map (·.key)
  metaKeys : ∀ k, acc.partMetaBlobs.get k ≠ none → k ∈ done.map (·.key)
  loud : acc.mutated = true → ∃ p ∈ done, p.key.ns = st.ns
  quiet : acc.mutated = false → ∀ p ∈ done, p.key.ns ≠ st.ns

section Collect
variable {c : Codecs O D R} {st : Stmt} {file : Bytes} {acc got : Collected D}
  {done : List (Part D)} {e : IndexEntry} {p : Part D}

theorem collectPart_collects (hfinds : Finds c file e p) (hne : p.payload.isEmpty = false)
    (h : Collects c st acc done) (hnew : p.key ∉ done.map (·.key))
    (hok : collectPart c file st acc e = .ok got) : Collects c st got (done ++ [p]) := by
  obtain ⟨hcopy, hok⟩ := of_check hok
  split at hok
  · cases hok
  rw [hfinds.data] at hok
  split at hok
  · cases hok
  rename_i payload mutated hpay
  split at hok
  · cases hok
  obtain ⟨rfl, hloud, hmut⟩ := WalPayload.rewritePayload_eq hfinds.codec hpay
  cases hok
  have hold : ∀ q ∈ done, q.key ≠ p.key := fun q hq heq =>
    hnew (heq ▸ List.mem_map_of_mem hq)
  constructor
  case payload =>
    intro q hq
    rw [Map.get_insert, hfinds.key]
    rcases List.mem_append.1 hq with hq | hq
    · rw [if_neg (hold q hq), h.payload q hq]
    · obtain rfl := List.mem_singleton.1 hq
      rw [if_pos rfl]
  case bytes =>
    intro q hq
    rw [Map.get_insert, hfinds.key]
    rcases List.mem_append.1 hq with hq | hq
    · rw [if_neg (hold q hq), h.bytes q hq]
    · obtain rfl := List.mem_singleton.1 hq
      rw [if_pos rfl, hfinds.bytes, hfinds.updatedAt]
  case metaBlob =>
    intro q hq
    rcases List.mem_append.1 hq with hq | hq
    · rw [← h.metaBlob q hq]
      split
      · rw [Map.get_insert, hfinds.key, if_neg (hold q hq)]
      · rfl
    · obtain rfl := List.mem_singleton.1 hq
      split
      · rw [Map.get_insert, hfinds.key, if_pos rfl, hfinds.partMeta, Option.getD_some]
      · rename_i hzero
        rw [hfinds.metaLen] at hzero
        have hblob : q.metaBlob = [] := List.length_eq_zero_iff.1 (by omega)
        have hnone : acc.partMetaBlobs.get q.key = none := by
          by_contra hsome
          exact hnew (h.metaKeys _ hsome)
        rw [hnone, hblob]
        rfl
  case keys =>
    intro k hk
    rw [Map.get_insert, hfinds.key] at hk
    rw [List.map_append, List.mem_append]
    split at hk
    · rename_i heq
      exact .inr (List.mem_singleton.2 heq)
    · exact .inl (h.keys k hk)
  case metaKeys =>
    intro k hk
    rw [List.map_append, List.mem_append]
    split at hk
    · rw [Map.get_insert, hfinds.key] at hk
      split at hk
      · rename_i heq
        exact .inr (List.mem_singleton.2 heq)
      · exact .inl (h.metaKeys k hk)
    · exact .inl (h.metaKeys k hk)
  case loud =>
    intro hmutated
    rcases Bool.or_eq_true_iff.1 hmutated with hacc | hmutated
    · obtain ⟨q, hq, hns⟩ := h.loud hacc
      exact ⟨q, List.mem_append_left _ hq, hns⟩
    · exact ⟨p, List.mem_append_right _ (List.mem_singleton.2 rfl), hfinds.key ▸ hloud hmutated⟩
  case quiet =>
    intro hquiet q hq
    obtain ⟨hacc, hmutated⟩ := Bool.or_eq_false_iff.1 hquiet
    rcases List.mem_append.1 hq with hq | hq
    · exact h.quiet hacc q hq
    · obtain rfl := List.mem_singleton.1 hq
      rw [hfinds.key, hfinds.codec] at hcopy
      rw [hfinds.key] at hmut
      -- A copy part of the namespace would have ended the loop.
      intro hns
      have harrow : q.payload.codec = .arrow := by
        by_contra hcodec
        exact hcopy ⟨hcodec, hns⟩
      exact hmut hne hmutated harrow hns

theorem foldlM_collects : ∀ {index : List IndexEntry} {parts done : List (Part D)}
    {acc : Collected D}, List.Forall₂ (Finds c file) index parts →
    (∀ p ∈ parts, p.payload.isEmpty = false) → ((done ++ parts).map (·.key)).Nodup →
    Collects c st acc done → index.foldlM (collectPart c file st) acc = .ok got →
    Collects c st got (done ++ parts)
  | _, _, done, acc, .nil, _, _, h, hok => by
    cases hok
    rwa [List.append_nil]
  | e :: index, p :: parts, done, acc, .cons hp hrest, hne, hnodup, h, hok => by
    rw [List.foldlM_cons, bind_eq_ok] at hok
    obtain ⟨acc₁, hstep, hok⟩ := hok
    have hcut : done ++ p :: parts = done ++ [p] ++ parts := by simp
    have hnew : p.key ∉ done.map (·.key) := by
      rw [List.map_append, List.map_cons] at hnodup
      exact fun hin => List.disjoint_of_nodup_append hnodup hin List.mem_cons_self
    have h₁ := collectPart_collects hp (hne p List.mem_cons_self) h hnew hstep
    rw [hcut] at hnodup ⊢
    exact foldlM_collects hrest (List.forall_mem_cons.1 hne).2 hnodup h₁ hok

end Collect

/-! ## A rewritten segment -/

namespace Snapshot
variable {c : Codecs O D R} {st : Stmt} {s : Snapshot c} {encoded : EncodedSnapshot O}

def rewrite (s : Snapshot c) (st : Stmt) (h : ∀ p ∈ s.parts, p.Kept c st) : Snapshot c where
  offsets := s.offsets
  createdAt := s.createdAt
  parts := s.parts.map (Part.rewrite c st)
  sorted := by
    rw [List.map_map]
    exact s.sorted
  nonempty := by
    exact List.forall_mem_map.2 fun q hq => WalPayload.rewrite_nonempty (h q hq) (s.nonempty q hq)
  summarized := by
    exact List.forall_mem_map.2 fun q hq => s.summarized q hq

theorem rewrite_index (h : ∀ p ∈ s.parts, p.Kept c st) : (s.rewrite st h).index = s.index :=
  layout_rewrite _ _ h

theorem rewrite_fits (hfits : s.Fits) (h : ∀ p ∈ s.parts, p.Kept c st) : (s.rewrite st h).Fits where
  bytes := by
    have hlen := hfits.bytes
    rw [length_bytes] at hlen ⊢
    rw [rewrite, length_flatMap_rewrite h]
    exact hlen
  parts := by
    rw [rewrite, List.length_map]
    exact hfits.parts

theorem nodup_keys (s : Snapshot c) : (s.parts.map (·.key)).Nodup :=
  s.sorted.imp fun hlt => ne_of_lt hlt

theorem sortedKeys_eq {got : Collected D} (h : Collects c st got s.parts) (offsets : O)
    (createdAt : UInt64) :
    sortedKeys ⟨offsets, got.batches, got.partitionsMeta, got.partMetaBlobs, createdAt⟩ =
      s.parts.map (·.key) := by
  have hmem : ∀ k, k ∈ got.batches.keys ↔ k ∈ s.parts.map (·.key) := by
    intro k
    rw [Map.mem_keys_iff]
    constructor
    · exact h.keys k
    · intro hk
      obtain ⟨p, hp, rfl⟩ := List.mem_map.1 hk
      rw [h.payload p hp]
      exact Option.some_ne_none _
  have hperm : (sortedKeys ⟨offsets, got.batches, got.partitionsMeta, got.partMetaBlobs,
      createdAt⟩ : List PartitionKey).Perm (s.parts.map (·.key)) :=
    (List.perm_insertionSort _ _).trans
      ((List.perm_ext_iff_of_nodup (AList.keys_nodup _) s.nodup_keys).2 hmem)
  refine List.Perm.eq_of_pairwise ?_ (List.pairwise_insertionSort (· ≤ ·) _)
    (s.sorted.imp le_of_lt) hperm
  exact fun _ _ _ _ hab hba => le_antisymm hab hba

theorem collects_of_ok (hfits : s.Fits) {result : Option (EncodedSnapshot O)}
    (h : rewriteWalBytes c s.bytes st = .ok result) :
    ∃ got, Collects c st got s.parts ∧
      (if got.mutated = false then Except.ok none
        else match encodeSnapshot c
          ⟨s.offsets, got.batches, got.partitionsMeta, got.partMetaBlobs, s.createdAt⟩ with
        | .error e => .error (.segment e)
        | .ok encoded => .ok (some encoded)) = (.ok result : Except RewriteError _) := by
  rw [rewriteWalBytes, readMetadataFromBytes_bytes hfits] at h
  dsimp only [metadata] at h
  split at h
  · cases h
  · rename_i got hgot
    refine ⟨got, ?_, h⟩
    have hstart : Collects c st (⟨∅, ∅, ∅, false⟩ : Collected D) [] :=
      ⟨by simp, by simp, by simp, by simp, by simp, by simp, by simp⟩
    simpa using foldlM_collects s.finds s.nonempty (by simpa using s.nodup_keys) hstart hgot

theorem rewriteWalBytes_some (hfits : s.Fits) (hkept : ∀ p ∈ s.parts, p.Kept c st)
    (h : rewriteWalBytes c s.bytes st = .ok (some encoded)) :
    encoded = ⟨(s.rewrite st hkept).bytes, (s.rewrite st hkept).metadata,
      c.sha256 (s.rewrite st hkept).body⟩ := by
  obtain ⟨got, hgot, hresult⟩ := collects_of_ok hfits h
  have hkeys := sortedKeys_eq hgot s.offsets s.createdAt
  have hwritten : encodeSnapshot c
      ⟨s.offsets, got.batches, got.partitionsMeta, got.partMetaBlobs, s.createdAt⟩ =
      .ok ⟨(s.rewrite st hkept).bytes, (s.rewrite st hkept).metadata,
        c.sha256 (s.rewrite st hkept).body⟩ := by
    apply encodeSnapshot_eq (rewrite_fits hfits hkept) rfl rfl
    apply SnapshotMaps.parts_eq
    · rw [hkeys, rewrite, List.map_map]
      rfl
    · intro p hp
      have hne := (s.rewrite st hkept).nonempty p hp
      obtain ⟨q, hq, rfl⟩ := List.mem_map.1 hp
      have hbytes := congrArg (·.getD (0, s.createdAt)) (hgot.bytes q hq)
      exact part?_eq_some.2 ⟨rfl, hgot.payload q hq, hne, hbytes, hgot.metaBlob q hq⟩
  rw [hwritten] at hresult
  split at hresult
  · cases hresult
  · exact (Option.some.inj (Except.ok.inj hresult)).symm

theorem exists_of_some (hfits : s.Fits) (h : rewriteWalBytes c s.bytes st = .ok (some encoded)) :
    ∃ p ∈ s.parts, p.key.ns = st.ns := by
  obtain ⟨got, hgot, hresult⟩ := collects_of_ok hfits h
  split at hresult
  · cases hresult
  · rename_i hmutated
    exact hgot.loud (Bool.eq_true_of_not_eq_false hmutated)

theorem rewriteWalBytes_none (hfits : s.Fits) (h : rewriteWalBytes c s.bytes st = .ok none) :
    ∀ p ∈ s.parts, p.key.ns ≠ st.ns := by
  obtain ⟨got, hgot, hresult⟩ := collects_of_ok hfits h
  split at hresult
  · rename_i hmutated
    exact hgot.quiet hmutated
  · split at hresult
    · cases hresult
    · cases hresult

variable {e : IndexEntry}

theorem exists_part (he : e ∈ s.index) : ∃ p, (e, p) ∈ s.index.zip s.parts := by
  have hfst : (s.index.zip s.parts).map Prod.fst = s.index :=
    List.map_fst_zip (Nat.le_of_eq s.length_index)
  rw [← hfst] at he
  obtain ⟨⟨e, p⟩, hmem, rfl⟩ := List.mem_map.1 he
  exact ⟨p, hmem⟩

theorem rewrite_slices (hkept : ∀ p ∈ s.parts, p.Kept c st) (checked : Bool) (he : e ∈ s.index) :
    decodeSlice c checked (s.rewrite st hkept).bytes e =
        (decodeSlice c checked s.bytes e).map (Rows.rewrite st e.key.ns) ∧
      readPartMeta (s.rewrite st hkept).bytes e = readPartMeta s.bytes e := by
  obtain ⟨p, hmem⟩ := exists_part he
  have hold : Finds c s.bytes e p := List.forall₂_zip s.finds hmem
  have hnew : Finds c (s.rewrite st hkept).bytes e (p.rewrite c st) := by
    have hall := (s.rewrite st hkept).finds
    rw [rewrite_index] at hall
    exact List.forall₂_zip (List.forall₂_map_right_iff.1 hall) hmem
  have hp := hkept p (List.of_mem_zip hmem).2
  refine ⟨?_, ?_⟩
  · rw [hnew.decode, hold.decode, hold.key]
    exact WalPayload.rewrite_rows hp
  · rw [readPartMeta, readPartMeta, hnew.partMeta, hold.partMeta]
    rfl

theorem slices_of_none (hfits : s.Fits) (h : rewriteWalBytes c s.bytes st = .ok none)
    (checked : Bool) (he : e ∈ s.index) :
    decodeSlice c checked s.bytes e =
      (decodeSlice c checked s.bytes e).map (Rows.rewrite st e.key.ns) := by
  obtain ⟨p, hmem⟩ := exists_part he
  have hfinds : Finds c s.bytes e p := List.forall₂_zip s.finds hmem
  have hns : e.key.ns ≠ st.ns := by
    rw [hfinds.key]
    exact rewriteWalBytes_none hfits h p (List.of_mem_zip hmem).2
  cases decodeSlice c checked s.bytes e with
  | none => rfl
  | some rows =>
    cases rows with
    | arrow stream => simp [Rows.rewrite, hns]
    | copy records => rfl

end Snapshot

end Skippr.L3
