import Skippr.L3Wal.PayloadGc
import Skippr.L3Wal.RewriteWal

/-!
# A migration over the live WAL

`apply_with` runs `rewrite_live_wal` once for each statement of a migration and
records the phase `WalRewritten` behind the last one (src/migration/apply.rs); a
crash before that runs every statement again. For each live segment the rewrite
stores a second payload, points the segment row at it and drops the first
(src/migration/wal.rs). The Index row of the segment and the slice references of
compaction rows keep the byte ranges of the payload they were made for.
-/
namespace Skippr.L3.RewriteLive

open Skippr.L1 (SegmentId)
open Skippr.L2 (Bytes)
open Payload (PayloadLocation rewrittenLocation)

variable {O D R : Type}

/-! ## Passes over the statements -/

def applyAll (stmts : List Stmt) (ns : Text) (rows : Rows D R) : Rows D R :=
  stmts.foldl (fun rows st => st.apply ns rows) rows

def rewriteAll (stmts : List Stmt) (ns : Text) (rows : Rows D R) : Rows D R :=
  stmts.foldl (fun rows st => rows.rewrite st ns) rows

def rewriteFields (ns : Text) (stmts : List Stmt) (f : Field) : Field :=
  stmts.foldl (fun f st => if ns = st.ns then rewriteField st f else f) f

def Passes (migration applied : List Stmt) : Prop :=
  ∃ cuts : List Nat, applied = cuts.flatMap fun k => migration.take k

/-- What a column must be for a migration to alter it once, however often it
runs: no statement drops it under any name it is given, and a pass after a cut
pass ends where a pass alone ends. -/
structure Benign (migration : List Stmt) (ns : Text) (f : Field) : Prop where
  undropped : ∀ stmts ⊆ migration, ∀ st ∈ migration, ∀ column, ns = st.ns → st.op = .drop column →
    st.names (rewriteFields ns stmts f) = false
  rerun : ∀ stmts ⊆ migration, ∀ k,
    rewriteFields ns migration (rewriteFields ns (migration.take k) (rewriteFields ns stmts f)) =
      rewriteFields ns migration (rewriteFields ns stmts f)

variable {migration stmts applied : List Stmt} {ns : Text}

theorem rewriteFields_append (ns : Text) (l l' : List Stmt) (f : Field) :
    rewriteFields ns (l ++ l') f = rewriteFields ns l' (rewriteFields ns l f) := List.foldl_append

theorem Passes.nil : Passes migration [] := ⟨[], rfl⟩

theorem Passes.append_take (h : Passes migration applied) (k : Nat) :
    Passes migration (applied ++ migration.take k) := by
  obtain ⟨cuts, rfl⟩ := h
  exact ⟨cuts ++ [k], by simp⟩

theorem Passes.subset (h : Passes migration applied) : applied ⊆ migration := by
  obtain ⟨cuts, rfl⟩ := h
  intro st hst
  obtain ⟨k, -, hk⟩ := List.mem_flatMap.1 hst
  exact List.mem_of_mem_take hk

theorem Benign.singleton {st : Stmt} {f : Field} (h : ∀ column, st.op ≠ .drop column) :
    Benign [st] ns f where
  undropped := by
    intro stmts _ st' hst' column _ hop
    obtain rfl := List.mem_singleton.1 hst'
    exact absurd hop (h column)
  rerun := by
    intro stmts _ k
    generalize rewriteFields ns stmts f = g
    cases k with
    | zero => rfl
    | succ k =>
      simp only [rewriteFields, List.take_succ_cons, List.take_nil, List.foldl_cons, List.foldl_nil]
      split
      · exact rewriteField_idem st g
      · rfl

theorem rewriteAll_copy (stmts : List Stmt) (ns : Text) (records : List R) :
    rewriteAll stmts ns (.copy records : Rows D R) = .copy records := by
  induction stmts with
  | nil => rfl
  | cons st stmts ih => exact ih

theorem rewriteAll_arrow (ns : Text) (s : ArrowStream D) : ∀ stmts : List Stmt,
    rewriteAll stmts ns (.arrow s : Rows D R) = .arrow (s.mapFields (rewriteFields ns stmts)) := by
  intro stmts
  induction stmts using List.reverseRecOn with
  | nil => exact congrArg Rows.arrow s.mapFields_id.symm
  | append_singleton stmts st ih =>
    rw [rewriteAll, List.foldl_append]
    change Rows.rewrite st ns (rewriteAll stmts ns (.arrow s)) = _
    rw [ih]
    by_cases hns : ns = st.ns
    · rw [Rows.rewrite, if_pos hns, ArrowStream.rewrite, ArrowStream.mapFields_mapFields]
      refine congrArg Rows.arrow (ArrowStream.mapFields_congr fun f _ => ?_)
      rw [rewriteFields_append]
      simp [rewriteFields, hns]
    · rw [Rows.rewrite, if_neg hns]
      refine congrArg Rows.arrow (ArrowStream.mapFields_congr fun f _ => ?_)
      rw [rewriteFields_append]
      simp [rewriteFields, hns]

def BenignRows (migration : List Stmt) (ns : Text) (rows : Rows D R) : Prop :=
  ∀ s, rows = .arrow s → ∀ f ∈ s.schema, Benign migration ns f

theorem applyAll_eq_rewriteAll {rows : Rows D R} (h : BenignRows migration ns rows) :
    ∀ stmts ⊆ migration, applyAll stmts ns rows = rewriteAll stmts ns rows := by
  intro stmts
  induction stmts using List.reverseRecOn with
  | nil => exact fun _ => rfl
  | append_singleton stmts st ih =>
    intro hsub
    have hst : st ∈ migration := hsub (List.mem_append_right _ (List.mem_singleton.2 rfl))
    have hstmts : stmts ⊆ migration := fun x hx => hsub (List.mem_append_left _ hx)
    rw [applyAll, rewriteAll, List.foldl_append, List.foldl_append]
    change st.apply ns (applyAll stmts ns rows) = (rewriteAll stmts ns rows).rewrite st ns
    rw [ih hstmts]
    apply Stmt.apply_eq_rewrite
    intro s column hrows hns hop f hf
    cases rows with
    | copy records =>
      rw [rewriteAll_copy] at hrows
      cases hrows
    | arrow s₀ =>
      rw [rewriteAll_arrow] at hrows
      obtain rfl := Rows.arrow.inj hrows
      obtain ⟨f₀, hf₀, rfl⟩ := List.mem_map.1 hf
      exact (h s₀ rfl f₀ hf₀).undropped stmts hstmts st hst column hns hop

theorem rewriteAll_rerun {rows : Rows D R} (h : BenignRows migration ns rows)
    (happlied : Passes migration applied) :
    rewriteAll (applied ++ migration) ns rows = rewriteAll migration ns rows := by
  cases rows with
  | copy records => rw [rewriteAll_copy, rewriteAll_copy]
  | arrow s =>
    rw [rewriteAll_arrow, rewriteAll_arrow]
    refine congrArg Rows.arrow (ArrowStream.mapFields_congr fun f hf => ?_)
    obtain ⟨cuts, rfl⟩ := happlied
    rw [rewriteFields_append]
    induction cuts using List.reverseRecOn with
    | nil => rfl
    | append_singleton cuts k ih =>
      have hsub : (cuts.flatMap fun k => migration.take k) ⊆ migration := Passes.subset ⟨cuts, rfl⟩
      rw [List.flatMap_append, List.flatMap_singleton, rewriteFields_append,
        (h s rfl f hf).rerun _ hsub k, ih]

/-! ## The machine -/

/-- mirrors crates/skippr-wal-catalog/src/row.rs:164-176 -/
structure SegmentRow where
  location : PayloadLocation
  payloadLen : Nat
  payloadSha256 : Bytes
  version : Nat
deriving DecidableEq, Repr

/-- A slice reference of a compaction row.
mirrors src/buffer/compaction_transaction.rs:114-123 -/
structure WalPartRef where
  segment : SegmentId
  start : Nat
  len : Nat
  key : PartitionKey
deriving DecidableEq

abbrev Segs := List (SegmentId × SegmentRow)

/-- Where the task stands: the statements that are left, the first of them being
worked on, and the segment rows its loop has left. -/
inductive Pc (O : Type)
  /-- Not running: returned, or crashed. -/
  | idle
  | scanning (stmts : List Stmt) (segs : Segs)
  /-- The new payload is stored, the row still names the old one. -/
  | written (st : Stmt) (stmts : List Stmt) (id : SegmentId) (row : SegmentRow)
      (encoded : EncodedSnapshot O) (segs : Segs)
  /-- The row names the new payload, the old one is still stored. -/
  | replaced (st : Stmt) (stmts : List Stmt) (id : SegmentId) (row : SegmentRow) (segs : Segs)

structure St (O : Type) where
  rows : Map SegmentId SegmentRow
  index : Map SegmentId (List IndexEntry)
  /-- The references of each unfinished compaction row. -/
  compactions : List (List WalPartRef)
  payloads : Map PayloadLocation Bytes
  /-- The journal has the phase `WalRewritten`. -/
  walRewritten : Bool
  pc : Pc O

inductive Label
  | start
  | step
  | unreadable
  /-- The old payload cannot be deleted; the failure is logged. -/
  | dropFails
  /-- A crash, or an error that ends the call. -/
  | crash
deriving DecidableEq, Repr

section Step
variable (c : Codecs O D R) (migration : List Stmt)

/-- mirrors src/buffer/wal_handle.rs:1398-1423 -/
def payloadBytes (payloads : Map PayloadLocation Bytes) (row : SegmentRow) : Option Bytes :=
  (payloads.get row.location).bind fun bytes =>
    match verifyBodyChecksum c bytes with
    | .error _ => none
    | .ok claimed => if claimed = row.payloadSha256 then some bytes else none

/-- A file that cannot be read is passed over, an object that cannot be read is
an error.
mirrors wal.rs:88-138 -/
def rewriteSegmentRow (payloads : Map PayloadLocation Bytes) (st : Stmt) (row : SegmentRow) :
    Except RewriteError (Option (EncodedSnapshot O)) :=
  match row.location with
  | .disk _ =>
    match payloads.get row.location with
    | none => .ok none
    | some bytes => rewriteWalBytes c bytes st
  | .s3 .. =>
    match payloadBytes c payloads row with
    | none => .error .payload
    | some bytes => rewriteWalBytes c bytes st

/-- mirrors wal_handle.rs:1075-1106 -/
def SegmentRow.replacePayload (row : SegmentRow) (location : PayloadLocation)
    (encoded : EncodedSnapshot O) : SegmentRow where
  location := location
  payloadLen := encoded.metadata.totalBytes
  payloadSha256 := encoded.sha256
  version := row.version + 1

/-- A file's index is read again once the row names it.
mirrors wal.rs:278-285 -/
def reregisters (payloads : Map PayloadLocation Bytes) : PayloadLocation → Bool
  | .s3 .. => true
  | .disk path =>
    match payloads.get (.disk path) with
    | none => false
    | some bytes => (readMetadataFromBytes c bytes).isOk

/-- The next durable effect of the task.
mirrors wal.rs:69-310, apply.rs:151-183 -/
def advance (s : St O) : Option (St O) :=
  match s.pc with
  | .idle => none
  | .scanning [] _ => some { s with walRewritten := true, pc := .idle }
  | .scanning (_ :: stmts) [] => some { s with pc := .scanning stmts s.rows.toList }
  | .scanning (st :: stmts) ((id, row) :: segs) =>
    match rewriteSegmentRow c s.payloads st row with
    | .error _ => some { s with pc := .idle }
    | .ok none => some { s with pc := .scanning (st :: stmts) segs }
    | .ok (some encoded) => some { s with
        payloads := s.payloads.insert (rewrittenLocation id row.location) encoded.bytes
        pc := .written st stmts id row encoded segs }
  | .written st stmts id row encoded segs =>
    match s.rows.get id with
    | none => some { s with pc := .idle }
    | some current => some { s with
        rows := s.rows.insert id (current.replacePayload (rewrittenLocation id row.location) encoded)
        pc := .replaced st stmts id row segs }
  | .replaced st stmts id row segs =>
    let payloads := if row.location = rewrittenLocation id row.location then s.payloads
      else s.payloads.erase row.location
    some { s with
      payloads := payloads
      pc := if reregisters c payloads (rewrittenLocation id row.location) then
          .scanning (st :: stmts) segs else .idle }

def step (s : St O) : Label → Option (St O)
  | .start =>
    match s.pc with
    | .idle =>
      if s.walRewritten then none else some { s with pc := .scanning migration s.rows.toList }
    | _ => none
  | .step => advance c s
  | .unreadable =>
    match s.pc with
    | .scanning (st :: stmts) ((_, row) :: segs) =>
      match row.location with
      | .disk _ => some { s with pc := .scanning (st :: stmts) segs }
      | .s3 .. => some { s with pc := .idle }
    | _ => none
  | .dropFails =>
    match s.pc with
    | .replaced st stmts id row segs => some { s with
        pc := if reregisters c s.payloads (rewrittenLocation id row.location) then
          .scanning (st :: stmts) segs else .idle }
    | _ => none
  | .crash =>
    match s.pc with
    | .idle => none
    | _ => some { s with pc := .idle }

/-! ## What is read -/

def isS3 : PayloadLocation → Bool
  | .disk _ => false
  | .s3 .. => true

def St.readSlice (s : St O) (id : SegmentId) (e : IndexEntry) :
    Option (Rows D R) := do
  let row ← s.rows.get id
  let bytes ← s.payloads.get row.location
  decodeSlice c (isS3 row.location) bytes e

def St.readMeta (s : St O) (id : SegmentId) (e : IndexEntry) : Option Bytes := do
  let row ← s.rows.get id
  let bytes ← s.payloads.get row.location
  return readPartMeta bytes e

/-- The entry a slice reference stands for.
mirrors src/buffer/ingest_buffer.rs:2252-2254 -/
def St.refEntry (s : St O) (r : WalPartRef) : Option IndexEntry :=
  (s.index.get r.segment).bind fun entries =>
    entries.find? fun e => e.start = r.start ∧ e.len = r.len ∧ e.key = r.key

end Step

/-- A catalog of live segments: every row names a payload with its digest, the
Index row is the payload's index, every reference is an entry of a live segment,
and no segment's payload is stored where another's is or will be. -/
structure Init (c : Codecs O D R) (s : St O) : Prop where
  idle : s.pc = .idle
  pending : s.walRewritten = false
  stored : ∀ id row, s.rows.get id = some row → ∃ bytes found,
    s.payloads.get row.location = some bytes ∧
    verifyBodyChecksum c bytes = .ok row.payloadSha256 ∧
    readMetadataFromBytes c bytes = .ok found ∧ s.index.get id = some found.index
  apart : ∀ id id' row row', s.rows.get id = some row → s.rows.get id' = some row' → id ≠ id' →
    ∀ i j, (rewrittenLocation id)^[i] row.location ≠ (rewrittenLocation id')^[j] row'.location
  refs : ∀ refs ∈ s.compactions, ∀ r ∈ refs, s.rows.get r.segment ≠ none ∧ (s.refEntry r).isSome

def system (c : Codecs O D R) (migration : List Stmt) : LTS (St O) Label :=
  LTS.ofFn (Init c) (step c migration)

/-- Which operations the rows have been through: once the migration is over,
each of its statements; before, some passes over them. -/
def Through (migration : List Stmt) (s : St O) (applied : List Stmt) : Prop :=
  if s.walRewritten then applied = migration else Passes migration applied

/-- The slice reads the rows it read in `s₀`, with the operations applied, and
the metadata it read there. -/
structure SliceKept (c : Codecs O D R) (s₀ s : St O) (applied : List Stmt) (id : SegmentId)
    (e : IndexEntry) : Prop where
  rows : s.readSlice c id e = (s₀.readSlice c id e).map (applyAll applied e.key.ns)
  partMeta : s.readMeta id e = s₀.readMeta id e

/-- The catalog reads what it read in `s₀`, with the operations applied. -/
structure Consistent (c : Codecs O D R) (migration : List Stmt) (s₀ s : St O) : Prop where
  digest : ∀ id row, s.rows.get id = some row → ∃ bytes,
    s.payloads.get row.location = some bytes ∧ verifyBodyChecksum c bytes = .ok row.payloadSha256
  slices : ∀ id entries, s.rows.get id ≠ none → s.index.get id = some entries →
    ∃ applied, Through migration s applied ∧ ∀ e ∈ entries, SliceKept c s₀ s applied id e
  refs : ∀ refs ∈ s.compactions, ∀ r ∈ refs, ∃ applied e, Through migration s applied ∧
    s.refEntry r = some e ∧ SliceKept c s₀ s applied r.segment e

/-- What a step must meet. A payload that is visited is one that
`encode_snapshot` writes; if it has a part of the namespace, the new payload of
every part is as long as the old one. Every payload is read. A crash does not
fall between the overwriting of a payload by another and the update of its row. -/
def Steady (c : Codecs O D R) (s : St O) : Label → Prop
  | .step =>
    ∀ st stmts id row segs, s.pc = .scanning (st :: stmts) ((id, row) :: segs) →
      ∃ snap : Snapshot c, snap.Fits ∧ s.payloads.get row.location = some snap.bytes ∧
        ((∃ p ∈ snap.parts, p.key.ns = st.ns) → ∀ p ∈ snap.parts, p.Kept c st)
  | .unreadable => False
  | .crash =>
    ∀ st stmts id row encoded segs, s.pc = .written st stmts id row encoded segs →
      rewrittenLocation id row.location = row.location → encoded.sha256 = row.payloadSha256
  | _ => True

/-! ## One payload -/

/-- `bytes` serves the entries of an index as `before` did, with statements
applied, under the digest `sha`. -/
structure Serves (c : Codecs O D R) (checked : Bool) (before bytes : Bytes)
    (index : List IndexEntry) (sha : Bytes) (applied : List Stmt) : Prop where
  digest : verifyBodyChecksum c bytes = .ok sha
  scanned : ∃ found, readMetadataFromBytes c bytes = .ok found ∧ found.index = index
  rows : ∀ e ∈ index, decodeSlice c checked bytes e =
    (decodeSlice c checked before e).map (rewriteAll applied e.key.ns)
  partMeta : ∀ e ∈ index, readPartMeta bytes e = readPartMeta before e

section Serves
variable {c : Codecs O D R} {checked : Bool} {before sha : Bytes} {index : List IndexEntry}
  {st : Stmt} {snap : Snapshot c} {encoded : EncodedSnapshot O}

theorem Serves.index_eq (h : Serves c checked before snap.bytes index sha applied) (hfits : snap.Fits) :
    index = snap.index := by
  obtain ⟨found, hfound, rfl⟩ := h.scanned
  rw [Snapshot.readMetadataFromBytes_bytes hfits] at hfound
  rw [← Except.ok.inj hfound]
  rfl

theorem map_rewriteAll_append (rows : Option (Rows D R)) :
    (rows.map (rewriteAll applied ns)).map (Rows.rewrite st ns) =
      rows.map (rewriteAll (applied ++ [st]) ns) := by
  rw [Option.map_map]
  congr 1
  funext r
  show Rows.rewrite st ns (rewriteAll applied ns r) = rewriteAll (applied ++ [st]) ns r
  simp only [rewriteAll, List.foldl_append, List.foldl_cons, List.foldl_nil]

theorem Serves.skipped (h : Serves c checked before snap.bytes index sha applied) (hfits : snap.Fits)
    (hskip : rewriteWalBytes c snap.bytes st = .ok none) :
    Serves c checked before snap.bytes index sha (applied ++ [st]) := by
  refine { h with rows := fun e he => ?_ }
  have hsame := Snapshot.slices_of_none hfits hskip checked (h.index_eq hfits ▸ he)
  rw [hsame, h.rows e he, map_rewriteAll_append]

theorem Serves.rewritten (h : Serves c checked before snap.bytes index sha applied) (hfits : snap.Fits)
    (hkept : ∀ p ∈ snap.parts, p.Kept c st)
    (hsome : rewriteWalBytes c snap.bytes st = .ok (some encoded)) :
    Serves c checked before encoded.bytes index encoded.sha256 (applied ++ [st]) := by
  have hindex := h.index_eq hfits
  obtain rfl := Snapshot.rewriteWalBytes_some hfits hkept hsome
  refine ⟨Snapshot.verifyBodyChecksum_bytes _,
    ⟨_, Snapshot.readMetadataFromBytes_bytes (Snapshot.rewrite_fits hfits hkept), ?_⟩, ?_, ?_⟩
  · rw [hindex]
    exact Snapshot.rewrite_index hkept
  · intro e he
    rw [(Snapshot.rewrite_slices hkept checked (hindex ▸ he)).1, h.rows e he, map_rewriteAll_append]
  · intro e he
    rw [(Snapshot.rewrite_slices hkept checked (hindex ▸ he)).2, h.partMeta e he]

end Serves

/-! ## Where the payloads are -/

theorem isS3_rewrittenLocation (id : SegmentId) (loc : PayloadLocation) :
    isS3 (rewrittenLocation id loc) = isS3 loc := by
  cases loc <;> rfl

theorem isS3_iterate (id : SegmentId) (loc : PayloadLocation) (k : Nat) :
    isS3 ((rewrittenLocation id)^[k] loc) = isS3 loc := by
  induction k with
  | zero => rfl
  | succ k ih => rw [Function.iterate_succ_apply', isS3_rewrittenLocation, ih]

def Place (s₀ : St O) (id : SegmentId) (loc : PayloadLocation) : Prop :=
  ∃ row₀, s₀.rows.get id = some row₀ ∧ ∃ k, loc = (rewrittenLocation id)^[k] row₀.location

structure Tracked (c : Codecs O D R) (s₀ : St O) (payloads : Map PayloadLocation Bytes)
    (id : SegmentId) (loc : PayloadLocation) (sha : Bytes) (applied : List Stmt) : Prop where
  place : Place s₀ id loc
  serves : ∃ before bytes index, payloads.get loc = some bytes ∧ s₀.index.get id = some index ∧
    (∀ row₀, s₀.rows.get id = some row₀ → s₀.payloads.get row₀.location = some before) ∧
    Serves c (isS3 loc) before bytes index sha applied

section Tracked
variable {c : Codecs O D R} {s₀ : St O} {payloads payloads' : Map PayloadLocation Bytes}
  {id id' : SegmentId} {loc loc' : PayloadLocation} {sha : Bytes}

theorem Tracked.frame (h : Tracked c s₀ payloads id loc sha applied)
    (hget : payloads'.get loc = payloads.get loc) : Tracked c s₀ payloads' id loc sha applied := by
  obtain ⟨hplace, before, bytes, index, hbytes, hrest⟩ := h
  exact ⟨hplace, before, bytes, index, hget.trans hbytes, hrest⟩

theorem Place.ne (hinit : Init c s₀) (h : Place s₀ id loc) (h' : Place s₀ id' loc')
    (hid : id ≠ id') : loc ≠ loc' := by
  obtain ⟨row₀, hrow₀, k, rfl⟩ := h
  obtain ⟨row₀', hrow₀', k', rfl⟩ := h'
  exact hinit.apart id id' row₀ row₀' hrow₀ hrow₀' hid k k'

variable {snap : Snapshot c} {st : Stmt} {encoded : EncodedSnapshot O}

theorem Tracked.skipped (h : Tracked c s₀ payloads id loc sha applied)
    (hbytes : payloads.get loc = some snap.bytes) (hfits : snap.Fits)
    (hskip : rewriteWalBytes c snap.bytes st = .ok none) :
    Tracked c s₀ payloads id loc sha (applied ++ [st]) := by
  obtain ⟨hplace, before, bytes, index, hget, hindex, hbefore, hserves⟩ := h
  cases hbytes.symm.trans hget
  exact ⟨hplace, before, _, index, hget, hindex, hbefore, hserves.skipped hfits hskip⟩

theorem Tracked.rewritten (h : Tracked c s₀ payloads id loc sha applied)
    (hbytes : payloads.get loc = some snap.bytes) (hfits : snap.Fits)
    (hkept : ∀ p ∈ snap.parts, p.Kept c st)
    (hsome : rewriteWalBytes c snap.bytes st = .ok (some encoded)) :
    Tracked c s₀ (payloads.insert (rewrittenLocation id loc) encoded.bytes) id
      (rewrittenLocation id loc) encoded.sha256 (applied ++ [st]) := by
  obtain ⟨⟨row₀, hrow₀, k, hk⟩, before, bytes, index, hget, hindex, hbefore, hserves⟩ := h
  cases hbytes.symm.trans hget
  refine ⟨⟨row₀, hrow₀, k + 1, by rw [Function.iterate_succ_apply', hk]⟩, before, encoded.bytes, index,
    ?_, hindex, hbefore, ?_⟩
  · rw [Map.get_insert, if_pos rfl]
  · rw [isS3_rewrittenLocation]
    exact hserves.rewritten hfits hkept hsome

end Tracked

/-! ## The invariant -/

namespace Pc

def segs : Pc O → Segs
  | idle => []
  | scanning _ segs => segs
  | written _ _ _ _ _ segs => segs
  | replaced _ _ _ _ segs => segs

def left : Pc O → List Stmt
  | idle => []
  | scanning stmts _ => stmts
  | written st stmts _ _ _ _ => st :: stmts
  | replaced st stmts _ _ _ => st :: stmts

def pending : Pc O → List SegmentId
  | idle => []
  | scanning _ segs => segs.map Prod.fst
  | written _ _ id _ _ segs => id :: segs.map Prod.fst
  | replaced _ _ _ _ segs => segs.map Prod.fst

def isIdle : Pc O → Bool
  | idle => true
  | _ => false

theorem eq_idle {pc : Pc O} (h : pc.isIdle = true) : pc = idle := by
  cases pc with
  | idle => rfl
  | scanning _ _ | written _ _ _ _ _ _ | replaced _ _ _ _ _ => cases h

def Overwrites : Pc O → SegmentId → Prop
  | written _ _ id row _ _, id' => id' = id ∧ rewrittenLocation id row.location = row.location
  | _, _ => False

end Pc

def Under (migration left : List Stmt) (visited : Prop) (applied : List Stmt) : Prop :=
  ∃ done earlier, migration = done ++ left ∧ Passes migration earlier ∧
    ((¬ visited ∧ applied = earlier ++ done) ∨
      (visited ∧ applied = earlier ++ (done ++ left.head?.toList)))

def Rested (migration : List Stmt) (ended : Bool) (applied : List Stmt) : Prop :=
  Passes migration applied ∧
    (ended = true → ∃ earlier, Passes migration earlier ∧ applied = earlier ++ migration)

def Progress (migration : List Stmt) (pc : Pc O) (ended : Bool) (id : SegmentId)
    (applied : List Stmt) : Prop :=
  match pc with
  | .idle => Rested migration ended applied
  | pc => Under migration pc.left (id ∉ pc.pending) applied

structure Static (s₀ : St O) (rows : Map SegmentId SegmentRow) (index : Map SegmentId (List IndexEntry))
    (compactions : List (List WalPartRef)) : Prop where
  live : ∀ id, rows.get id = none ↔ s₀.rows.get id = none
  index : index = s₀.index
  compactions : compactions = s₀.compactions

/-- What holds of the payloads between the writing of one and the dropping of
the other. -/
def PcOk (c : Codecs O D R) (migration : List Stmt) (s₀ : St O) (rows : Map SegmentId SegmentRow)
    (payloads : Map PayloadLocation Bytes) : Pc O → Prop
  | .idle => True
  | .scanning _ _ => True
  | .written st stmts id row encoded _ => rows.get id = some row ∧ ∃ applied,
      Tracked c s₀ payloads id (rewrittenLocation id row.location) encoded.sha256 (applied ++ [st]) ∧
      Under migration (st :: stmts) False applied ∧ Place s₀ id row.location
  | .replaced _ _ id row _ => Place s₀ id row.location ∧
      ∃ current, rows.get id = some current ∧ current.location = rewrittenLocation id row.location

/-- The row and the payload of every live segment belong together, and the
payload has been through whole statements. -/
structure Inv (c : Codecs O D R) (migration : List Stmt) (s₀ s : St O) : Prop where
  static : Static s₀ s.rows s.index s.compactions
  running : s.pc ≠ .idle → s.walRewritten = false
  current : ∀ x ∈ s.pc.segs, s.rows.get x.1 = some x.2
  nodup : s.pc.pending.Nodup
  pcOk : PcOk c migration s₀ s.rows s.payloads s.pc
  tracked : ∀ id row, s.rows.get id = some row → ¬ s.pc.Overwrites id → ∃ applied,
    Tracked c s₀ s.payloads id row.location row.payloadSha256 applied ∧
    Progress migration s.pc s.walRewritten id applied

theorem Under.rested {left : List Stmt} {visited : Prop} (h : Under migration left visited applied) :
    Rested migration false applied := by
  obtain ⟨done, earlier, rfl, hearlier, ⟨-, rfl⟩ | ⟨-, rfl⟩⟩ := h
  · refine ⟨?_, fun hended => by cases hended⟩
    have := hearlier.append_take done.length
    rwa [List.take_left] at this
  · refine ⟨?_, fun hended => by cases hended⟩
    cases left with
    | nil =>
      have := hearlier.append_take done.length
      rw [List.take_left] at this
      simpa using this
    | cons st stmts =>
      have := hearlier.append_take (done.length + 1)
      rwa [List.take_length_add_append] at this

section Step
variable {c : Codecs O D R} {s₀ s s' : St O}

theorem init_inv (h : Init c s₀) : Inv c migration s₀ s₀ where
  static := ⟨fun _ => Iff.rfl, rfl, rfl⟩
  running := fun hne => absurd h.idle hne
  current := by
    rw [h.idle]
    exact fun x hx => absurd hx List.not_mem_nil
  nodup := by
    rw [h.idle]
    exact List.nodup_nil
  pcOk := by
    rw [h.idle]
    exact trivial
  tracked := by
    intro id row hrow _
    obtain ⟨bytes, found, hbytes, hdigest, hfound, hindex⟩ := h.stored id row hrow
    refine ⟨[], ⟨⟨row, hrow, 0, rfl⟩, bytes, bytes, found.index, hbytes, hindex, ?_, ?_⟩, ?_⟩
    · intro row₀ hrow₀
      rw [hrow] at hrow₀
      rw [← Option.some.inj hrow₀]
      exact hbytes
    · exact ⟨hdigest, ⟨found, hfound, rfl⟩,
        fun e _ => Option.map_id'.symm, fun e _ => rfl⟩
    · rw [h.idle, h.pending]
      exact ⟨.nil, fun hended => by cases hended⟩

theorem rewriteSegmentRow_ok {payloads : Map PayloadLocation Bytes} {st : Stmt} {row : SegmentRow}
    {bytes : Bytes} {result : Option (EncodedSnapshot O)} (hbytes : payloads.get row.location = some bytes)
    (h : rewriteSegmentRow c payloads st row = .ok result) : rewriteWalBytes c bytes st = .ok result := by
  unfold rewriteSegmentRow at h
  split at h
  · rwa [hbytes] at h
  · split at h
    · cases h
    · rename_i got hgot
      simp only [payloadBytes, hbytes, Option.bind_some] at hgot
      split at hgot
      · cases hgot
      · split at hgot
        · rwa [Option.some.inj hgot]
        · cases hgot

theorem progress_eq {pc : Pc O} (hpc : pc ≠ .idle) (ended : Bool) (id : SegmentId) :
    Progress migration pc ended id applied = Under migration pc.left (id ∉ pc.pending) applied := by
  cases pc with
  | idle => exact absurd rfl hpc
  | scanning stmts segs | written st stmts id row encoded segs | replaced st stmts id row segs =>
    rfl

theorem mem_keys_of_get {id : SegmentId} {row : SegmentRow} (h : s.rows.get id = some row) :
    id ∈ s.rows.toList.map Prod.fst :=
  List.mem_map.2 ⟨(id, row), (Map.mem_toList _ _ _).2 h, rfl⟩

theorem Under.visit {st : Stmt} {stmts : List Stmt} (h : Under migration (st :: stmts) False applied)
    {visited : Prop} (hv : visited) : Under migration (st :: stmts) visited (applied ++ [st]) := by
  obtain ⟨done, earlier, hm, hearlier, ⟨-, rfl⟩ | ⟨hf, -⟩⟩ := h
  · exact ⟨done, earlier, hm, hearlier, .inr ⟨hv, by simp⟩⟩
  · exact absurd hf not_false

theorem Under.congr {left : List Stmt} {visited visited' : Prop} (h : Under migration left visited applied)
    (hiff : visited ↔ visited') : Under migration left visited' applied := by
  rwa [← propext hiff]

theorem St.exists_at {pc : Pc O} (h : s.pc = pc) : ∃ t : St O, s = { t with pc := pc } :=
  ⟨s, by rw [← h]⟩

theorem Inv.rest (h : Inv c migration s₀ s) (hpc : s.pc ≠ .idle)
    (hsha : ∀ st stmts id row encoded segs, s.pc = .written st stmts id row encoded segs →
      rewrittenLocation id row.location = row.location → encoded.sha256 = row.payloadSha256) :
    Inv c migration s₀ { s with pc := .idle } where
  static := h.static
  running := fun hne => absurd rfl hne
  current := fun x hx => absurd hx List.not_mem_nil
  nodup := List.nodup_nil
  pcOk := trivial
  tracked := by
    intro id row hrow _
    show ∃ applied, _ ∧ Rested migration s.walRewritten applied
    rw [h.running hpc]
    by_cases hover : s.pc.Overwrites id
    · cases hcase : s.pc with
      | written st stmts id' row' encoded segs =>
        obtain ⟨s, rfl⟩ := St.exists_at hcase
        obtain ⟨rfl, hplace⟩ := hover
        obtain ⟨hrow', applied, htracked, hunder, -⟩ := h.pcOk
        cases hrow.symm.trans hrow'
        rw [hplace, hsha _ _ _ _ _ _ rfl hplace] at htracked
        exact ⟨_, htracked, (hunder.visit trivial).rested⟩
      | idle | scanning stmts segs | replaced st stmts id' row' segs =>
        rw [hcase] at hover
        exact absurd hover not_false
    · obtain ⟨applied, htracked, hprogress⟩ := h.tracked id row hrow hover
      rw [progress_eq hpc] at hprogress
      exact ⟨applied, htracked, hprogress.rested⟩

theorem Inv.start (h : Inv c migration s₀ { s with pc := .idle }) (hended : s.walRewritten = false) :
    Inv c migration s₀ { s with pc := .scanning migration s.rows.toList } where
  static := h.static
  running _ := hended
  current x hx := (Map.mem_toList _ _ _).1 hx
  nodup := Map.nodup_toList _
  pcOk := trivial
  tracked := by
    intro id row hrow _
    obtain ⟨applied, htracked, hpasses, -⟩ := h.tracked id row hrow not_false
    exact ⟨applied, htracked, [], applied, rfl, hpasses,
      .inl ⟨fun hnot => hnot (mem_keys_of_get hrow), (List.append_nil _).symm⟩⟩

theorem Inv.nextStmt {st : Stmt} {stmts : List Stmt}
    (h : Inv c migration s₀ { s with pc := .scanning (st :: stmts) [] }) :
    Inv c migration s₀ { s with pc := .scanning stmts s.rows.toList } where
  static := h.static
  running _ := h.running (by simp)
  current x hx := (Map.mem_toList _ _ _).1 hx
  nodup := Map.nodup_toList _
  pcOk := trivial
  tracked := by
    intro id row hrow _
    obtain ⟨applied, htracked, done, earlier, hm, hearlier, ⟨hnot, -⟩ | ⟨-, happlied⟩⟩ :=
      h.tracked id row hrow not_false
    · exact absurd List.not_mem_nil hnot
    · exact ⟨applied, htracked, done ++ [st], earlier, by rw [hm]; simp [Pc.left], hearlier,
        .inl ⟨fun hnot => hnot (mem_keys_of_get hrow), happlied⟩⟩

theorem Inv.finish {segs : Segs} (h : Inv c migration s₀ { s with pc := .scanning [] segs }) :
    Inv c migration s₀ { s with walRewritten := true, pc := .idle } where
  static := h.static
  running hne := absurd rfl hne
  current x hx := absurd hx List.not_mem_nil
  nodup := List.nodup_nil
  pcOk := trivial
  tracked := by
    intro id row hrow _
    obtain ⟨applied, htracked, hprogress⟩ := h.tracked id row hrow not_false
    have hrested : Rested migration false applied := Under.rested hprogress
    obtain ⟨done, earlier, hm, hearlier, hcases⟩ := hprogress
    have hdone : migration = done := hm.trans (List.append_nil _)
    have happlied : applied = earlier ++ migration := by
      rw [hdone]
      rcases hcases with ⟨-, happlied⟩ | ⟨-, happlied⟩
      · exact happlied
      · simpa [Pc.left] using happlied
    exact ⟨applied, htracked, hrested.1, fun _ => ⟨earlier, hearlier, happlied⟩⟩

section Visit
variable {st : Stmt} {stmts : List Stmt} {id : SegmentId} {row : SegmentRow} {segs : Segs}
  {encoded : EncodedSnapshot O}

theorem Under.unvisited {ids : List SegmentId}
    (h : Under migration (st :: stmts) (id ∉ id :: ids) applied) :
    Under migration (st :: stmts) False applied :=
  h.congr (iff_false_intro fun hnot => hnot List.mem_cons_self)

theorem Under.other {ids : List SegmentId} {left : List Stmt} {id' : SegmentId} (hid : id' ≠ id)
    (h : Under migration left (id' ∉ id :: ids) applied) : Under migration left (id' ∉ ids) applied := by
  refine h.congr ?_
  rw [List.mem_cons, not_or]
  exact and_iff_right hid

theorem Inv.skip (h : Inv c migration s₀ { s with pc := .scanning (st :: stmts) ((id, row) :: segs) })
    (hthrough : ∀ applied, Tracked c s₀ s.payloads id row.location row.payloadSha256 applied →
      Tracked c s₀ s.payloads id row.location row.payloadSha256 (applied ++ [st])) :
    Inv c migration s₀ { s with pc := .scanning (st :: stmts) segs } where
  static := h.static
  running _ := h.running (by simp)
  current x hx := h.current x (List.mem_cons_of_mem _ hx)
  nodup := (List.nodup_cons.1 h.nodup).2
  pcOk := trivial
  tracked := by
    intro id' row' hrow' _
    obtain ⟨applied, htracked, hprogress⟩ := h.tracked id' row' hrow' not_false
    by_cases hid : id' = id
    · subst hid
      cases hrow'.symm.trans (h.current (id', row) List.mem_cons_self)
      exact ⟨_, hthrough applied htracked, (Under.unvisited hprogress).visit (List.nodup_cons.1 h.nodup).1⟩
    · exact ⟨applied, htracked, Under.other hid hprogress⟩

theorem Inv.write (hinit : Init c s₀)
    (h : Inv c migration s₀ { s with pc := .scanning (st :: stmts) ((id, row) :: segs) })
    (hthrough : ∀ applied, Tracked c s₀ s.payloads id row.location row.payloadSha256 applied →
      Tracked c s₀ (s.payloads.insert (rewrittenLocation id row.location) encoded.bytes) id
        (rewrittenLocation id row.location) encoded.sha256 (applied ++ [st])) :
    Inv c migration s₀ { s with
      payloads := s.payloads.insert (rewrittenLocation id row.location) encoded.bytes
      pc := .written st stmts id row encoded segs } := by
  have hrow : s.rows.get id = some row := h.current (id, row) List.mem_cons_self
  obtain ⟨applied, htracked, hprogress⟩ := h.tracked id row hrow not_false
  have hnew := hthrough applied htracked
  constructor
  case static => exact h.static
  case running => exact fun _ => h.running (by simp)
  case current => exact (List.forall_mem_cons.1 h.current).2
  case nodup => exact h.nodup
  case pcOk => exact ⟨hrow, applied, hnew, Under.unvisited hprogress, htracked.place⟩
  case tracked =>
    intro id' row' hrow' hover
    obtain ⟨applied', htracked', hprogress'⟩ := h.tracked id' row' hrow' not_false
    refine ⟨applied', htracked'.frame ?_, hprogress'⟩
    rw [Map.get_insert, if_neg]
    by_cases hid : id' = id
    · subst hid
      cases hrow'.symm.trans hrow
      exact fun hplace => hover ⟨rfl, hplace.symm⟩
    · exact htracked'.place.ne hinit hnew.place hid

theorem Inv.replace (h : Inv c migration s₀ { s with pc := .written st stmts id row encoded segs }) :
    Inv c migration s₀ { s with
      rows := s.rows.insert id (row.replacePayload (rewrittenLocation id row.location) encoded)
      pc := .replaced st stmts id row segs } := by
  obtain ⟨hrow, applied, hnew, hunder, hplace⟩ := h.pcOk
  have hout : id ∉ segs.map Prod.fst := (List.nodup_cons.1 h.nodup).1
  constructor
  case static =>
    refine ⟨fun id' => ?_, h.static.index, h.static.compactions⟩
    rw [← h.static.live, Map.get_insert]
    split
    · rename_i hid
      rw [hid, hrow]
      exact iff_of_false (Option.some_ne_none _) (Option.some_ne_none _)
    · rfl
  case running => exact fun _ => h.running (by simp)
  case current =>
    intro x hx
    rw [Map.get_insert, if_neg]
    · exact h.current x hx
    · exact fun heq => hout (heq ▸ List.mem_map_of_mem hx)
  case nodup => exact (List.nodup_cons.1 h.nodup).2
  case pcOk =>
    exact ⟨hplace, row.replacePayload (rewrittenLocation id row.location) encoded,
      by rw [Map.get_insert, if_pos rfl], rfl⟩
  case tracked =>
    intro id' row' hrow' _
    rcases Map.get_insert_cases hrow' with ⟨rfl, rfl⟩ | ⟨hid, hrow'⟩
    · exact ⟨_, hnew, hunder.visit hout⟩
    · obtain ⟨applied', htracked', hprogress'⟩ := h.tracked id' row' hrow' fun hover => hid hover.1
      exact ⟨applied', htracked', Under.other hid hprogress'⟩

theorem Inv.drop (hinit : Init c s₀)
    (h : Inv c migration s₀ { s with pc := .replaced st stmts id row segs })
    {payloads : Map PayloadLocation Bytes}
    (hpay : ∀ loc, loc ≠ row.location ∨ loc = rewrittenLocation id row.location →
      payloads.get loc = s.payloads.get loc) :
    Inv c migration s₀ { s with payloads := payloads, pc := .scanning (st :: stmts) segs } := by
  obtain ⟨hplace, current, hrow, hloc⟩ := h.pcOk
  refine ⟨h.static, fun _ => h.running (by simp), h.current, h.nodup, trivial, ?_⟩
  intro id' row' hrow' _
  obtain ⟨applied', htracked', hprogress'⟩ := h.tracked id' row' hrow' not_false
  refine ⟨applied', htracked'.frame (hpay _ ?_), hprogress'⟩
  by_cases hid : id' = id
  · subst hid
    cases hrow'.symm.trans hrow
    exact .inr hloc
  · exact .inl (htracked'.place.ne hinit hplace hid)

/-- A visit of a segment: an error ends the call, a segment without a part of
the namespace is passed over, any other is written anew. -/
theorem Inv.visit (hinit : Init c s₀)
    (h : Inv c migration s₀ { s with pc := .scanning (st :: stmts) ((id, row) :: segs) })
    (hok : Steady c { s with pc := .scanning (st :: stmts) ((id, row) :: segs) } .step)
    (hs : advance c { s with pc := .scanning (st :: stmts) ((id, row) :: segs) } = some s') :
    Inv c migration s₀ s' := by
  obtain ⟨snap, hfits, hbytes, hkept⟩ := hok st stmts id row segs rfl
  simp only [advance] at hs
  split at hs
  · cases hs
    exact h.rest nofun nofun
  · rename_i hresult
    cases hs
    have hskip := rewriteSegmentRow_ok hbytes hresult
    exact h.skip fun applied htracked => htracked.skipped hbytes hfits hskip
  · rename_i encoded hresult
    cases hs
    have hsome := rewriteSegmentRow_ok hbytes hresult
    exact h.write hinit fun applied htracked => htracked.rewritten hbytes hfits
      (hkept (Snapshot.exists_of_some hfits hsome)) hsome

theorem Inv.reregister (h : Inv c migration s₀ { s with pc := .scanning (st :: stmts) segs })
    (registered : Bool) : Inv c migration s₀
      { s with pc := if registered then .scanning (st :: stmts) segs else .idle } := by
  cases registered with
  | true => exact h
  | false => exact h.rest nofun nofun

end Visit

theorem inv_advance (hinit : Init c s₀) (h : Inv c migration s₀ s) (hok : Steady c s .step)
    (hs : advance c s = some s') : Inv c migration s₀ s' := by
  cases hpc : s.pc with
  | idle => simp [advance, hpc] at hs
  | scanning stmts segs =>
    obtain ⟨s, rfl⟩ := St.exists_at hpc
    cases stmts with
    | nil =>
      cases hs
      exact h.finish
    | cons st stmts =>
      cases segs with
      | nil =>
        cases hs
        exact h.nextStmt
      | cons x segs => exact h.visit hinit hok hs
  | written st stmts id row encoded segs =>
    obtain ⟨s, rfl⟩ := St.exists_at hpc
    simp only [advance, h.pcOk.1, Option.some.injEq] at hs
    subst hs
    exact h.replace
  | replaced st stmts id row segs =>
    obtain ⟨s, rfl⟩ := St.exists_at hpc
    cases hs
    refine Inv.reregister (s := { s with payloads := if row.location = rewrittenLocation id row.location
      then s.payloads else s.payloads.erase row.location }) (h.drop hinit fun loc hloc => ?_) _
    split
    · rfl
    · rename_i hmoved
      rw [Map.get_erase, if_neg]
      rcases hloc with hloc | rfl
      · exact hloc
      · exact fun heq => hmoved heq.symm

theorem inv_step (hinit : Init c s₀) (h : Inv c migration s₀ s) {l : Label} (hok : Steady c s l)
    (hs : step c migration s l = some s') : Inv c migration s₀ s' := by
  cases l with
  | start =>
    simp only [step] at hs
    split at hs
    · rename_i hpc
      obtain ⟨hended, rfl⟩ := of_guard_not hs
      obtain ⟨s, rfl⟩ := St.exists_at hpc
      exact h.start (Bool.eq_false_of_not_eq_true hended)
    · cases hs
  | step => exact inv_advance hinit h hok hs
  | unreadable => exact absurd hok not_false
  | dropFails =>
    simp only [step] at hs
    split at hs
    · rename_i st stmts id row segs hpc
      cases hs
      obtain ⟨s, rfl⟩ := St.exists_at hpc
      exact Inv.reregister (h.drop hinit fun _ _ => rfl) _
    · cases hs
  | crash =>
    simp only [step] at hs
    split at hs
    · cases hs
    · rename_i hne
      cases hs
      exact h.rest hne hok

theorem inv_run (hinit : Init c s₀) {ls : List Label}
    (hrun : ((system c migration).restrict (Steady c)).Run s₀ ls s) : Inv c migration s₀ s :=
  hrun.keeps (fun _ _ _ h hstep => inv_step hinit h hstep.1 hstep.2) (init_inv hinit)

/-! ## The catalog between calls -/

/-- Every column in a slice of the catalog is benign to the migration. -/
def BenignCatalog (c : Codecs O D R) (migration : List Stmt) (s₀ : St O) : Prop :=
  ∀ id entries, s₀.index.get id = some entries → ∀ e ∈ entries, ∀ rows,
    s₀.readSlice c id e = some rows → BenignRows migration e.key.ns rows

theorem Tracked.sliceKept {id : SegmentId} {row : SegmentRow} {entries : List IndexEntry}
    (h : Tracked c s₀ s.payloads id row.location row.payloadSha256 applied)
    (hrow : s.rows.get id = some row) (hentries : s₀.index.get id = some entries) {e : IndexEntry}
    (he : e ∈ entries) :
    s.readSlice c id e = (s₀.readSlice c id e).map (rewriteAll applied e.key.ns) ∧
      s.readMeta id e = s₀.readMeta id e := by
  obtain ⟨⟨row₀, hrow₀, k, hk⟩, before, bytes, index, hbytes, hindex, hbefore, hserves⟩ := h
  cases hindex.symm.trans hentries
  have hs3 : isS3 row.location = isS3 row₀.location := by rw [hk, isS3_iterate]
  have hold := hbefore row₀ hrow₀
  rw [hs3] at hserves
  constructor
  · simp only [St.readSlice, hrow, hrow₀, hbytes, hold, Option.bind_eq_bind, Option.bind_some, hs3]
    exact hserves.rows e he
  · simp only [St.readMeta, hrow, hrow₀, hbytes, hold, Option.bind_eq_bind, Option.bind_some]
    rw [hserves.partMeta e he]

theorem Rested.through {ended : Bool} (h : Rested migration ended applied) :
    ∃ through, (if ended then through = migration else Passes migration through) ∧
      ∀ {ns : Text} {rows : Rows D R}, BenignRows migration ns rows →
        rewriteAll applied ns rows = applyAll through ns rows := by
  cases ended with
  | false =>
    exact ⟨applied, h.1, fun hrows => (applyAll_eq_rewriteAll hrows applied h.1.subset).symm⟩
  | true =>
    obtain ⟨earlier, hearlier, rfl⟩ := h.2 rfl
    refine ⟨migration, rfl, fun hrows => ?_⟩
    rw [rewriteAll_rerun hrows hearlier, applyAll_eq_rewriteAll hrows migration (List.Subset.refl _)]

end Step

/-- **The stored ranges read the altered rows.** Take a catalog of live segments
and a migration whose columns are benign, and runs in which every visited payload
is one the writer makes and keeps the lengths of its parts, every payload is
read, and no crash falls between an overwriting and the update of the row. Then
whenever no call is running, every payload has the digest of its row, and every
entry of an Index row and every slice reference reads its metadata and, with the
operations applied, its rows. -/
theorem slices_kept (c : Codecs O D R) (migration : List Stmt) {s₀ s : St O} {ls : List Label}
    (hinit : Init c s₀) (hbenign : BenignCatalog c migration s₀)
    (hrun : ((system c migration).restrict (Steady c)).Run s₀ ls s) (hidle : s.pc = .idle) :
    Consistent c migration s₀ s := by
  have h := inv_run hinit hrun
  have hlive : ∀ id row, s.rows.get id = some row → ∃ applied,
      Tracked c s₀ s.payloads id row.location row.payloadSha256 applied ∧
      Rested migration s.walRewritten applied := by
    intro id row hrow
    have htracked := h.tracked id row hrow
    rw [hidle] at htracked
    exact htracked not_false
  have hslices : ∀ id row entries, s.rows.get id = some row → s₀.index.get id = some entries →
      ∃ applied, Through migration s applied ∧ ∀ e ∈ entries, SliceKept c s₀ s applied id e := by
    intro id row entries hrow hentries
    obtain ⟨applied, htracked, hrested⟩ := hlive id row hrow
    obtain ⟨through, hthrough, hrows⟩ := hrested.through (D := D) (R := R)
    refine ⟨through, hthrough, fun e he => ?_⟩
    obtain ⟨hslice, hmeta⟩ := htracked.sliceKept hrow hentries he
    refine ⟨?_, hmeta⟩
    rw [hslice]
    cases hread : s₀.readSlice c id e with
    | none => rfl
    | some rows =>
      rw [Option.map_some, Option.map_some, hrows (hbenign id entries hentries e he rows hread)]
  constructor
  case digest =>
    intro id row hrow
    obtain ⟨applied, ⟨-, before, bytes, index, hbytes, -, -, hserves⟩, -⟩ := hlive id row hrow
    exact ⟨bytes, hbytes, hserves.digest⟩
  case slices =>
    intro id entries hlive' hentries
    obtain ⟨row, hrow⟩ := Option.ne_none_iff_exists'.1 hlive'
    rw [h.static.index] at hentries
    exact hslices id row entries hrow hentries
  case refs =>
    intro refs hrefs r hr
    rw [h.static.compactions] at hrefs
    obtain ⟨hseg, hentry⟩ := hinit.refs refs hrefs r hr
    obtain ⟨e, he⟩ := Option.isSome_iff_exists.1 hentry
    have hseg' : s.rows.get r.segment ≠ none := fun hnone => hseg ((h.static.live _).1 hnone)
    obtain ⟨row, hrow⟩ := Option.ne_none_iff_exists'.1 hseg'
    obtain ⟨entries, hentries, hfind⟩ := Option.bind_eq_some_iff.1 he
    obtain ⟨applied, hthrough, hkept⟩ := hslices r.segment row entries hrow hentries
    refine ⟨applied, e, hthrough, ?_, hkept e (List.mem_of_find?_eq_some hfind)⟩
    rw [St.refEntry, h.static.index]
    exact he

theorem Consistent.slices_of_ended {c : Codecs O D R} {migration : List Stmt} {s₀ s : St O}
    (h : Consistent c migration s₀ s) (hended : s.walRewritten = true) {id : SegmentId}
    {entries : List IndexEntry} (hlive : s.rows.get id ≠ none) (hindex : s.index.get id = some entries)
    {e : IndexEntry} (he : e ∈ entries) : SliceKept c s₀ s migration id e := by
  obtain ⟨applied, hthrough, hslices⟩ := h.slices id entries hlive hindex
  rw [Through, if_pos hended] at hthrough
  subst hthrough
  exact hslices e he

/-! ## A catalog of one segment -/

section One
variable (c : Codecs O D R) (snap : Snapshot c) (id : SegmentId) (loc : PayloadLocation)
  (refs : List WalPartRef)

def catalogOf : St O where
  rows := (∅ : Map SegmentId SegmentRow).insert id
    ⟨loc, snap.metadata.totalBytes, snap.metadata.bodySha256, 1⟩
  index := (∅ : Map SegmentId (List IndexEntry)).insert id snap.index
  compactions := [refs]
  payloads := (∅ : Map PayloadLocation Bytes).insert loc snap.bytes
  walRewritten := false
  pc := .idle

variable {c snap id loc refs}

theorem catalogOf_init (hfits : snap.Fits)
    (hrefs : ∀ r ∈ refs, r.segment = id ∧ ((catalogOf c snap id loc refs).refEntry r).isSome) :
    Init c (catalogOf c snap id loc refs) := by
  have hrows : ∀ id' row, (catalogOf c snap id loc refs).rows.get id' = some row → id' = id ∧
      row = ⟨loc, snap.metadata.totalBytes, snap.metadata.bodySha256, 1⟩ := by
    intro id' row hrow
    rcases Map.get_insert_cases hrow with ⟨hid, rfl⟩ | ⟨-, hrow⟩
    · exact ⟨hid, rfl⟩
    · cases hrow
  constructor
  case idle => rfl
  case pending => rfl
  case stored =>
    intro id' row hrow
    obtain ⟨rfl, rfl⟩ := hrows id' row hrow
    refine ⟨snap.bytes, snap.metadata, ?_, Snapshot.verifyBodyChecksum_bytes snap,
      Snapshot.readMetadataFromBytes_bytes hfits, ?_⟩
    · rw [catalogOf, Map.get_insert, if_pos rfl]
    · rw [catalogOf, Map.get_insert, if_pos rfl]
      rfl
  case apart =>
    intro id₁ id₂ row₁ row₂ hrow₁ hrow₂ hne
    exact absurd ((hrows _ _ hrow₁).1.trans (hrows _ _ hrow₂).1.symm) hne
  case refs =>
    intro refs' hrefs' r hr
    obtain rfl := List.mem_singleton.1 hrefs'
    obtain ⟨hseg, hentry⟩ := hrefs r hr
    refine ⟨?_, hentry⟩
    rw [hseg, catalogOf, Map.get_insert, if_pos rfl]
    exact Option.some_ne_none _

end One

/-! ## One segment of two parts -/

open Plain

def invoicePart (partition : Text) (value : Nat) : Part Nat where
  key := ⟨['s'], ['n'], partition, none, ['f']⟩
  bytes := 8
  updatedAt := 1
  metaBlob := []
  payload := .arrow ⟨[⟨['a'], none, none⟩], [[value]], by simp⟩

def invoiceSnapshot : Snapshot plainCodecs where
  offsets := 5
  createdAt := 1
  parts := [invoicePart ['p'] 1, invoicePart ['q'] 2]
  sorted := by decide
  nonempty := by decide
  summarized := by decide

theorem invoiceSnapshot_fits : invoiceSnapshot.Fits := ⟨by decide +kernel, by decide⟩

def invoiceLocation : PayloadLocation := .disk (Payload.segmentFile ['d'] Payload.t1.raw)

def invoiceRefs : List WalPartRef :=
  invoiceSnapshot.index.tail.map fun e => ⟨Payload.t1, e.start, e.len, e.key⟩

def invoiceCatalog : St Nat := catalogOf plainCodecs invoiceSnapshot Payload.t1 invoiceLocation invoiceRefs

theorem invoiceCatalog_init : Init plainCodecs invoiceCatalog :=
  catalogOf_init invoiceSnapshot_fits (by decide +kernel)

def shortRename : Stmt := ⟨['n'], .rename ['a'] ['b'], 1⟩

def longRename : Stmt := ⟨['n'], .rename ['a'] ['a', 'b'], 1⟩

def renameRun : List Label :=
  [.start, .step, .crash, .start, .step, .step, .step, .step, .step]

/-- The visited payload is the one the segment was persisted with, and no
payload is overwritten. -/
def FirstPayload (s : St Nat) : Label → Prop
  | .step =>
    match s.pc with
    | .scanning (st :: _) ((_, row) :: _) =>
      st = shortRename ∧ s.payloads.get row.location = some invoiceSnapshot.bytes
    | _ => True
  | .crash =>
    match s.pc with
    | .written _ _ id row _ _ => rewrittenLocation id row.location ≠ row.location
    | _ => True
  | .unreadable => False
  | _ => True

instance (s : St Nat) (l : Label) : Decidable (FirstPayload s l) := by
  unfold FirstPayload
  split
  · split
    · infer_instance
    · infer_instance
  · split
    · infer_instance
    · infer_instance
  · infer_instance
  · infer_instance

theorem FirstPayload.steady {s : St Nat} {l : Label} (h : FirstPayload s l) : Steady plainCodecs s l := by
  cases l with
  | step =>
    intro st stmts id row segs hpc
    simp only [FirstPayload, hpc] at h
    obtain ⟨rfl, hbytes⟩ := h
    refine ⟨invoiceSnapshot, invoiceSnapshot_fits, hbytes, fun _ p hp => ?_⟩
    simp only [invoiceSnapshot, List.mem_cons, List.not_mem_nil, or_false] at hp
    rcases hp with rfl | rfl
    · exact fun _ => by decide +kernel
    · exact fun _ => by decide +kernel
  | crash =>
    intro st stmts id row encoded segs hpc hplace
    simp only [FirstPayload, hpc] at h
    exact absurd hplace h
  | unreadable => exact h
  | start | dropFails => exact trivial

def renamedState : St Nat :=
  (exec (guarded FirstPayload (step plainCodecs [shortRename])) invoiceCatalog renameRun).get
    (by decide +kernel)

/-- A crashed and repeated rename by a name of the same length. -/
theorem slices_kept_renamed :
    renamedState.walRewritten = true ∧
      Consistent plainCodecs [shortRename] invoiceCatalog renamedState := by
  have hrun : ((system plainCodecs [shortRename]).restrict FirstPayload).Run invoiceCatalog renameRun
      renamedState := restrict_run_of_exec (Option.some_get _).symm
  refine ⟨by decide +kernel, slices_kept plainCodecs [shortRename] invoiceCatalog_init ?_
    (hrun.restrict_mono fun _ _ => FirstPayload.steady) (Pc.eq_idle (by decide +kernel))⟩
  exact fun _ _ _ _ _ _ _ _ _ _ _ => Benign.singleton fun _ h => by cases h

def longRun : List Label := [.start, .step, .step, .step, .step, .step]

def movedState : St Nat :=
  (exec (step plainCodecs [longRename]) invoiceCatalog longRun).get (by decide +kernel)

def secondEntry : IndexEntry := (invoicePart ['q'] 2).entry plainCodecs
  ((header plainCodecs 5 1).length + ((invoicePart ['p'] 1).encode plainCodecs).length) 1

theorem secondEntry_mem : secondEntry ∈ invoiceSnapshot.index := List.mem_cons_of_mem _ List.mem_cons_self

theorem secondEntry_lost : movedState.readSlice plainCodecs Payload.t1 secondEntry ≠
    (invoiceCatalog.readSlice plainCodecs Payload.t1 secondEntry).map
      (applyAll [longRename] secondEntry.key.ns) := by
  decide +kernel

theorem movedState_ended : movedState.walRewritten = true := by decide +kernel

theorem movedState_live : movedState.rows.get Payload.t1 ≠ none := by decide +kernel

theorem movedState_index : movedState.index.get Payload.t1 = some invoiceSnapshot.index := by
  decide +kernel

theorem not_consistent_movedState :
    ¬ Consistent plainCodecs [longRename] invoiceCatalog movedState := by
  intro h
  exact secondEntry_lost
    (h.slices_of_ended movedState_ended movedState_live movedState_index secondEntry_mem).rows

/-- The longer name makes the first payload longer: the Index row and the
compaction row still have the old start of the second one. -/
theorem renamed_slice_lost :
    Init plainCodecs invoiceCatalog ∧
      (system plainCodecs [longRename]).Run invoiceCatalog longRun movedState ∧
      movedState.pc = .idle ∧ movedState.walRewritten = true ∧
      ¬ Consistent plainCodecs [longRename] invoiceCatalog movedState :=
  ⟨invoiceCatalog_init, run_of_exec (Option.some_get _).symm, Pc.eq_idle (by decide +kernel),
    movedState_ended, not_consistent_movedState⟩

end Skippr.L3.RewriteLive
