import Skippr.L3Wal.WalHandle

/-!
# What is published is what was committed
-/
namespace Skippr.L3.Handle

open Skippr.L2

/-! ## Rows of the catalog -/

def Live (catalog : Catalog) (row : Row) : Prop :=
  (∃ id r, catalog.segments.get id = some r ∧ row = ⟨r.seq, r.entries⟩) ∨
  (∃ key r, catalog.controls.get key = some r ∧ row = ⟨r.seq, controlEntries key r.body⟩)

theorem mem_entries_iff {K V : Type} [DecidableEq K] {m : Map K V} {k : K} {v : V} :
    (⟨k, v⟩ : Sigma fun _ : K => V) ∈ m.entries ↔ m.get k = some v := by
  rw [Map.get, ← Option.mem_def, AList.mem_lookup_iff]

variable {catalog : Catalog} {history : List Row} {store : OffsetStore} {c : Call} {s s' : St}
  {n : Nat}

theorem mem_republishRows {row : Row} : row ∈ republishRows catalog ↔ Live catalog row := by
  unfold republishRows Live
  rw [List.mem_append, List.mem_insertionSort, List.mem_insertionSort]
  constructor
  · rintro (h | h)
    · obtain ⟨⟨id, r⟩, hm, rfl⟩ := List.mem_map.mp h
      exact .inl ⟨id, r, mem_entries_iff.mp hm, rfl⟩
    · obtain ⟨⟨key, r⟩, hm, rfl⟩ := List.mem_map.mp h
      exact .inr ⟨key, r, mem_entries_iff.mp hm, rfl⟩
  · rintro (⟨id, r, hget, rfl⟩ | ⟨key, r, hget, rfl⟩)
    · exact .inl (List.mem_map.mpr ⟨⟨id, r⟩, mem_entries_iff.mpr hget, rfl⟩)
    · exact .inr (List.mem_map.mpr ⟨⟨key, r⟩, mem_entries_iff.mpr hget, rfl⟩)

theorem mem_republishList {p : Nat × Entry} :
    p ∈ republishList catalog ↔ ∃ row, Live catalog row ∧ row.seq = p.1 ∧ p.2 ∈ row.entries := by
  unfold republishList
  rw [List.mem_flatMap]
  constructor
  · rintro ⟨row, hrow, hp⟩
    obtain ⟨e, he, rfl⟩ := List.mem_map.mp hp
    exact ⟨row, mem_republishRows.mp hrow, rfl, he⟩
  · rintro ⟨row, hrow, hseq, he⟩
    exact ⟨row, mem_republishRows.mpr hrow, List.mem_map.mpr ⟨p.2, he, by rw [hseq]⟩⟩

/-- The publishes of one row have distinct keys, none of them a fence key. -/
structure RowOk (entries : List Entry) : Prop where
  nodup : (entries.map Prod.fst).Nodup
  notFence : ∀ e ∈ entries, NotFence e.1

theorem RowOk.bytes_eq {entries : List Entry} (h : RowOk entries) {sk : Text} {b b' : Bytes}
    (hb : (sk, b) ∈ entries) (hb' : (sk, b') ∈ entries) : b = b' :=
  congrArg Prod.snd (List.inj_on_of_nodup_map h.nodup hb hb' rfl)

def Matches : ControlKey → ControlBody → Prop
  | .checkpoint k, .checkpoint k' _ => k = k'
  | .offsetHint _ _, .offsetHint _ _ => True
  | _, _ => False

def ControlKey.sk : ControlKey → Text
  | .checkpoint k => checkpointKey k
  | .offsetHint ns partition => offsetKey ns partition

theorem Matches.keys {key : ControlKey} {body : ControlBody} (h : Matches key body) :
    (controlEntries key body).map Prod.fst = [key.sk] := by
  cases key <;> cases body <;> first | exact h.elim | skip
  · cases h
    rfl
  · rfl

/-! ## Fences -/

def FromRow (history : List Row) (p : Nat × Entry) : Prop :=
  ∃ row ∈ history, row.seq = p.1 ∧ p.2 ∈ row.entries

/-- Every fence is the seq of a committed row, and the value under its key is
that row's. -/
def Fenced (history : List Row) (store : OffsetStore) : Prop :=
  ∀ sk f, fenceOf store sk = some f → ∃ row ∈ history, row.seq = f.seq ∧ f.epoch = epoch ∧
    ∃ bytes, (sk, bytes) ∈ row.entries ∧ published store sk = some bytes ∧ f.sha = .digest bytes

theorem FromRow.mono {p : Nat × Entry} (h : FromRow history p) (row : Row) :
    FromRow (row :: history) p := by
  obtain ⟨r, hr, hp⟩ := h
  exact ⟨r, List.mem_cons_of_mem _ hr, hp⟩

theorem Fenced.mono (h : Fenced history store) (row : Row) : Fenced (row :: history) store := by
  intro sk f hf
  obtain ⟨r, hr, hrest⟩ := h sk f hf
  exact ⟨r, List.mem_cons_of_mem _ hr, hrest⟩

def OneEpoch (store : OffsetStore) : Prop := ∀ sk f, fenceOf store sk = some f → f.epoch = epoch

theorem Fenced.oneEpoch (h : Fenced history store) : OneEpoch store := by
  intro sk f hf
  obtain ⟨-, -, -, hep, -⟩ := h sk f hf
  exact hep

section Publish
variable {store' : OffsetStore} {mode : PublishMode} {seq : Nat} {sk : Text} {bytes : Bytes}
  (hnf : NotFence sk) (h : OneEpoch store)
  (hs : publishWalCommit store sk bytes epoch seq mode = .ok store')
include hnf h hs

theorem OneEpoch.publish : OneEpoch store' := by
  rcases publishWalCommit_cases hs with ⟨rfl, -⟩ | ⟨rfl, -⟩
  · exact h
  intro sk' f hf
  rw [fenceOf_put hnf] at hf
  split at hf
  · cases hf
    rfl
  · exact h sk' f hf

theorem fence_publish :
    (∀ sk' f, fenceOf store sk' = some f → ∃ f', fenceOf store' sk' = some f' ∧ f.seq ≤ f'.seq) ∧
      ∃ f, fenceOf store' sk = some f ∧ seq ≤ f.seq := by
  rcases publishWalCommit_cases hs with ⟨rfl, f, hf, hle⟩ | ⟨rfl, hlt⟩
  · have hep := h sk f hf
    exact ⟨fun sk' f hf => ⟨f, hf, Nat.le_refl _⟩, f, hf, by omega⟩
  · have hput := fenceOf_put hnf store bytes epoch seq
    refine ⟨fun sk' f hf => ?_, _, (hput sk).trans (if_pos rfl), Nat.le_refl _⟩
    by_cases hsk : sk' = sk
    · subst hsk
      refine ⟨_, (hput sk').trans (if_pos rfl), ?_⟩
      have hep := h sk' f hf
      have := hlt f hf
      show f.seq ≤ seq
      omega
    · exact ⟨f, (hput sk').trans ((if_neg hsk).trans hf), Nat.le_refl _⟩

end Publish

section History
variable {history : List Row} (hrows : ∀ row ∈ history, RowOk row.entries)
  (hunique : ∀ row ∈ history, ∀ row' ∈ history, row.seq = row'.seq → row = row')
include hrows

variable {store : OffsetStore} {seq : Nat} {sk : Text} {bytes : Bytes}

theorem Fenced.publish {store' : OffsetStore} {mode : PublishMode} (h : Fenced history store)
    (hp : FromRow history (seq, sk, bytes))
    (hs : publishWalCommit store sk bytes epoch seq mode = .ok store') : Fenced history store' := by
  obtain ⟨row, hrow, hseq, hmem⟩ := hp
  rcases publishWalCommit_cases hs with ⟨rfl, -⟩ | ⟨rfl, -⟩
  · exact h
  intro sk' f hf
  have hnf := (hrows row hrow).notFence _ hmem
  rw [fenceOf_put hnf] at hf
  split at hf
  · rename_i hsk
    subst hsk
    cases hf
    refine ⟨row, hrow, hseq, rfl, bytes, hmem, ?_, rfl⟩
    rw [published_put hnf, if_pos rfl]
  · rename_i hsk
    obtain ⟨row', hrow', hseq', hep, bytes', hmem', hpub, hsha⟩ := h sk' f hf
    refine ⟨row', hrow', hseq', hep, bytes', hmem', ?_, hsha⟩
    rw [published_put ((hrows row' hrow').notFence _ hmem'), if_neg hsk]
    exact hpub

include hunique

theorem exists_republish (h : Fenced history store) (hp : FromRow history (seq, sk, bytes)) :
    ∃ store', publishWalCommit store sk bytes epoch seq .republish = .ok store' := by
  obtain ⟨row, hrow, hseq, hmem⟩ := hp
  refine publishWalCommit_republish fun f hf _ hfseq => ?_
  obtain ⟨row', hrow', hseq', -, bytes', hmem', -, hsha⟩ := h sk f hf
  have hsame : row' = row := hunique row' hrow' row hrow (by rw [hseq', hfseq, hseq])
  subst hsame
  rw [hsha, (hrows row' hrow).bytes_eq hmem' hmem]

theorem publishAll_republish : ∀ (todo : List (Nat × Entry)) (store : OffsetStore),
    Fenced history store → (∀ p ∈ todo, FromRow history p) →
    ∃ store', publishAll .republish store todo = .ok store' ∧ Fenced history store' ∧
      (∀ sk f, fenceOf store sk = some f → ∃ f', fenceOf store' sk = some f' ∧ f.seq ≤ f'.seq) ∧
      ∀ p ∈ todo, ∃ f, fenceOf store' p.2.1 = some f ∧ p.1 ≤ f.seq
  | [], store, h, _ =>
    ⟨store, rfl, h, fun _ f hf => ⟨f, hf, Nat.le_refl _⟩, fun _ hp => absurd hp List.not_mem_nil⟩
  | (seq, sk, bytes) :: rest, store, h, hp => by
    have hhead := hp _ List.mem_cons_self
    obtain ⟨store₁, hs⟩ := exists_republish hrows hunique h hhead
    have hnf : NotFence sk := by
      obtain ⟨row, hrow, -, hmem⟩ := hhead
      exact (hrows row hrow).notFence _ hmem
    obtain ⟨hgrow, hself⟩ := fence_publish hnf h.oneEpoch hs
    obtain ⟨store', hrun, hf', hmono, htodo⟩ := publishAll_republish rest store₁
      (h.publish hrows hhead hs) (List.forall_mem_cons.1 hp).2
    refine ⟨store', ?_, hf', ?_, ?_⟩
    · rw [publishAll, hs]
      exact hrun
    · intro sk' f hf
      obtain ⟨f₁, hf₁, hle₁⟩ := hgrow sk' f hf
      obtain ⟨f₂, hf₂, hle₂⟩ := hmono sk' f₁ hf₁
      exact ⟨f₂, hf₂, hle₁.trans hle₂⟩
    · refine List.forall_mem_cons.2 ⟨?_, htodo⟩
      obtain ⟨f₁, hf₁, hle₁⟩ := hself
      obtain ⟨f₂, hf₂, hle₂⟩ := hmono sk f₁ hf₁
      exact ⟨f₂, hf₂, hle₁.trans hle₂⟩

end History

/-! ## Invariant -/

structure CallOk (history : List Row) (c : Call) : Prop where
  row : RowOk c.publishes
  entries : c.request.entries = c.publishes
  matching : ∀ key body, c.request = .control key body → Matches key body
  publishing : ∀ seq todo, c.pc = .publishing seq todo →
    (∀ e ∈ c.publishes, FromRow history (seq, e)) ∧ ∀ e ∈ todo, e ∈ c.publishes

structure Inv (s : St) : Prop where
  seqs : ∀ row ∈ s.history, row.seq ≤ s.catalog.maxSeq
  unique : ∀ row ∈ s.history, ∀ row' ∈ s.history, row.seq = row'.seq → row = row'
  rows : ∀ row ∈ s.history, RowOk row.entries
  live : ∀ row, Live s.catalog row → row ∈ s.history
  /-- For every key of a committed row some row of the catalog is as new. -/
  newest : ∀ row ∈ s.history, ∀ sk ∈ row.entries.map Prod.fst,
    ∃ row', Live s.catalog row' ∧ sk ∈ row'.entries.map Prod.fst ∧ row.seq ≤ row'.seq
  matching : ∀ key r, s.catalog.controls.get key = some r → Matches key r.body
  fences : Fenced s.history s.store
  calls : ∀ n c, s.calls.get n = some c → CallOk s.history c
  replay : ∀ todo, s.phase = .replaying todo → ∀ p ∈ todo, FromRow s.history p

theorem CallOk.mono (h : CallOk history c) (row : Row) : CallOk (row :: history) c :=
  { h with publishing := fun seq todo hpc =>
      ⟨fun e he => ((h.publishing seq todo hpc).1 e he).mono row, (h.publishing seq todo hpc).2⟩ }

/-! ## The calls a run may make -/

def segmentKeys (payload : Payload) (updates : List (Text × Bytes)) : List Text :=
  (payload.offsets.map fun o => offsetKey o.1.1 o.1.2) ++ updates.map fun u => checkpointKey u.1

/-- A segment names each publish key once and none that is a fence key; a hint
starts on a key that has no stored filesize. -/
def CleanStart (store : OffsetStore) : Op → Prop
  | .segment _ payload updates | .s3Segment _ payload updates =>
    (segmentKeys payload updates).Nodup ∧ ∀ sk ∈ segmentKeys payload updates, NotFence sk
  | .checkpoint _ _ => True
  | .offsetHint ns partition _ _ => storedFilesize store ns partition = 0

/-- A segment call that finds its row computed that row's offsets and
checkpoints. -/
def SameRow (catalog : Catalog) (c : Call) : Prop :=
  match c.request with
  | .segment id payload offsets checkpoints =>
    match catalog.segments.get id with
    | some row => row.payload = payload → row.offsets = offsets ∧ row.checkpoints = checkpoints
    | none => True
  | .control _ _ => True

def CleanCall (s : St) : Lbl → Prop
  | .start _ op => CleanStart s.store op
  | .lookup n => (s.calls.get n).elim True (SameRow s.catalog)
  | _ => True

instance (store : OffsetStore) (op : Op) : Decidable (CleanStart store op) := by
  unfold CleanStart
  split <;> infer_instance

instance (catalog : Catalog) (c : Call) : Decidable (SameRow catalog c) := by
  unfold SameRow
  split
  · split <;> infer_instance
  · infer_instance

instance (s : St) (l : Lbl) : Decidable (CleanCall s l) := by
  unfold CleanCall
  split
  · infer_instance
  · cases s.calls.get _ <;> simp only [Option.elim] <;> infer_instance
  · infer_instance

theorem notFence_checkpointKey (k : Text) : NotFence (checkpointKey k) := by
  rintro ⟨t, ht⟩
  simp [fenceMark, checkpointKey] at ht

theorem notFence_offsetKey {ns partition : Text} (hns : L1.validatePathComponent ns = .ok ())
    (hp : L1.validatePathComponent partition = .ok ()) : NotFence (offsetKey ns partition) := by
  intro h
  have hmem : '#' ∈ offsetKey ns partition := h.subset (by decide)
  rcases List.mem_append.mp hmem with hmem | hmem
  · exact (⟨ns, hns⟩ : L1.SegmentId).notMem_raw (by decide) hmem
  · rcases List.mem_cons.mp hmem with hmem | hmem
    · cases hmem
    · exact (⟨partition, hp⟩ : L1.SegmentId).notMem_raw (by decide) hmem

theorem persistRow_keys (store : OffsetStore) (id : Text) (payload : Payload)
    (updates : List (Text × Bytes)) :
    ((persistRow store id payload updates).publishes.map Prod.fst).Perm
      (segmentKeys payload updates) := by
  unfold persistRow entries segmentKeys committedOffsetsFrom checkpointsFrom
  rw [List.map_append, List.map_map, List.map_map]
  refine List.Perm.append ?_ ?_
  · refine ((List.perm_insertionSort _ _).map _).trans ?_
    rw [List.map_map]
    rfl
  · refine ((List.perm_insertionSort _ _).map _).trans ?_
    rw [List.map_map]
    rfl

theorem callOk_persistRow {id : Text} {payload : Payload} {updates : List (Text × Bytes)}
    (h : (segmentKeys payload updates).Nodup ∧ ∀ sk ∈ segmentKeys payload updates, NotFence sk) :
    CallOk history (persistRow store id payload updates) := by
  have hperm := persistRow_keys store id payload updates
  refine ⟨⟨hperm.nodup_iff.mpr h.1, ?_⟩, rfl, ?_, ?_⟩
  · intro e he
    exact h.2 e.1 (hperm.subset (List.mem_map_of_mem he))
  · intro key body hreq
    cases hreq
  · intro seq todo hpc
    cases hpc

theorem callOk_start {op : Op} (h : CleanStart store op) (hc : op.start store = some c) :
    CallOk history c := by
  cases op with
  | segment id payload updates | s3Segment id payload updates => cases hc; exact callOk_persistRow h
  | checkpoint logicalKey envelope =>
    simp only [Op.start, persistCheckpoint] at hc
    split at hc
    · cases hc
    · cases hc
      refine ⟨⟨List.nodup_singleton _, ?_⟩, rfl, ?_, fun _ _ h => by cases h⟩
      · intro e he
        rw [List.mem_singleton.mp he]
        exact notFence_checkpointKey logicalKey
      · intro key body hreq
        cases hreq
        rfl
  | offsetHint ns partition position closed =>
    simp only [Op.start, persistOffsetHint] at hc
    split at hc
    · rename_i hns hpart
      cases hc
      simp only [CleanStart] at h
      refine ⟨⟨List.nodup_singleton _, ?_⟩, ?_, ?_, fun _ _ h => by cases h⟩
      · intro e he
        rw [List.mem_singleton.mp he]
        exact notFence_offsetKey hns hpart
      · simp only [Request.entries, controlEntries, h]
      · intro key body hreq
        cases hreq
        trivial
    · cases hc

/-! ## The steps keep the invariant -/

theorem Inv.insertCall (h : Inv s) (hc : CallOk s.history c) :
    ∀ n' c', Map.get (s.calls.insert n c) n' = some c' → CallOk s.history c' := by
  intro n' c' hget
  rcases Map.get_insert_cases hget with ⟨-, rfl⟩ | ⟨-, hget⟩
  · exact hc
  · exact h.calls n' c' hget

theorem inv_endCall (h : Inv s) (n : Nat) : Inv (s.endCall n) := by
  refine { h with calls := ?_ }
  intro n' c' hget
  exact h.calls n' c' (Map.of_get_erase hget).2

theorem inv_setPc {pc : Pc} (h : Inv s) (hc : CallOk s.history c)
    (hpc : ∀ seq todo, pc = .publishing seq todo →
      (∀ e ∈ c.publishes, FromRow s.history (seq, e)) ∧ ∀ e ∈ todo, e ∈ c.publishes) :
    Inv (s.setPc n c pc) := by
  have hc' : CallOk s.history { c with pc := pc } := ⟨hc.row, hc.entries, hc.matching, hpc⟩
  exact { h with calls := h.insertCall hc' }

theorem inv_lookup (h : Inv s) (hget : s.calls.get n = some c) (hsame : SameRow s.catalog c) :
    Inv (lookupStep s n c) := by
  have hc := h.calls n c hget
  unfold lookupStep
  split
  swap
  · exact inv_endCall h n
  rename_i pc hpc
  refine inv_setPc h hc ?_
  rintro seq todo rfl
  -- The row found is live, so it was committed, and it holds what the call publishes.
  unfold lookup at hpc
  have hrow : ∀ row : Row, Live s.catalog row → row.entries = c.publishes →
      ∀ e ∈ c.publishes, FromRow s.history (row.seq, e) := by
    intro row hlive hent e he
    exact ⟨row, h.live row hlive, rfl, hent ▸ he⟩
  split at hpc
  · rename_i id payload offsets checkpoints hreq
    split at hpc
    · rename_i row hseg
      split at hpc
      · rename_i hpay
        cases hpc
        simp only [SameRow, hreq, hseg] at hsame
        obtain ⟨ho, hcp⟩ := hsame hpay
        refine ⟨hrow ⟨row.seq, row.entries⟩ (.inl ⟨id, row, hseg, rfl⟩) ?_, fun e he => he⟩
        rw [← hc.entries, hreq, SegmentRow.entries, ho, hcp]
        rfl
      · cases hpc
    · cases hpc
  · rename_i key body hreq
    split at hpc
    · rename_i row hctl
      split at hpc
      · rename_i hbody
        cases hpc
        refine ⟨hrow ⟨row.seq, controlEntries key row.body⟩ (.inr ⟨key, row, hctl, rfl⟩) ?_,
          fun e he => he⟩
        rw [← hc.entries, hreq, hbody]
        rfl
      · cases hpc
    · cases hpc

/-- What a commit does: the request's row gets the next seq, and of the rows
that were there only a control row of the same key goes. -/
structure Committed (catalog : Catalog) (request : Request) (catalog' : Catalog) : Prop where
  maxSeq : catalog'.maxSeq = catalog.maxSeq + 1
  added : Live catalog' ⟨catalog'.maxSeq, request.entries⟩
  old : ∀ row, Live catalog' row → row = ⟨catalog'.maxSeq, request.entries⟩ ∨ Live catalog row
  kept : ∀ row, Live catalog row → Live catalog' row ∨ ∃ key body r,
    request = .control key body ∧ catalog.controls.get key = some r ∧
      row.entries = controlEntries key r.body
  control : ∀ key r, catalog'.controls.get key = some r →
    request = .control key r.body ∨ catalog.controls.get key = some r

theorem committed_segment {id : Text} (row : SegmentRow) (hnone : catalog.segments.get id = none)
    (hseq : row.seq = catalog.maxSeq + 1) :
    Committed catalog (.segment id row.payload row.offsets row.checkpoints)
      { catalog with segments := catalog.segments.insert id row, maxSeq := catalog.maxSeq + 1 } := by
  refine ⟨rfl, .inl ⟨id, row, ?_, ?_⟩, ?_, ?_, fun key r hget => .inr hget⟩
  · exact (Map.get_insert _ _ _ _).trans (if_pos rfl)
  · rw [hseq]
    rfl
  · rintro row' (⟨id', r, hget, rfl⟩ | hctl)
    · rcases Map.get_insert_cases hget with ⟨-, rfl⟩ | ⟨-, hget⟩
      · left
        rw [hseq]
        rfl
      · exact .inr (.inl ⟨id', r, hget, rfl⟩)
    · exact .inr (.inr hctl)
  · rintro row' (⟨id', r, hget, rfl⟩ | hctl)
    · refine .inl (.inl ⟨id', r, ?_, rfl⟩)
      rw [Map.get_insert, if_neg]
      · exact hget
      · rintro rfl
        rw [hnone] at hget
        cases hget
    · exact .inl (.inr hctl)

theorem committed_control {key : ControlKey} (row : ControlRow)
    (hseq : row.seq = catalog.maxSeq + 1) :
    Committed catalog (.control key row.body)
      { catalog with controls := catalog.controls.insert key row, maxSeq := catalog.maxSeq + 1 } := by
  refine ⟨rfl, .inr ⟨key, row, ?_, ?_⟩, ?_, ?_, ?_⟩
  · exact (Map.get_insert _ _ _ _).trans (if_pos rfl)
  · rw [hseq]
    rfl
  · rintro row' (hseg | ⟨key', r, hget, rfl⟩)
    · exact .inr (.inl hseg)
    · rcases Map.get_insert_cases hget with ⟨rfl, rfl⟩ | ⟨-, hget⟩
      · left
        rw [hseq]
        rfl
      · exact .inr (.inr ⟨key', r, hget, rfl⟩)
  · rintro row' (hseg | ⟨key', r, hget, rfl⟩)
    · exact .inl (.inl hseg)
    · by_cases hk : key' = key
      · subst hk
        exact .inr ⟨key', row.body, r, rfl, hget, rfl⟩
      · refine .inl (.inr ⟨key', r, ?_, rfl⟩)
        rw [Map.get_insert, if_neg hk]
        exact hget
  · intro key' r hget
    rcases Map.get_insert_cases hget with ⟨hk, rfl⟩ | ⟨-, hget⟩
    · rw [hk]
      exact .inl rfl
    · exact .inr hget

theorem committed_of_commit {catalog' : Catalog} {request : Request} {version : Option Nat}
    (h : commit catalog request version = some catalog') : Committed catalog request catalog' := by
  cases request with
  | segment id payload offsets checkpoints =>
    simp only [commit] at h
    split at h
    · cases h
    · rename_i hnone
      cases h
      exact committed_segment ⟨catalog.maxSeq + 1, payload, offsets, checkpoints⟩ hnone rfl
  | control key body =>
    obtain ⟨-, rfl⟩ := of_guard h
    exact committed_control ⟨catalog.maxSeq + 1, body, version.elim 0 (· + 1)⟩ rfl

theorem inv_commit {version : Option Nat} (h : Inv s) (hget : s.calls.get n = some c) :
    Inv (commitStep s n c version) := by
  have hc := h.calls n c hget
  unfold commitStep
  split
  · exact inv_endCall h n
  split
  · exact inv_endCall h n
  rename_i catalog hcommit
  have hcm := committed_of_commit hcommit
  have hnew : ∀ row ∈ s.history, row.seq < catalog.maxSeq := by
    intro row hrow
    have := h.seqs row hrow
    have := hcm.maxSeq
    omega
  refine ⟨?_, ?_, ?_, ?_, ?_, ?_, h.fences.mono _, ?_, ?_⟩
  · exact List.forall_mem_cons.2 ⟨Nat.le_refl _, fun row hrow => (hnew row hrow).le⟩
  · intro row hrow row' hrow' heq
    rcases List.mem_cons.mp hrow with rfl | hrow <;> rcases List.mem_cons.mp hrow' with rfl | hrow'
    · rfl
    · exact absurd heq (hnew row' hrow').ne'
    · exact absurd heq (hnew row hrow).ne
    · exact h.unique row hrow row' hrow' heq
  · refine List.forall_mem_cons.2 ⟨?_, h.rows⟩
    rw [hc.entries]
    exact hc.row
  · intro row hlive
    rcases hcm.old row hlive with rfl | hlive
    · exact List.mem_cons_self
    · exact List.mem_cons_of_mem _ (h.live row hlive)
  · intro row hrow sk hsk
    rcases List.mem_cons.mp hrow with rfl | hrow
    · exact ⟨_, hcm.added, hsk, Nat.le_refl _⟩
    · obtain ⟨row', hlive, hsk', hle⟩ := h.newest row hrow sk hsk
      rcases hcm.kept row' hlive with hlive' | ⟨key, body, r, hreq, hctl, hent⟩
      · exact ⟨row', hlive', hsk', hle⟩
      · -- The control row that covered `sk` is replaced by the new one of the same key.
        refine ⟨_, hcm.added, ?_, (hnew row hrow).le⟩
        rw [hreq]
        rw [hent, (h.matching key r hctl).keys] at hsk'
        exact (hc.matching key body hreq).keys ▸ hsk'
  · intro key r hget'
    rcases hcm.control key r hget' with hreq | hold
    · exact hc.matching key r.body hreq
    · exact h.matching key r hold
  · intro n' c' hget'
    rcases Map.get_insert_cases hget' with ⟨-, rfl⟩ | ⟨-, hget'⟩
    · refine ⟨hc.row, hc.entries, hc.matching, ?_⟩
      rintro seq todo hpc
      cases hpc
      exact ⟨fun e he => ⟨_, List.mem_cons_self, rfl, hc.entries ▸ he⟩, fun e he => he⟩
    · exact (h.calls n' c' hget').mono _
  · intro todo hphase p hp
    exact (h.replay todo hphase p hp).mono _

theorem inv_publish {seq : Nat} {todo : List Entry} (h : Inv s) (hget : s.calls.get n = some c)
    (hpc : c.pc = .publishing seq todo) : Inv (publishStep s n c seq todo) := by
  have hc := h.calls n c hget
  obtain ⟨hfrom, htodo⟩ := hc.publishing seq todo hpc
  cases todo with
  | nil => exact { inv_endCall h n with }
  | cons e rest =>
    obtain ⟨sk, bytes⟩ := e
    simp only [publishStep]
    split
    · exact inv_endCall h n
    · rename_i store hs
      have hc' : CallOk s.history { c with pc := .publishing seq rest } := by
        refine ⟨hc.row, hc.entries, hc.matching, ?_⟩
        rintro seq' todo' hpc'
        cases hpc'
        exact ⟨hfrom, (List.forall_mem_cons.1 htodo).2⟩
      exact { h with
        fences := h.fences.publish h.rows (hfrom _ (htodo _ List.mem_cons_self)) hs
        calls := h.insertCall hc' }

theorem inv_replay {todo : List (Nat × Entry)} (h : Inv s) (hphase : s.phase = .replaying todo)
    (hs : replayStep s todo = some s') : Inv s' := by
  cases todo with
  | nil => cases hs
  | cons p rest =>
    obtain ⟨seq, sk, bytes⟩ := p
    have hfrom := h.replay _ hphase
    simp only [replayStep] at hs
    split at hs
    · cases hs
      refine { h with replay := ?_ }
      intro todo' htodo'
      cases htodo'
    · rename_i store hpub
      cases hs
      refine { h with fences := h.fences.publish h.rows (hfrom _ List.mem_cons_self) hpub, replay := ?_ }
      intro todo' htodo'
      cases htodo'
      exact (List.forall_mem_cons.1 hfrom).2

theorem inv_step {l : Lbl} (h : Inv s) (hok : CleanCall s l) (hs : step s l = some s') :
    Inv s' := by
  cases l with
  | start n op =>
    simp only [step] at hs
    split at hs
    · obtain ⟨c, hc, rfl⟩ := Option.map_eq_some_iff.mp hs
      exact { h with calls := h.insertCall (callOk_start hok hc) }
    · cases hs
  | lookup n =>
    simp only [step] at hs
    split at hs
    · rename_i c hget
      obtain ⟨-, rfl⟩ := of_guard hs
      simp only [CleanCall, hget, Option.elim] at hok
      exact inv_lookup h hget hok
    · cases hs
  | commit n =>
    simp only [step] at hs
    split at hs
    · rename_i c hget
      split at hs
      · cases hs
        exact inv_commit h hget
      · cases hs
    · cases hs
  | publish n =>
    simp only [step] at hs
    split at hs
    · rename_i c hget
      split at hs
      · rename_i seq todo hpc
        cases hs
        exact inv_publish h hget hpc
      · cases hs
    · cases hs
  | retry n =>
    simp only [step] at hs
    split at hs
    · rename_i c hget
      split at hs
      · rename_i seq todo hpc
        cases hs
        have hc := h.calls n c hget
        refine inv_setPc h hc ?_
        rintro seq' todo' hpc'
        cases hpc'
        exact ⟨(hc.publishing seq todo hpc).1, fun e he => he⟩
      · cases hs
    · cases hs
  | fail n => cases hs; exact inv_endCall h n
  | crash =>
    cases hs
    refine { h with calls := ?_, replay := ?_ }
    · intro n c hget
      cases hget
    · intro todo htodo
      cases htodo
  | restart =>
    obtain ⟨-, rfl⟩ := of_guard hs
    refine { h with replay := ?_ }
    intro todo htodo
    cases htodo
    intro p hp
    obtain ⟨row, hlive, hseq, he⟩ := mem_republishList.mp hp
    exact ⟨row, h.live row hlive, hseq, he⟩
  | replay =>
    simp only [step] at hs
    split at hs
    · rename_i todo hphase
      exact inv_replay h hphase hs
    · cases hs
  | ready =>
    obtain ⟨-, rfl⟩ := of_guard hs
    refine { h with replay := ?_ }
    intro todo htodo
    cases htodo

theorem Initial.fenceOf_ne (h : Initial s) (sk : Text) (f : Fence) : fenceOf s.store sk ≠ some f := by
  obtain ⟨store, hstore, rfl⟩ := h
  intro hf
  obtain ⟨cell, hcell, -⟩ := Option.bind_eq_some_iff.1 hf
  exact hstore _ _ hcell (List.prefix_append fenceMark sk)

theorem inv_initial (h : Initial s) : Inv s := by
  have hfence := h.fenceOf_ne
  obtain ⟨store, hstore, rfl⟩ := h
  refine ⟨?_, ?_, ?_, ?_, ?_, ?_, ?_, ?_, ?_⟩
  · intro row hrow
    cases hrow
  · intro row hrow
    cases hrow
  · intro row hrow
    cases hrow
  · rintro row (⟨id, r, hget, -⟩ | ⟨key, r, hget, -⟩) <;> cases hget
  · intro row hrow
    cases hrow
  · intro key r hget
    cases hget
  · exact fun sk f hf => absurd hf (hfence sk f)
  · intro n c hget
    cases hget
  · intro todo htodo
    cases htodo

theorem inv_inductive : (lts.restrict CleanCall).Inductive Inv where
  init := by intro s hs; exact inv_initial hs
  step := by intro s l s' h hs; exact inv_step h hs.1 hs.2

theorem Inv.republishAll (h : Inv s) :
    ∃ store, republishAll s.catalog s.store = .ok store ∧
      ∀ row, Live s.catalog row → ∀ sk ∈ row.entries.map Prod.fst,
        ∃ top ∈ s.history, (∀ r ∈ s.history, sk ∈ r.entries.map Prod.fst → r.seq ≤ top.seq) ∧
          ∃ bytes, (sk, bytes) ∈ top.entries ∧ published store sk = some bytes := by
  have hfrom : ∀ p ∈ republishList s.catalog, FromRow s.history p := by
    intro p hp
    obtain ⟨row, hlive, hseq, he⟩ := mem_republishList.mp hp
    exact ⟨row, h.live row hlive, hseq, he⟩
  obtain ⟨store, hrun, hfenced, -, htodo⟩ :=
    publishAll_republish h.rows h.unique (republishList s.catalog) s.store h.fences hfrom
  -- A live row's seq is at most the fence of each of its keys.
  have hfence : ∀ row, Live s.catalog row → ∀ sk ∈ row.entries.map Prod.fst,
      ∃ f, fenceOf store sk = some f ∧ row.seq ≤ f.seq := by
    intro row hlive sk hsk
    obtain ⟨e, he, rfl⟩ := List.mem_map.mp hsk
    exact htodo (row.seq, e) (mem_republishList.mpr ⟨row, hlive, rfl, he⟩)
  refine ⟨store, hrun, ?_⟩
  intro row hlive sk hsk
  obtain ⟨f, hf, -⟩ := hfence row hlive sk hsk
  obtain ⟨top, htop, hseq, -, bytes, hmem, hpub, -⟩ := hfenced sk f hf
  refine ⟨top, htop, ?_, bytes, hmem, hpub⟩
  intro r hr hskr
  obtain ⟨r', hlive', hsk', hle⟩ := h.newest r hr sk hskr
  obtain ⟨f', hf', hle'⟩ := hfence r' hlive' sk hsk'
  rw [hf] at hf'
  cases hf'
  omega

/-- In every run of clean calls, with crashes and restarts anywhere: the fence of
a published key is the seq of a row that was committed, the published bytes are
that row's, and `republish_all` succeeds and leaves every key of a live row at
the bytes of the highest row ever committed for it. -/
theorem published_is_committed (s : St) (hr : (lts.restrict CleanCall).Reachable s) :
    (∀ sk f, fenceOf s.store sk = some f → ∃ row ∈ s.history, row.seq = f.seq ∧ f.epoch = epoch ∧
      ∃ bytes, (sk, bytes) ∈ row.entries ∧ published s.store sk = some bytes) ∧
    ∃ store, republishAll s.catalog s.store = .ok store ∧
      ∀ row, Live s.catalog row → ∀ sk ∈ row.entries.map Prod.fst,
        ∃ top ∈ s.history, (∀ r ∈ s.history, sk ∈ r.entries.map Prod.fst → r.seq ≤ top.seq) ∧
          ∃ bytes, (sk, bytes) ∈ top.entries ∧ published store sk = some bytes := by
  have h := inv_inductive.reachable s hr
  refine ⟨?_, h.republishAll⟩
  intro sk f hf
  obtain ⟨row, hrow, hseq, hep, bytes, hmem, hpub, -⟩ := h.fences sk f hf
  exact ⟨row, hrow, hseq, hep, bytes, hmem, hpub⟩

/-! ## Runs from a fresh start -/

def fresh (store : OffsetStore) : St := ⟨.down, ⟨∅, ∅, 0⟩, store, ∅, 0, 0, []⟩

def runCall (n : Nat) (op : Op) : List Lbl := [.start n op, .lookup n, .commit n, .publish n]

def emptySegment (updates : List (Text × Bytes)) : Op :=
  .segment ⟨['s'], by decide⟩ ⟨[], 0⟩ updates

/-- A hint is committed and published, a checkpoint is committed, and the
process dies before publishing it. -/
def cutRun : List Lbl :=
  [.restart, .ready] ++ runCall 0 (.offsetHint ['a'] ['b'] 3 true) ++
    [.start 1 (.checkpoint ['k'] [1]), .lookup 1, .commit 1, .crash]

theorem published_is_committed_cut :
    ∃ s, (lts.restrict CleanCall).Reachable s ∧
      (∃ f, fenceOf s.store (offsetKey ['a'] ['b']) = some f) ∧
      ∃ store, republishAll s.catalog s.store = .ok store := by
  let s := (exec (guarded CleanCall step) (fresh ∅) cutRun).get (by decide +kernel)
  have hr : (lts.restrict CleanCall).Reachable s :=
    restrict_reachable_of_exec ⟨∅, nofun, rfl⟩ (Option.some_get _).symm
  obtain ⟨-, store, hstore, -⟩ := published_is_committed s hr
  have hfence : fenceOf s.store (offsetKey ['a'] ['b']) =
      some ⟨0, 1, .digest (le64 0 ++ le64 3 ++ le64 1)⟩ := by decide +kernel
  exact ⟨s, hr, ⟨_, hfence⟩, store, hstore⟩

/-- The same segment id and payload persisted again with a checkpoint update the
first call did not have: the row is found, and the update is published under
its seq. -/
def retriedRun : List Lbl :=
  [.restart, .ready] ++ runCall 0 (emptySegment []) ++
    [.start 1 (emptySegment [(['k'], [1])]), .lookup 1, .publish 1]

def legacyStore : OffsetStore :=
  AList.insert (offsetKey ['a'] ['b']) (.value (le64 5 ++ le64 0 ++ le64 0)) ∅

def legacyHintRun : List Lbl := [.restart, .ready] ++ runCall 0 (.offsetHint ['a'] ['b'] 3 true)

/-- The retried segment publishes bytes its row does not hold; the hint
publishes the stored filesize, which its row does not hold, so `republish_all`
meets its own tuple with another hash and fails. -/
theorem published_not_committed :
    (∃ s, lts.Reachable s ∧ ∃ f, fenceOf s.store (checkpointKey ['k']) = some f ∧
      ∀ row ∈ s.history, row.seq = f.seq →
        checkpointKey ['k'] ∉ row.entries.map Prod.fst) ∧
    ∃ s, lts.Reachable s ∧ republishAll s.catalog s.store = .error .corrupt := by
  constructor
  · refine ⟨(exec step (fresh ∅) retriedRun).get (by decide +kernel),
      reachable_of_exec ⟨∅, nofun, rfl⟩ (Option.some_get _).symm, ⟨0, 1, .digest [1]⟩, ?_, ?_⟩
    · decide +kernel
    · decide +kernel
  · have hlegacy : ∀ sk cell, legacyStore.get sk = some cell → NotFence sk := by
      intro sk cell hget
      rcases Map.get_insert_cases hget with ⟨rfl, -⟩ | ⟨-, hget⟩
      · decide
      · cases hget
    refine ⟨(exec step (fresh legacyStore) legacyHintRun).get (by decide +kernel),
      reachable_of_exec ⟨legacyStore, hlegacy, rfl⟩ (Option.some_get _).symm, ?_⟩
    rfl

/-! ## Fences do not go back -/

/-- The key a step publishes. -/
def St.publishedKey (s : St) : Lbl → Option Text
  | .publish n =>
    match (s.calls.get n).map Call.pc with
    | some (.publishing _ ((sk, _) :: _)) => some sk
    | _ => none
  | .replay =>
    match s.phase with
    | .replaying ((_, sk, _) :: _) => some sk
    | _ => none
  | _ => none

/-- No fence key is published. Only an offset can have one, when its namespace
starts with the mark of a fence. -/
def NoFencePublished (s : St) (l : Lbl) : Prop := (s.publishedKey l).elim True NotFence

instance (s : St) (l : Lbl) : Decidable (NoFencePublished s l) := by
  unfold NoFencePublished
  cases s.publishedKey l <;> simp only [Option.elim] <;> infer_instance

theorem step_store {l : Lbl} (hl : NoFencePublished s l) (hs : step s l = some s') :
    s'.store = s.store ∨ ∃ seq sk bytes mode, NotFence sk ∧
      publishWalCommit s.store sk bytes epoch seq mode = .ok s'.store := by
  cases l with
  | publish n =>
    simp only [step] at hs
    (repeat' split at hs) <;> cases hs
    rename_i c hget _ seq todo hpc
    cases todo with
    | nil => exact .inl rfl
    | cons e rest =>
      have hnf : NotFence e.1 := by
        simpa [NoFencePublished, St.publishedKey, hget, hpc] using hl
      simp only [publishStep]
      split
      · exact .inl rfl
      · rename_i store hpub
        exact .inr ⟨seq, e.1, e.2, .fresh, hnf, hpub⟩
  | replay =>
    simp only [step] at hs
    split at hs
    · rename_i todo hphase
      cases todo with
      | nil => cases hs
      | cons p rest =>
        have hnf : NotFence p.2.1 := by
          simpa [NoFencePublished, St.publishedKey, hphase] using hl
        simp only [replayStep] at hs
        split at hs <;> cases hs
        · exact .inl rfl
        · rename_i store hpub
          exact .inr ⟨p.1, p.2.1, p.2.2, .republish, hnf, hpub⟩
    · cases hs
  | start n op =>
    obtain ⟨-, hs⟩ := Option.ite_none_right_eq_some.1 hs
    obtain ⟨c, -, rfl⟩ := Option.map_eq_some_iff.1 hs
    exact .inl rfl
  | _ =>
    simp only [step, lookupStep, commitStep] at hs
    (repeat' split at hs) <;> cases hs
    all_goals exact .inl rfl

theorem oneEpoch_inductive :
    (lts.restrict NoFencePublished).Inductive fun s => OneEpoch s.store where
  init := by
    intro s hs sk f hf
    exact absurd hf (Initial.fenceOf_ne hs sk f)
  step := by
    intro s l s' h hs
    rcases step_store hs.1 hs.2 with hstore | ⟨seq, sk, bytes, mode, hnf, hpub⟩
    · exact hstore ▸ h
    · exact OneEpoch.publish hnf h hpub

/-- **Fences do not go back.** From any moment of a run that publishes no fence key
on, through crashes and restarts, a published key stays published, under a row at
least as new. -/
theorem fences_grow (s s' : St) (ls : List Lbl) (h : (lts.restrict NoFencePublished).Reachable s)
    (hr : (lts.restrict NoFencePublished).Run s ls s') (sk : Text) (f : Fence)
    (hf : fenceOf s.store sk = some f) : ∃ f', fenceOf s'.store sk = some f' ∧ f.seq ≤ f'.seq := by
  have hkeep := hr.keeps
    (P := fun t => OneEpoch t.store ∧ ∃ f', fenceOf t.store sk = some f' ∧ f.seq ≤ f'.seq)
    (fun t l t' ht hs => ?_) ⟨oneEpoch_inductive.reachable s h, f, hf, Nat.le_refl _⟩
  · exact hkeep.2
  · obtain ⟨hep, f', hf', hle⟩ := ht
    refine ⟨oneEpoch_inductive.step t l t' hep hs, ?_⟩
    rcases step_store hs.1 hs.2 with hstore | ⟨seq, sk', bytes, mode, hnf, hpub⟩
    · exact ⟨f', hstore ▸ hf', hle⟩
    · obtain ⟨f'', hf'', hle'⟩ := (fence_publish hnf hep hpub).1 sk f' hf'
      exact ⟨f'', hf'', hle.trans hle'⟩

theorem fences_grow_restarted : ∃ s s' f', (lts.restrict NoFencePublished).Run s
    [.restart, .replay, .replay, .ready] s' ∧
      fenceOf s'.store (offsetKey ['a'] ['b']) = some f' ∧ 1 ≤ f'.seq := by
  let s := (exec (guarded NoFencePublished step) (fresh ∅) cutRun).get (by decide +kernel)
  let s' := (exec (guarded NoFencePublished step) s [.restart, .replay, .replay, .ready]).get
    (by decide +kernel)
  have hrun : (lts.restrict NoFencePublished).Run s _ s' := restrict_run_of_exec (Option.some_get _).symm
  obtain ⟨f', hf', hle⟩ := fences_grow s s' _
    (restrict_reachable_of_exec ⟨∅, nofun, rfl⟩ (Option.some_get _).symm) hrun (offsetKey ['a'] ['b'])
    ⟨0, 1, .digest (le64 0 ++ le64 3 ++ le64 1)⟩ (by decide +kernel)
  exact ⟨s, s', f', hrun, hf', hle⟩

end Skippr.L3.Handle
