import Skippr.L2Store.Offsets
import Skippr.L3Wal.WalHandlePublish

/-!
# `republish_all` after calls that returned Ok

Calls run one after the other and return Ok; then `republish_all` publishes the
rows of the catalog again. A row is republished under the `(epoch, seq)` tuple
its call published under, so its bytes must be the published ones. A hint row
does not hold the file size its call took from the store.
-/
namespace Skippr.L3.Handle

open Skippr.L2

/-! ## Whole calls -/

structure Durable where
  catalog : Catalog
  store : OffsetStore

def finish (catalog : Catalog) (store : OffsetStore) (seq : Nat) (todo : List Entry) :
    Option Durable :=
  match publishAll .fresh store (todo.map fun e => (seq, e)) with
  | .ok store => some ⟨catalog, store⟩
  | .error _ => none

def persist (d : Durable) (op : Op) : Option Durable :=
  (op.start d.store).bind fun c =>
    match lookup d.catalog c with
    | some (.publishing seq todo) => finish d.catalog d.store seq todo
    | some (.committing version) =>
      (commit d.catalog c.request version).bind fun catalog =>
        finish catalog d.store catalog.maxSeq c.publishes
    | _ => none

def OffsetValues (store : OffsetStore) : Prop :=
  ∀ sk cell, store.get sk = some cell →
    NotFence sk ∧ ∃ bytes, cell = .value bytes ∧ bytes.length = 24

def calls : LTS Durable Op :=
  LTS.ofFn (fun d => d.catalog = ⟨∅, ∅, 0⟩ ∧ OffsetValues d.store) persist

/-- No offset of the segment is published under a key that is a fence key. -/
def NoFenceKey : Durable → Op → Prop
  | _, .segment _ payload _ => ∀ o ∈ payload.offsets, NotFence (offsetKey o.1.1 o.1.2)
  | _, .s3Segment _ payload _ => ∀ o ∈ payload.offsets, NotFence (offsetKey o.1.1 o.1.2)
  | _, .checkpoint _ _ => True
  | _, .offsetHint _ _ _ _ => True

instance (d : Durable) : DecidablePred (NoFenceKey d)
  | .segment _ payload _ => inferInstanceAs (Decidable (∀ o ∈ payload.offsets, _))
  | .s3Segment _ payload _ => inferInstanceAs (Decidable (∀ o ∈ payload.offsets, _))
  | .checkpoint _ _ => .isTrue trivial
  | .offsetHint _ _ _ _ => .isTrue trivial

/-! ## Fresh publishes -/

def Values (store : OffsetStore) : Prop :=
  ∀ sk f, fenceOf store sk = some f →
    NotFence sk ∧ f.epoch = epoch ∧ ∃ bytes, f.sha = .digest bytes ∧ published store sk = some bytes

/-- Publishes under one seq: a fence stays, or rises to the seq from below. -/
def Raised (seq : Nat) (store store' : OffsetStore) : Prop :=
  ∀ sk, fenceOf store' sk = fenceOf store sk ∨
    (∀ f, fenceOf store sk = some f → f.seq < seq) ∧
      ∃ f, fenceOf store' sk = some f ∧ f.seq = seq

theorem Raised.refl (seq : Nat) (store : OffsetStore) : Raised seq store store := fun _ => .inl rfl

variable {seq : Nat} {store store' : OffsetStore} {sk : Text} {d : Durable}

theorem Raised.trans {a b c : OffsetStore} (hab : Raised seq a b) (hbc : Raised seq b c) :
    Raised seq a c := by
  intro sk
  cases hbc sk with
  | inl hsame =>
    rw [hsame]
    exact hab sk
  | inr hrise =>
    obtain ⟨hbelow, hnew⟩ := hrise
    cases hab sk with
    | inl hsame =>
      rw [hsame] at hbelow
      exact .inr ⟨hbelow, hnew⟩
    | inr hrise =>
      -- The first rise has put the fence at the seq already.
      obtain ⟨-, f, hf, hseq⟩ := hrise
      have := hbelow f hf
      omega

theorem Raised.keeps (h : Raised seq store store') {f : Fence} (hf : fenceOf store sk = some f)
    (hseq : seq ≤ f.seq) : fenceOf store' sk = some f := by
  cases h sk with
  | inl hsame => rw [hsame, hf]
  | inr hrise =>
    have := hrise.1 f hf
    omega

theorem Values.put (h : Values store) (hsk : NotFence sk) (bytes : Bytes) (seq : Nat) :
    Values (put store sk bytes epoch seq) := by
  intro sk' f hf
  rw [fenceOf_put hsk] at hf
  split at hf
  · rename_i heq
    subst heq
    cases hf
    exact ⟨hsk, rfl, bytes, rfl, by rw [published_put hsk, if_pos rfl]⟩
  · rename_i hne
    obtain ⟨hnot, hepoch, b, hsha, hpub⟩ := h sk' f hf
    exact ⟨hnot, hepoch, b, hsha, by rw [published_put hnot, if_neg hne, hpub]⟩

theorem publish_fresh (h : Values store) {bytes : Bytes} (hsk : NotFence sk)
    (hp : publishWalCommit store sk bytes epoch seq .fresh = .ok store') :
    Values store' ∧ Raised seq store store' ∧
      fenceOf store' sk = some ⟨epoch, seq, .digest bytes⟩ := by
  cases publishWalCommit_fresh hp with
  | inl hsame =>
    obtain ⟨rfl, hf⟩ := hsame
    exact ⟨h, .refl _ _, hf⟩
  | inr hput =>
    obtain ⟨rfl, hbelow⟩ := hput
    refine ⟨h.put hsk bytes seq, fun sk' => ?_, by rw [fenceOf_put hsk, if_pos rfl]⟩
    rw [fenceOf_put hsk]
    split
    · rename_i heq
      subst heq
      refine .inr ⟨fun f hf => ?_, _, rfl, rfl⟩
      have hlt := hbelow f hf
      unfold epoch at hlt
      omega
    · exact .inl rfl

theorem publishAll_fresh (todo : List Entry) :
    ∀ {store store' : OffsetStore}, Values store → (∀ e ∈ todo, NotFence e.1) →
      publishAll .fresh store (todo.map fun e => (seq, e)) = .ok store' →
      Values store' ∧ Raised seq store store' ∧
        ∀ e ∈ todo, fenceOf store' e.1 = some ⟨epoch, seq, .digest e.2⟩ := by
  induction todo with
  | nil =>
    intro store store' h _ hp
    cases hp
    exact ⟨h, .refl _ _, fun e he => by cases he⟩
  | cons e todo ih =>
    intro store store' h hnot hp
    obtain ⟨hne, hntodo⟩ := List.forall_mem_cons.1 hnot
    simp only [List.map_cons, publishAll] at hp
    split at hp
    · cases hp
    · rename_i store₁ hp₁
      obtain ⟨hvalues₁, hraised₁, hfence₁⟩ := publish_fresh h hne hp₁
      obtain ⟨hvalues, hraised, hfences⟩ := ih hvalues₁ hntodo hp
      refine ⟨hvalues, hraised₁.trans hraised, ?_⟩
      intro e' he'
      cases List.mem_cons.1 he' with
      | inl heq =>
        rw [heq]
        exact hraised.keeps hfence₁ (Nat.le_refl _)
      | inr hmem => exact hfences e' hmem

/-! ## What stands after the calls -/

/-- The key of a row stands under the row's seq, with bytes `ok` accepts, or
under a later seq. -/
def Stands (store : OffsetStore) (seq : Nat) (sk : Text) (ok : Bytes → Prop) : Prop :=
  ∃ f, fenceOf store sk = some f ∧ seq ≤ f.seq ∧
    (f.seq = seq → ∃ bytes, f.sha = .digest bytes ∧ ok bytes)

theorem Stands.raise {seq' : Nat} {ok : Bytes → Prop} (h : Stands store seq sk ok)
    (hr : Raised seq' store store') : Stands store' seq sk ok := by
  obtain ⟨f, hf, hle, hbytes⟩ := h
  cases hr sk with
  | inl hsame => exact ⟨f, by rw [hsame, hf], hle, hbytes⟩
  | inr hrise =>
    obtain ⟨hbelow, f', hf', hseq⟩ := hrise
    have hlt := hbelow f hf
    exact ⟨f', hf', by omega, fun heq => by omega⟩

def hintBytes (filesize position : Nat) (closed : Bool) : Bytes :=
  le64 filesize ++ le64 position ++ le64 closed.toNat

/-- The bytes a control row's call may have published: the row's, but for the
file size of a hint. -/
def Like : ControlBody → Bytes → Prop
  | .checkpoint _ envelope, bytes => bytes = envelope
  | .offsetHint position closed, bytes =>
    ∃ filesize, filesize < 2 ^ 64 ∧ bytes = hintBytes filesize position closed

structure Settled (d : Durable) : Prop where
  values : Values d.store
  bound : ∀ sk f, fenceOf d.store sk = some f → f.seq ≤ d.catalog.maxSeq
  segments : ∀ id row, d.catalog.segments.get id = some row →
    row.seq ≤ d.catalog.maxSeq ∧ ∀ e ∈ row.entries, Stands d.store row.seq e.1 (· = e.2)
  controls : ∀ key row, d.catalog.controls.get key = some row →
    row.seq ≤ d.catalog.maxSeq ∧ Matches key row.body ∧ Stands d.store row.seq key.sk (Like row.body)

def Publishes (c : Call) : Prop :=
  (∀ e ∈ c.publishes, NotFence e.1) ∧
    match c.request with
    | .segment _ _ offsets checkpoints => c.publishes = entries offsets checkpoints
    | .control key body =>
      Matches key body ∧ ∃ bytes, Like body bytes ∧ c.publishes = [(key.sk, bytes)]

theorem storedFilesize_lt (store : OffsetStore) (ns partition : Text) :
    storedFilesize store ns partition < 2 ^ 64 := by
  unfold storedFilesize
  split
  · rename_i bytes _
    split
    · have hlt := ofLe64_lt (bytes.take 8)
      have hpow : 256 ^ (bytes.take 8).length ≤ 256 ^ 8 :=
        Nat.pow_le_pow_right (by decide) (List.length_take_le 8 bytes)
      have : (256 : Nat) ^ 8 = 2 ^ 64 := by decide
      omega
    · decide
  · decide

theorem publishes_persistRow {id : Text} {payload : Payload} {updates : List (Text × Bytes)}
    (h : ∀ o ∈ payload.offsets, NotFence (offsetKey o.1.1 o.1.2)) :
    Publishes (persistRow store id payload updates) := by
  refine ⟨fun e he => ?_, rfl⟩
  have hkey := (persistRow_keys store id payload updates).subset (List.mem_map_of_mem he)
  cases List.mem_append.1 hkey with
  | inl hoffset =>
    obtain ⟨o, ho, heq⟩ := List.mem_map.1 hoffset
    rw [← heq]
    exact h o ho
  | inr hcheckpoint =>
    obtain ⟨u, -, heq⟩ := List.mem_map.1 hcheckpoint
    rw [← heq]
    exact notFence_checkpointKey u.1

theorem publishes_start {op : Op} {c : Call} (h : NoFenceKey d op) (hc : op.start d.store = some c) :
    Publishes c := by
  cases op with
  | segment id payload updates | s3Segment id payload updates =>
    cases hc
    exact publishes_persistRow h
  | checkpoint logicalKey envelope =>
    simp only [Op.start, persistCheckpoint] at hc
    split at hc
    · cases hc
    · cases hc
      refine ⟨fun e he => ?_, rfl, envelope, rfl, rfl⟩
      rw [List.mem_singleton.1 he]
      exact notFence_checkpointKey logicalKey
  | offsetHint ns partition position closed =>
    simp only [Op.start, persistOffsetHint] at hc
    split at hc
    · rename_i hns hpart
      cases hc
      refine ⟨fun e he => ?_, trivial, _, ⟨_, storedFilesize_lt d.store ns partition, rfl⟩, rfl⟩
      rw [List.mem_singleton.1 he]
      exact notFence_offsetKey hns hpart
    · cases hc

section Calls
variable {d d' : Durable} {c : Call}

variable {catalog : Catalog} {store : OffsetStore} {seq : Nat} {todo : List Entry}

theorem finish_some (h : finish catalog store seq todo = some d') (hvalues : Values store)
    (hnot : ∀ e ∈ todo, NotFence e.1) :
    d'.catalog = catalog ∧ Values d'.store ∧ Raised seq store d'.store ∧
      ∀ e ∈ todo, fenceOf d'.store e.1 = some ⟨epoch, seq, .digest e.2⟩ := by
  unfold finish at h
  split at h
  · rename_i store' hp
    cases h
    exact ⟨rfl, publishAll_fresh todo hvalues hnot hp⟩
  · cases h

theorem bound_raised {store' : OffsetStore} {max max' : Nat}
    (h : ∀ sk f, fenceOf store sk = some f → f.seq ≤ max) (hr : Raised seq store store')
    (hseq : seq ≤ max') (hmax : max ≤ max') :
    ∀ sk f, fenceOf store' sk = some f → f.seq ≤ max' := by
  intro sk f hf
  cases hr sk with
  | inl hsame =>
    rw [hsame] at hf
    exact (h sk f hf).trans hmax
  | inr hrise =>
    obtain ⟨-, f', hf', hseq'⟩ := hrise
    cases hf.symm.trans hf'
    omega

theorem settled_found (h : Settled d) (hseq : seq ≤ d.catalog.maxSeq)
    (hnot : ∀ e ∈ todo, NotFence e.1) (hf : finish d.catalog d.store seq todo = some d') :
    Settled d' := by
  obtain ⟨hcat, hvalues, hraised, -⟩ := finish_some hf h.values hnot
  constructor
  · exact hvalues
  · rw [hcat]
    exact bound_raised h.bound hraised hseq (Nat.le_refl _)
  · intro id row hrow
    rw [hcat] at hrow ⊢
    obtain ⟨hle, hstands⟩ := h.segments id row hrow
    exact ⟨hle, fun e he => (hstands e he).raise hraised⟩
  · intro key row hrow
    rw [hcat] at hrow ⊢
    obtain ⟨hle, hmatches, hstands⟩ := h.controls key row hrow
    exact ⟨hle, hmatches, hstands.raise hraised⟩

theorem stands_new {sk : Text} {bytes : Bytes} {ok : Bytes → Prop}
    (hf : fenceOf store sk = some ⟨epoch, seq, .digest bytes⟩) (hok : ok bytes) :
    Stands store seq sk ok :=
  ⟨_, hf, Nat.le_refl _, fun _ => ⟨bytes, rfl, hok⟩⟩

theorem settled_committed (h : Settled d) (hc : Publishes c) {version : Option Nat}
    (hcommit : commit d.catalog c.request version = some catalog)
    (hf : finish catalog d.store catalog.maxSeq c.publishes = some d') : Settled d' := by
  obtain ⟨hnot, hrequest⟩ := hc
  obtain ⟨hcat, hvalues, hraised, hnew⟩ := finish_some hf h.values hnot
  have hmax : catalog.maxSeq = d.catalog.maxSeq + 1 := (committed_of_commit hcommit).maxSeq
  have hbound : ∀ sk f, fenceOf d'.store sk = some f → f.seq ≤ d'.catalog.maxSeq := by
    rw [hcat]
    exact bound_raised h.bound hraised (Nat.le_refl _) (by omega)
  -- The rows that were there stand as before; only the new row is left to see.
  have hsegments : ∀ id row, d.catalog.segments.get id = some row →
      row.seq ≤ catalog.maxSeq ∧ ∀ e ∈ row.entries, Stands d'.store row.seq e.1 (· = e.2) := by
    intro id row hrow
    obtain ⟨hle, hstands⟩ := h.segments id row hrow
    exact ⟨by omega, fun e he => (hstands e he).raise hraised⟩
  have hcontrols : ∀ key row, d.catalog.controls.get key = some row →
      row.seq ≤ catalog.maxSeq ∧ Matches key row.body ∧
        Stands d'.store row.seq key.sk (Like row.body) := by
    intro key row hrow
    obtain ⟨hle, hmatches, hstands⟩ := h.controls key row hrow
    exact ⟨by omega, hmatches, hstands.raise hraised⟩
  cases hreq : c.request with
  | segment id payload offsets checkpoints =>
    simp only [hreq] at hrequest hcommit
    simp only [commit] at hcommit
    split at hcommit
    · cases hcommit
    · cases hcommit
      refine ⟨hvalues, hbound, ?_, by rw [hcat]; exact hcontrols⟩
      rw [hcat]
      intro id' row hrow
      rcases Map.get_insert_cases hrow with ⟨-, rfl⟩ | ⟨-, hrow⟩
      · refine ⟨Nat.le_refl _, fun e he => stands_new (hnew e ?_) rfl⟩
        rw [hrequest]
        exact he
      · exact hsegments id' row hrow
  | control key body =>
    simp only [hreq] at hrequest hcommit
    obtain ⟨hmatches, bytes, hlike, hpublishes⟩ := hrequest
    obtain ⟨-, rfl⟩ := of_guard hcommit
    refine ⟨hvalues, hbound, by rw [hcat]; exact hsegments, ?_⟩
    rw [hcat]
    intro key' row hrow
    rcases Map.get_insert_cases hrow with ⟨rfl, rfl⟩ | ⟨-, hrow⟩
    · refine ⟨Nat.le_refl _, hmatches, stands_new (hnew (key'.sk, bytes) ?_) hlike⟩
      rw [hpublishes]
      exact List.mem_singleton_self _
    · exact hcontrols key' row hrow

theorem lookup_found (h : lookup catalog c = some (.publishing seq todo)) :
    todo = c.publishes ∧ ((∃ id row, catalog.segments.get id = some row ∧ row.seq = seq) ∨
      ∃ key row, catalog.controls.get key = some row ∧ row.seq = seq) := by
  unfold lookup at h
  split at h
  · split at h
    · rename_i row hrow
      split at h
      · cases h
        exact ⟨rfl, .inl ⟨_, row, hrow, rfl⟩⟩
      · cases h
    · cases h
  · split at h
    · rename_i row hrow
      split at h
      · cases h
        exact ⟨rfl, .inr ⟨_, row, hrow, rfl⟩⟩
      · cases h
    · cases h

theorem settled_persist (h : Settled d) {op : Op} (hop : NoFenceKey d op)
    (hp : persist d op = some d') : Settled d' := by
  obtain ⟨c, hstart, hp⟩ := Option.bind_eq_some_iff.1 hp
  have hc := publishes_start hop hstart
  split at hp
  · rename_i seq todo hlookup
    obtain ⟨rfl, hrow⟩ := lookup_found hlookup
    have hseq : seq ≤ d.catalog.maxSeq := by
      cases hrow with
      | inl hrow =>
        obtain ⟨id, row, hrow, rfl⟩ := hrow
        exact (h.segments id row hrow).1
      | inr hrow =>
        obtain ⟨key, row, hrow, rfl⟩ := hrow
        exact (h.controls key row hrow).1
    exact settled_found h hseq hc.1 hp
  · obtain ⟨catalog, hcommit, hf⟩ := Option.bind_eq_some_iff.1 hp
    exact settled_committed h hc hcommit hf
  · cases hp

theorem settled_inductive : (calls.restrict NoFenceKey).Inductive Settled where
  init d hd := by
    obtain ⟨hcatalog, hstore⟩ := hd
    have hnone : ∀ sk, fenceOf d.store sk = none := by
      intro sk
      cases hget : d.store.get (fenceKey sk) with
      | none => simp [fenceOf, hget]
      | some cell => exact absurd (List.prefix_append fenceMark sk) (hstore _ _ hget).1
    constructor
    · intro sk f hf
      rw [hnone] at hf
      cases hf
    · intro sk f hf
      rw [hnone] at hf
      cases hf
    · intro id row hrow
      rw [hcatalog] at hrow
      cases hrow
    · intro key row hrow
      rw [hcatalog] at hrow
      cases hrow
  step d op d' h hstep := settled_persist h hstep.1 hstep.2

end Calls

/-! ## Republishing -/

def SameBytes (store : OffsetStore) (todo : List (Nat × Entry)) : Prop :=
  ∀ p ∈ todo, ∀ f, fenceOf store p.2.1 = some f → f.seq = p.1 → f.sha = .digest p.2.2

/-- Over fences that are at least the seqs to republish, nothing is written:
the first row with other bytes under its own seq ends it. -/
theorem publishAll_republish_cases (todo : List (Nat × Entry))
    (h : ∀ p ∈ todo, ∃ f, fenceOf store p.2.1 = some f ∧ f.epoch = epoch ∧ p.1 ≤ f.seq) :
    (publishAll .republish store todo = .ok store ∧ SameBytes store todo) ∨
      (publishAll .republish store todo = .error .corrupt ∧ ¬ SameBytes store todo) := by
  induction todo with
  | nil => exact .inl ⟨rfl, fun p hp => by cases hp⟩
  | cons p todo ih =>
    obtain ⟨seq, sk, bytes⟩ := p
    obtain ⟨⟨f, hf, hepoch, hle⟩, htodo⟩ := List.forall_mem_cons.1 h
    simp only at hf hle
    by_cases hbytes : f.seq = seq → f.sha = .digest bytes
    · have hpublish : publishWalCommit store sk bytes epoch seq .republish = .ok store := by
        unfold publishWalCommit decideWalPublish
        by_cases heq : f.seq = seq
        · simp [hf, hepoch, heq, hbytes heq]
        · have hlt : seq < f.seq := by omega
          simp [hf, hepoch, heq, hlt]
      have hsame : SameBytes store ((seq, sk, bytes) :: todo) ↔ SameBytes store todo := by
        constructor
        · intro hall p hp
          exact hall p (List.mem_cons_of_mem _ hp)
        · intro hall p hp
          cases List.mem_cons.1 hp with
          | inl heq =>
            subst heq
            intro f' hf'
            cases hf.symm.trans hf'
            exact hbytes
          | inr hmem => exact hall p hmem
      simp only [publishAll, hpublish, hsame]
      exact ih htodo
    · obtain ⟨heq, hsha⟩ := Classical.not_imp.1 hbytes
      right
      constructor
      · simp [publishAll, publishWalCommit, decideWalPublish, hf, hepoch, heq, hsha]
      · intro hall
        exact hsha (hall _ List.mem_cons_self f hf heq)

theorem Settled.fenced (h : Settled d) :
    ∀ p ∈ republishList d.catalog, ∃ f, fenceOf d.store p.2.1 = some f ∧ f.epoch = epoch ∧
      p.1 ≤ f.seq := by
  have hstands : ∀ seq sk ok, Stands d.store seq sk ok →
      ∃ f, fenceOf d.store sk = some f ∧ f.epoch = epoch ∧ seq ≤ f.seq := by
    intro seq sk ok hs
    obtain ⟨f, hf, hle, -⟩ := hs
    exact ⟨f, hf, (h.values sk f hf).2.1, hle⟩
  intro p hp
  obtain ⟨row, hlive, hseq, he⟩ := mem_republishList.1 hp
  rw [← hseq]
  cases hlive with
  | inl hlive =>
    obtain ⟨id, r, hr, rfl⟩ := hlive
    exact hstands _ _ _ ((h.segments id r hr).2 p.2 he)
  | inr hlive =>
    obtain ⟨key, r, hr, rfl⟩ := hlive
    obtain ⟨-, hmatches, hs⟩ := h.controls key r hr
    have hkey := hmatches.keys
    have hmem : p.2.1 ∈ (controlEntries key r.body).map Prod.fst := List.mem_map_of_mem he
    rw [hkey, List.mem_singleton] at hmem
    rw [hmem]
    exact hstands _ _ _ hs

def HintsPlain (d : Durable) : Prop :=
  ∀ ns partition row f, d.catalog.controls.get (.offsetHint ns partition) = some row →
    fenceOf d.store (offsetKey ns partition) = some f → f.seq = row.seq →
    storedFilesize d.store ns partition = 0

theorem storedFilesize_hint {ns partition : Text} {filesize position : Nat} {closed : Bool}
    (hlt : filesize < 2 ^ 64)
    (hpub : published store (offsetKey ns partition) = some (hintBytes filesize position closed)) :
    storedFilesize store ns partition = filesize := by
  have hlen : (hintBytes filesize position closed).length = 24 := by simp [hintBytes, length_le64]
  have htake : (hintBytes filesize position closed).take 8 = le64 filesize := by
    rw [hintBytes, List.append_assoc, List.take_left' (length_le64 _)]
  unfold storedFilesize
  simp only [hpub]
  rw [if_pos hlen, htake, ofLe64_le64 hlt]

theorem Settled.sameBytes_iff (h : Settled d) :
    SameBytes d.store (republishList d.catalog) ↔ HintsPlain d := by
  constructor
  · intro hsame ns partition row f hrow hf hseq
    obtain ⟨-, hmatches, f', hf', -, hlike⟩ := h.controls _ row hrow
    cases hf.symm.trans hf'
    cases hbody : row.body with
    | checkpoint logicalKey envelope =>
      rw [hbody] at hmatches
      cases hmatches
    | offsetHint position closed =>
      have hentry : (row.seq, offsetKey ns partition, hintBytes 0 position closed) ∈
          republishList d.catalog :=
        mem_republishList.2 ⟨_, .inr ⟨_, row, hrow, rfl⟩, rfl, by
          rw [hbody]
          exact List.mem_singleton_self _⟩
      have hsha := hsame _ hentry f hf hseq
      obtain ⟨-, -, bytes, hbytes, hpub⟩ := h.values _ f hf
      rw [hbytes] at hsha
      obtain rfl := Sha.digest.inj hsha
      exact storedFilesize_hint (by decide) hpub
  · intro hplain p hp f hf hseq
    obtain ⟨row, hlive, hrow, he⟩ := mem_republishList.1 hp
    cases hlive with
    | inl hlive =>
      obtain ⟨id, r, hr, rfl⟩ := hlive
      obtain ⟨f', hf', -, hbytes⟩ := (h.segments id r hr).2 p.2 he
      cases hf.symm.trans hf'
      obtain ⟨bytes, hsha, rfl⟩ := hbytes (hseq.trans hrow.symm)
      exact hsha
    | inr hlive =>
      obtain ⟨key, r, hr, rfl⟩ := hlive
      obtain ⟨-, hmatches, f', hf', -, hbytes⟩ := h.controls key r hr
      cases key with
      | checkpoint logicalKey =>
        cases hbody : r.body with
        | offsetHint position closed =>
          rw [hbody] at hmatches
          cases hmatches
        | checkpoint logicalKey' envelope =>
          rw [hbody] at hmatches he hbytes
          obtain rfl : logicalKey = logicalKey' := hmatches
          have hp2 : p.2 = (checkpointKey logicalKey, envelope) := List.mem_singleton.1 he
          rw [hp2] at hf ⊢
          cases hf.symm.trans hf'
          obtain ⟨bytes, hsha, rfl⟩ := hbytes (hseq.trans hrow.symm)
          exact hsha
      | offsetHint ns partition =>
        cases hbody : r.body with
        | checkpoint logicalKey envelope =>
          rw [hbody] at hmatches
          cases hmatches
        | offsetHint position closed =>
          rw [hbody] at he hbytes
          have hp2 : p.2 = (offsetKey ns partition, hintBytes 0 position closed) :=
            List.mem_singleton.1 he
          rw [hp2] at hf ⊢
          cases hf.symm.trans hf'
          obtain ⟨bytes, hsha, filesize, hlt, rfl⟩ := hbytes (hseq.trans hrow.symm)
          obtain ⟨-, -, bytes', hbytes', hpub⟩ := h.values _ f hf
          rw [hsha] at hbytes'
          obtain rfl := Sha.digest.inj hbytes'
          have hzero := hplain ns partition r f hr hf (hseq.trans hrow.symm)
          rw [storedFilesize_hint hlt hpub] at hzero
          rw [hsha, hzero]

/-- **Republishing.** After any calls that returned Ok, none of them publishing
an offset under a fence key, `republish_all` returns Ok and leaves what is
published unchanged exactly if every hint row whose seq is still the published
one was published with file size 0. -/
theorem republish_unchanged_iff (d : Durable) (h : (calls.restrict NoFenceKey).Reachable d) :
    (∃ store, republishAll d.catalog d.store = .ok store ∧
      ∀ sk, published store sk = published d.store sk) ↔ HintsPlain d := by
  have hsettled := settled_inductive.reachable d h
  rw [← hsettled.sameBytes_iff]
  unfold republishAll
  cases publishAll_republish_cases (republishList d.catalog) hsettled.fenced with
  | inl hok =>
    rw [hok.1]
    exact ⟨fun _ => hok.2, fun _ => ⟨d.store, rfl, fun _ => rfl⟩⟩
  | inr herr =>
    rw [herr.1]
    constructor
    · intro hex
      obtain ⟨store, hstore, -⟩ := hex
      cases hstore
    · intro hsame
      exact absurd hsame herr.2

/-! ## A hint over a stored file size -/

theorem offsetValues_legacyStore : OffsetValues legacyStore := by
  intro sk cell hget
  rw [legacyStore, Map.get_insert] at hget
  obtain ⟨hsk, rfl⟩ := of_guard hget
  rw [hsk]
  exact ⟨by decide, _, rfl, by decide⟩

theorem valid_segment : L1.validatePathComponent ['s'] = .ok () := rfl

/-- A hint over the stored file size, then a segment that advances the same
offset and keeps the file size in its row, then a checkpoint. -/
def overtakenHint : List Op :=
  [.offsetHint ['a'] ['b'] 3 true, .segment ⟨['s'], valid_segment⟩ ⟨[((['a'], ['b']), 7)], 0⟩ [],
    .checkpoint ['k'] [1]]

def overtakenDurable : Durable :=
  (exec (guarded NoFenceKey persist) ⟨⟨∅, ∅, 0⟩, legacyStore⟩ overtakenHint).get (by decide +kernel)

theorem republish_unchanged_overtaken :
    (calls.restrict NoFenceKey).Reachable overtakenDurable ∧
      published overtakenDurable.store (offsetKey ['a'] ['b']) = some (le64 5 ++ le64 7 ++ le64 1) ∧
      ∃ store, republishAll overtakenDurable.catalog overtakenDurable.store = .ok store ∧
        ∀ sk, published store sk = published overtakenDurable.store sk := by
  have hreach : (calls.restrict NoFenceKey).Reachable overtakenDurable :=
    restrict_reachable_of_exec ⟨rfl, offsetValues_legacyStore⟩ (Option.some_get _).symm
  refine ⟨hreach, by decide +kernel, (republish_unchanged_iff overtakenDurable hreach).2 ?_⟩
  intro ns partition row f hrow hf hseq
  have hcontrols : overtakenDurable.catalog.controls.toList =
      [(.checkpoint ['k'], ⟨3, .checkpoint ['k'] [1], 0⟩),
        (.offsetHint ['a'] ['b'], ⟨1, .offsetHint 3 true, 0⟩)] := by decide +kernel
  have hmem := (Map.mem_toList _ _ _).2 hrow
  rw [hcontrols] at hmem
  simp only [List.mem_cons, Prod.mk.injEq, reduceCtorEq, false_and, ControlKey.offsetHint.injEq,
    List.not_mem_nil, or_false, false_or] at hmem
  obtain ⟨⟨rfl, rfl⟩, rfl⟩ := hmem
  -- The segment has raised the fence of the key to 2.
  have hfence : fenceOf overtakenDurable.store (offsetKey ['a'] ['b']) =
      some ⟨0, 2, .digest (le64 5 ++ le64 7 ++ le64 1)⟩ := by decide +kernel
  cases hf.symm.trans hfence
  cases hseq

def hintDurable : Durable :=
  (exec persist ⟨⟨∅, ∅, 0⟩, legacyStore⟩ [.offsetHint ['a'] ['b'] 3 true]).get (by decide +kernel)

/-- The hint is published with file size 5, its row is republished with 0 under
the same tuple. -/
theorem republish_fails_after_hint :
    calls.Reachable hintDurable ∧
      published hintDurable.store (offsetKey ['a'] ['b']) = some (le64 5 ++ le64 3 ++ le64 1) ∧
      republishAll hintDurable.catalog hintDurable.store = .error .corrupt :=
  ⟨reachable_of_exec ⟨rfl, offsetValues_legacyStore⟩ (Option.some_get _).symm, by decide +kernel, rfl⟩

end Skippr.L3.Handle
