import Skippr.L3Wal.Republish

/-!
# Repeating a call that returned Ok

A call that finds its row in the catalog commits nothing: it publishes its keys
again under the seq of the row, in `Fresh` mode. The bytes are computed anew
from the arguments and the stored file sizes. A fence that has risen above the
seq of the row refuses the publish.
-/
namespace Skippr.L3.Handle

open Skippr.L2

/-! ## The row of a call -/

/-- The key of the control row a request writes; a segment row is never
written twice. -/
def Request.controlKey : Request → Option ControlKey
  | .segment _ _ _ _ => none
  | .control key _ => some key

def Found (catalog : Catalog) (seq : Nat) : Request → Prop
  | .segment id payload _ _ =>
    ∃ row, catalog.segments.get id = some row ∧ row.payload = payload ∧ row.seq = seq
  | .control key body =>
    ∃ row, catalog.controls.get key = some row ∧ row.body = body ∧ row.seq = seq

variable {catalog : Catalog} {seq : Nat} {c : Call} {store : OffsetStore} {op : Op}

theorem lookup_of_found (h : Found catalog seq c.request) :
    lookup catalog c = some (.publishing seq c.publishes) := by
  unfold lookup
  cases hreq : c.request with
  | segment id payload offsets checkpoints =>
    rw [hreq] at h
    obtain ⟨row, hrow, hpayload, hseq⟩ := h
    simp [hrow, hpayload, hseq]
  | control key body =>
    rw [hreq] at h
    obtain ⟨row, hrow, hbody, hseq⟩ := h
    simp [hrow, hbody, hseq]

theorem found_of_lookup {todo : List Entry} (h : lookup catalog c = some (.publishing seq todo)) :
    Found catalog seq c.request ∧ todo = c.publishes := by
  unfold lookup at h
  split at h
  · rename_i id payload _ _ hreq
    rw [hreq]
    split at h
    · rename_i row hrow
      split at h
      · rename_i hpayload
        cases h
        exact ⟨⟨row, hrow, hpayload, rfl⟩, rfl⟩
      · cases h
    · cases h
  · rename_i key body hreq
    rw [hreq]
    split at h
    · rename_i row hrow
      split at h
      · rename_i hbody
        cases h
        exact ⟨⟨row, hrow, hbody, rfl⟩, rfl⟩
      · cases h
    · cases h

section Commit
variable {catalog catalog' : Catalog} {request : Request} {version : Option Nat}

theorem found_of_commit (h : commit catalog request version = some catalog') :
    Found catalog' catalog'.maxSeq request := by
  cases request with
  | segment id payload offsets checkpoints =>
    simp only [commit] at h
    split at h
    · cases h
    · cases h
      exact ⟨_, (Map.get_insert _ _ _ _).trans (if_pos rfl), rfl, rfl⟩
  | control key body =>
    obtain ⟨-, rfl⟩ := of_guard h
    exact ⟨_, (Map.get_insert _ _ _ _).trans (if_pos rfl), rfl, rfl⟩

theorem Found.commit (h : Handle.commit catalog request version = some catalog') {seq : Nat}
    {old : Request} (hold : Found catalog seq old)
    (hkey : ∀ key, old.controlKey = some key → request.controlKey ≠ some key) :
    Found catalog' seq old := by
  cases request with
  | segment id payload offsets checkpoints =>
    simp only [Handle.commit] at h
    split at h
    · cases h
    · rename_i hnone
      cases h
      cases old with
      | segment id' payload' offsets' checkpoints' =>
        obtain ⟨row, hrow, hpayload, hseq⟩ := hold
        refine ⟨row, ?_, hpayload, hseq⟩
        simp only [Map.get_insert]
        rw [if_neg]
        · exact hrow
        · rintro rfl
          rw [hnone] at hrow
          cases hrow
      | control key body => exact hold
  | control key body =>
    obtain ⟨-, rfl⟩ := of_guard h
    cases old with
    | segment id' payload' offsets' checkpoints' => exact hold
    | control key' body' =>
      obtain ⟨row, hrow, hbody, hseq⟩ := hold
      refine ⟨row, ?_, hbody, hseq⟩
      simp only [Map.get_insert]
      rw [if_neg]
      · exact hrow
      · rintro rfl
        exact hkey key' rfl rfl

end Commit

/-! ## What a call leaves behind -/

/-- The row of the call is in the catalog under `seq`, and its keys stand under
`seq` with the call's bytes, or under a later seq. -/
structure Standing (d : Durable) (c : Call) (seq : Nat) : Prop where
  values : Values d.store
  found : Found d.catalog seq c.request
  stands : ∀ e ∈ c.publishes, Stands d.store seq e.1 (· = e.2)

section Persist
variable {d d' : Durable} {op : Op}

theorem persist_cases (hvalues : Values d.store) (hop : NoFenceKey d op)
    (h : persist d op = some d') :
    ∃ c seq, op.start d.store = some c ∧ Standing d' c seq ∧ Raised seq d.store d'.store ∧
      ∀ seq' old, Found d.catalog seq' old →
        (∀ key, old.controlKey = some key → c.request.controlKey ≠ some key) →
        Found d'.catalog seq' old := by
  obtain ⟨c, hstart, hp⟩ := Option.bind_eq_some_iff.1 h
  have hnot := (publishes_start hop hstart).1
  split at hp
  · rename_i seq todo hlookup
    obtain ⟨hfound, rfl⟩ := found_of_lookup hlookup
    obtain ⟨hcat, hvalues', hraised, hfences⟩ := finish_some hp hvalues hnot
    refine ⟨c, seq, hstart, ⟨hvalues', ?_, fun e he => stands_new (hfences e he) rfl⟩, hraised, ?_⟩
    · rw [hcat]
      exact hfound
    · intro seq' old hold _
      rw [hcat]
      exact hold
  · obtain ⟨catalog, hcommit, hf⟩ := Option.bind_eq_some_iff.1 hp
    obtain ⟨hcat, hvalues', hraised, hfences⟩ := finish_some hf hvalues hnot
    refine ⟨c, catalog.maxSeq, hstart,
      ⟨hvalues', ?_, fun e he => stands_new (hfences e he) rfl⟩, hraised, ?_⟩
    · rw [hcat]
      exact found_of_commit hcommit
    · intro seq' old hold hkey
      rw [hcat]
      exact hold.commit hcommit hkey
  · cases hp

theorem standing_persist (hvalues : Values d.store) (hop : NoFenceKey d op)
    (h : persist d op = some d') : ∃ c seq, op.start d.store = some c ∧ Standing d' c seq := by
  obtain ⟨c, seq, hstart, hstanding, -⟩ := persist_cases hvalues hop h
  exact ⟨c, seq, hstart, hstanding⟩

def Op.controlKey : Op → Option ControlKey
  | .segment _ _ _ => none
  | .s3Segment _ _ _ => none
  | .checkpoint logicalKey _ => some (.checkpoint logicalKey)
  | .offsetHint ns partition _ _ => some (.offsetHint ns partition)

variable {c : Call}

theorem start_controlKey {store : OffsetStore} (h : op.start store = some c) :
    c.request.controlKey = op.controlKey := by
  cases op with
  | segment id payload updates | s3Segment id payload updates => cases h; rfl
  | checkpoint logicalKey envelope =>
    simp only [Op.start, persistCheckpoint] at h
    split at h
    · cases h
    · cases h
      rfl
  | offsetHint ns partition position closed =>
    simp only [Op.start, persistOffsetHint] at h
    split at h
    · cases h
      rfl
    · cases h

def NotRewritten (op : Op) (later : List Op) : Prop :=
  ∀ key, op.controlKey = some key → ∀ op' ∈ later, op'.controlKey ≠ some key

theorem Standing.persist {seq : Nat} (h : Standing d c seq) (hop : NoFenceKey d op)
    (hkey : ∀ key, c.request.controlKey = some key → op.controlKey ≠ some key)
    (hp : persist d op = some d') : Standing d' c seq := by
  obtain ⟨c', seq', hstart, hstanding, hraised, hkept⟩ := persist_cases h.values hop hp
  refine ⟨hstanding.values, hkept seq c.request h.found ?_, fun e he => (h.stands e he).raise hraised⟩
  intro key hc
  rw [start_controlKey hstart]
  exact hkey key hc

theorem Standing.run {seq : Nat} {later : List Op} (h : Standing d c seq)
    (hkey : ∀ key, c.request.controlKey = some key → ∀ op ∈ later, op.controlKey ≠ some key)
    (hrun : (calls.restrict NoFenceKey).Run d later d') : Standing d' c seq := by
  induction hrun with
  | nil d => exact h
  | cons hstep _ ih =>
    refine ih (h.persist hstep.1 (fun key hc => hkey key hc _ List.mem_cons_self) hstep.2) ?_
    intro key hc op hop
    exact hkey key hc op (List.mem_cons_of_mem _ hop)

theorem values_run {ops : List Op} (h : Values d.store)
    (hrun : (calls.restrict NoFenceKey).Run d ops d') : Values d'.store := by
  induction hrun with
  | nil d => exact h
  | cons hstep _ ih =>
    obtain ⟨c, seq, -, hstanding⟩ := standing_persist h hstep.1 hstep.2
    exact ih hstanding.values

end Persist

/-! ## Starting the call again -/

theorem storedFilesize_entry {o : CommittedOffset} (hlt : o.filesize < 2 ^ 64)
    (hpub : published store o.entry.1 = some o.entry.2) :
    storedFilesize store o.ns o.partition = o.filesize := by
  have hlen : o.entry.2.length = 24 := by simp [CommittedOffset.entry, length_le64]
  have htake : o.entry.2.take 8 = le64 o.filesize := by
    rw [CommittedOffset.entry, List.append_assoc, List.take_left' (length_le64 _)]
  have hpub' : published store (offsetKey o.ns o.partition) = some o.entry.2 := hpub
  unfold storedFilesize
  simp only [hpub']
  rw [if_pos hlen, htake, ofLe64_le64 hlt]

def offsetFrom (store : OffsetStore) (ns partition : Text) (position closed : Nat) :
    CommittedOffset :=
  ⟨ns, partition, storedFilesize store ns partition, position, closed⟩

theorem offsetFrom_again {store' : OffsetStore} {ns partition : Text} (position closed : Nat)
    (hpub : published store' (offsetKey ns partition) =
      some (offsetFrom store ns partition position closed).entry.2) :
    (offsetFrom store' ns partition position closed).entry =
      (offsetFrom store ns partition position closed).entry := by
  have hsize : storedFilesize store' ns partition = storedFilesize store ns partition :=
    storedFilesize_entry (o := offsetFrom store ns partition position closed)
      (storedFilesize_lt store ns partition) hpub
  unfold offsetFrom
  rw [hsize]

/-- The second list of publishes has the keys of the first, and the bytes of
the first wherever these are the published ones. -/
def Again (store : OffsetStore) (first second : List Entry) : Prop :=
  ∀ e ∈ second, ∃ e₀ ∈ first, e₀.1 = e.1 ∧ (published store e₀.1 = some e₀.2 → e.2 = e₀.2)

theorem again_persistRow (store store' : OffsetStore) (id : Text) (payload : Payload)
    (updates : List (Text × Bytes)) :
    Again store' (persistRow store id payload updates).publishes
      (persistRow store' id payload updates).publishes := by
  intro e he
  have mem_offsets : ∀ store (o : CommittedOffset),
      o ∈ committedOffsetsFrom payload.offsets store ↔
        ∃ p ∈ payload.offsets, offsetFrom store p.1.1 p.1.2 p.2 1 = o := by
    intro store o
    unfold committedOffsetsFrom
    rw [List.mem_insertionSort, List.mem_map]
    rfl
  cases List.mem_append.1 he with
  | inl hoffset =>
    obtain ⟨o, ho, rfl⟩ := List.mem_map.1 hoffset
    obtain ⟨p, hp, rfl⟩ := (mem_offsets store' o).1 ho
    refine ⟨(offsetFrom store p.1.1 p.1.2 p.2 1).entry, ?_, rfl, ?_⟩
    · exact List.mem_append_left _ (List.mem_map_of_mem ((mem_offsets store _).2 ⟨p, hp, rfl⟩))
    · intro hpub
      exact congrArg Prod.snd (offsetFrom_again p.2 1 hpub)
  | inr hcheckpoint => exact ⟨e, List.mem_append_right _ hcheckpoint, rfl, fun _ => rfl⟩

theorem start_again (h : op.start store = some c) (store' : OffsetStore) :
    ∃ c', op.start store' = some c' ∧ (∀ catalog seq, Found catalog seq c.request →
      Found catalog seq c'.request) ∧ Again store' c.publishes c'.publishes := by
  cases op with
  | segment id payload updates | s3Segment id payload updates =>
    cases h
    exact ⟨_, rfl, fun _ _ hfound => hfound, again_persistRow store store' id.raw payload updates⟩
  | checkpoint logicalKey envelope =>
    exact ⟨c, h, fun _ _ hfound => hfound, fun e he => ⟨e, he, rfl, fun _ => rfl⟩⟩
  | offsetHint ns partition position closed =>
    simp only [Op.start, persistOffsetHint] at h ⊢
    split at h
    · rename_i hns hpart
      cases h
      refine ⟨_, rfl, fun _ _ hfound => hfound, ?_⟩
      intro e he
      obtain rfl := List.mem_singleton.1 he
      refine ⟨_, List.mem_singleton_self _, rfl, ?_⟩
      intro hpub
      exact congrArg Prod.snd (offsetFrom_again position closed.toNat hpub)
    · cases h

/-! ## Publishing again -/

/-- Over fences that are the call's own or above its seq, publishing writes
nothing: the first key above the seq ends it. -/
theorem publishAll_fresh_cases (todo : List Entry)
    (h : ∀ e ∈ todo, fenceOf store e.1 = some ⟨epoch, seq, .digest e.2⟩ ∨
      ∃ f, fenceOf store e.1 = some f ∧ f.epoch = epoch ∧ seq < f.seq) :
    (publishAll .fresh store (todo.map fun e => (seq, e)) = .ok store ∧
        ∀ e ∈ todo, (fenceOf store e.1).map (·.seq) = some seq) ∨
      (publishAll .fresh store (todo.map fun e => (seq, e)) = .error .fenceRegression ∧
        ∃ e ∈ todo, (fenceOf store e.1).map (·.seq) ≠ some seq) := by
  induction todo with
  | nil => exact .inl ⟨rfl, fun e he => by cases he⟩
  | cons e todo ih =>
    obtain ⟨sk, bytes⟩ := e
    obtain ⟨he, htodo⟩ := List.forall_mem_cons.1 h
    cases he with
    | inl hown =>
      have hpublish : publishWalCommit store sk bytes epoch seq .fresh = .ok store := by
        simp [publishWalCommit, decideWalPublish, hown]
      simp only [List.map_cons, publishAll, hpublish]
      cases ih htodo with
      | inl hok =>
        refine .inl ⟨hok.1, List.forall_mem_cons.2 ⟨?_, hok.2⟩⟩
        rw [hown]
        rfl
      | inr herr =>
        obtain ⟨herr, e, he, hne⟩ := herr
        exact .inr ⟨herr, e, List.mem_cons_of_mem _ he, hne⟩
    | inr habove =>
      obtain ⟨f, hf, hepoch, hlt⟩ := habove
      have hne : f.seq ≠ seq := by omega
      simp only at hf
      refine .inr ⟨?_, (sk, bytes), List.mem_cons_self, ?_⟩
      · simp [publishAll, publishWalCommit, decideWalPublish, hf, hepoch, hlt, hne]
      · simpa [hf] using hne

/-! ## The call repeated -/

def Op.keys : Op → List Text
  | .segment _ payload updates => segmentKeys payload updates
  | .s3Segment _ payload updates => segmentKeys payload updates
  | .checkpoint logicalKey _ => [checkpointKey logicalKey]
  | .offsetHint ns partition _ _ => [offsetKey ns partition]

def Op.rowSeq (catalog : Catalog) : Op → Option Nat
  | .segment id _ _ => (catalog.segments.get id.raw).map (·.seq)
  | .s3Segment id _ _ => (catalog.segments.get id.raw).map (·.seq)
  | .checkpoint logicalKey _ => (catalog.controls.get (.checkpoint logicalKey)).map (·.seq)
  | .offsetHint ns partition _ _ => (catalog.controls.get (.offsetHint ns partition)).map (·.seq)

/-- No row but the call's own is the last that published one of its keys. -/
def OwnSeq (d : Durable) (op : Op) : Prop :=
  ∀ sk ∈ op.keys, (fenceOf d.store sk).map (·.seq) = op.rowSeq d.catalog

instance (d : Durable) (op : Op) : Decidable (OwnSeq d op) :=
  inferInstanceAs (Decidable (∀ sk ∈ op.keys, _))

theorem rowSeq_of_found (h : op.start store = some c) (hfound : Found catalog seq c.request) :
    op.rowSeq catalog = some seq := by
  cases op with
  | segment id payload updates | s3Segment id payload updates =>
    cases h
    obtain ⟨row, hrow, -, hseq⟩ := hfound
    simp [Op.rowSeq, hrow, hseq]
  | checkpoint logicalKey envelope =>
    simp only [Op.start, persistCheckpoint] at h
    split at h
    · cases h
    · cases h
      obtain ⟨row, hrow, -, hseq⟩ := hfound
      simp [Op.rowSeq, hrow, hseq]
  | offsetHint ns partition position closed =>
    simp only [Op.start, persistOffsetHint] at h
    split at h
    · cases h
      obtain ⟨row, hrow, -, hseq⟩ := hfound
      simp [Op.rowSeq, hrow, hseq]
    · cases h

theorem start_keys (h : op.start store = some c) : (c.publishes.map Prod.fst).Perm op.keys := by
  cases op with
  | segment id payload updates | s3Segment id payload updates =>
    cases h
    exact persistRow_keys store id.raw payload updates
  | checkpoint logicalKey envelope =>
    simp only [Op.start, persistCheckpoint] at h
    split at h
    · cases h
    · cases h
      exact .refl _
  | offsetHint ns partition position closed =>
    simp only [Op.start, persistOffsetHint] at h
    split at h
    · cases h
      exact .refl _
    · cases h

theorem Standing.fences {d : Durable} (h : Standing d c seq) {again : List Entry}
    (hagain : Again d.store c.publishes again) :
    ∀ e ∈ again, fenceOf d.store e.1 = some ⟨epoch, seq, .digest e.2⟩ ∨
      ∃ f, fenceOf d.store e.1 = some f ∧ f.epoch = epoch ∧ seq < f.seq := by
  intro e he
  obtain ⟨e₀, he₀, hkey, hbytes⟩ := hagain e he
  obtain ⟨f, hf, hle, hown⟩ := h.stands e₀ he₀
  obtain ⟨-, hepoch, bytes, hsha, hpub⟩ := h.values e₀.1 f hf
  rw [hkey] at hf
  by_cases hseq : f.seq = seq
  · obtain ⟨own, hsha', rfl⟩ := hown hseq
    obtain rfl := Sha.digest.inj (hsha.symm.trans hsha')
    left
    rw [hf, hbytes hpub, ← hsha, ← hepoch, ← hseq]
  · exact .inr ⟨f, hf, hepoch, by omega⟩

/-- **Repeating a call.** Over any catalog and any store whose fences are those
of its values, let calls return Ok, none of them publishing an offset under a
fence key, and let the last of them to write a checkpoint or hint row, or any of
the segment calls, be repeated. It returns Ok and leaves what is published
unchanged exactly if its row is still the last to have published each of its
keys. -/
theorem repeat_unchanged_iff (d₀ d : Durable) (before later : List Op) (op : Op)
    (h₀ : Values d₀.store) (hlast : NotRewritten op later)
    (hrun : (calls.restrict NoFenceKey).Run d₀ (before ++ op :: later) d) :
    (∃ d', persist d op = some d' ∧ ∀ sk, published d'.store sk = published d.store sk) ↔
      OwnSeq d op := by
  obtain ⟨d₁, hbefore, hrest⟩ := LTS.Run.split hrun
  cases hrest with
  | cons hstep hlater =>
    obtain ⟨c, seq, hstart, hstanding₁⟩ := standing_persist (values_run h₀ hbefore) hstep.1 hstep.2
    have hstanding : Standing d c seq := by
      refine hstanding₁.run ?_ hlater
      rw [start_controlKey hstart]
      exact hlast
    obtain ⟨c', hstart', hfound, hagain⟩ := start_again hstart d.store
    have hlookup := lookup_of_found (hfound d.catalog seq hstanding.found)
    have hpersist : persist d op = finish d.catalog d.store seq c'.publishes := by
      simp [persist, hstart', hlookup]
    have hown : OwnSeq d op ↔ ∀ e ∈ c'.publishes, (fenceOf d.store e.1).map (·.seq) = some seq := by
      unfold OwnSeq
      rw [rowSeq_of_found hstart hstanding.found]
      constructor
      · intro hall e he
        exact hall e.1 ((start_keys hstart').subset (List.mem_map_of_mem he))
      · intro hall sk hsk
        obtain ⟨e, he, rfl⟩ := List.mem_map.1 ((start_keys hstart').symm.subset hsk)
        exact hall e he
    rw [hpersist, hown]
    unfold finish
    cases publishAll_fresh_cases c'.publishes (hstanding.fences hagain) with
    | inl hok =>
      rw [hok.1]
      exact ⟨fun _ => hok.2, fun _ => ⟨d, rfl, fun _ => rfl⟩⟩
    | inr herr =>
      rw [herr.1]
      obtain ⟨e, he, hne⟩ := herr.2
      constructor
      · intro hex
        obtain ⟨d', hd', -⟩ := hex
        cases hd'
      · intro hall
        exact absurd (hall e he) hne

/-! ## A key two rows publish -/

def apart : List Op :=
  [.checkpoint ['k'] [1], .offsetHint ['a'] ['b'] 3 true,
    .segment ⟨['s'], valid_segment⟩ ⟨[((['a'], ['c']), 7)], 0⟩ [(['l'], [2])]]

theorem repeat_unchanged_apart :
    ∃ d, (calls.restrict NoFenceKey).Run ⟨⟨∅, ∅, 0⟩, ∅⟩ apart d ∧
      ∃ d', persist d (.checkpoint ['k'] [1]) = some d' ∧
        ∀ sk, published d'.store sk = published d.store sk := by
  have hrun : (exec (guarded NoFenceKey persist) ⟨⟨∅, ∅, 0⟩, ∅⟩ apart).any
      fun d => OwnSeq d (.checkpoint ['k'] [1]) := by decide +kernel
  obtain ⟨d, hexec, hown⟩ := (Option.any_eq_true ..).1 hrun
  have hrun' : (calls.restrict NoFenceKey).Run ⟨⟨∅, ∅, 0⟩, ∅⟩ apart d := restrict_run_of_exec hexec
  exact ⟨d, hrun', (repeat_unchanged_iff _ d [] _ (.checkpoint ['k'] [1]) (fun _ _ hf => by cases hf)
    (by intro key hkey op hop; fin_cases hop <;> cases hkey <;> decide) hrun').2
    (of_decide_eq_true hown)⟩

def overtaken : List Op :=
  [.checkpoint ['k'] [1], .segment ⟨['s'], valid_segment⟩ ⟨[], 0⟩ [(['k'], [2])]]

theorem repeat_fails_overtaken :
    ∃ d, (calls.restrict NoFenceKey).Run ⟨⟨∅, ∅, 0⟩, ∅⟩ overtaken d ∧
      published d.store (checkpointKey ['k']) = some [2] ∧
      persist d (.checkpoint ['k'] [1]) = none := by
  have hrun : (exec (guarded NoFenceKey persist) ⟨⟨∅, ∅, 0⟩, ∅⟩ overtaken).any
      fun d => published d.store (checkpointKey ['k']) = some [2] ∧
        (persist d (.checkpoint ['k'] [1])).isNone := by decide +kernel
  obtain ⟨d, hexec, hd⟩ := (Option.any_eq_true ..).1 hrun
  obtain ⟨hpub, hnone⟩ := of_decide_eq_true hd
  exact ⟨d, restrict_run_of_exec hexec, hpub, Option.isNone_iff_eq_none.1 hnone⟩

end Skippr.L3.Handle
