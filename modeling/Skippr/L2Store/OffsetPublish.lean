import Skippr.L2Store.OffsetStore

/-!
# Publishing through `StoreOffsetStore`

Two questions about `publish_wal_commit` (src/helpers/offset_store.rs).

**Across keys.** Offsets are published under `{namespace}-{partition}`,
checkpoints under `cdc_checkpoint:{key}` and every fence under `fence#` and the
publish key, all in one family. `isolated_iff`: publishing one slot leaves the
value and the fence of another alone exactly if the four keys are apart.
`dash_shared`: two pairs whose texts join to one key are one slot.

**On one key.** `publish_sequence`: after any calls, fresh or republish, the key
holds value and fence of the call with the greatest `(epoch, seq)`; a fresh call
is refused exactly if a greater one was published before, and the order of the
calls does not show.
-/
namespace Skippr.L2

/-! ## Across keys -/

section Slots
variable (hex : Bytes → Bytes)

/-- The text of a fence's digest; `hex` is the hex SHA-256 of a value. -/
def Sha.bytes : Sha → Bytes
  | .digest bytes => hex bytes
  | .text bytes => bytes

/-- mirrors offset_store.rs:103-109 -/
def encodeFence (f : Fence) : Bytes := le64 f.epoch ++ (le64 f.seq ++ f.sha.bytes hex)

def Cell.bytes : Cell → Bytes
  | .value bytes => bytes
  | .fence f => encodeFence hex f

/-- mirrors offset_store.rs:134-136 -/
def getBytes (store : OffsetStore) (sk : Text) : Option Bytes := (store.get sk).map (Cell.bytes hex)

/-- mirrors offset_store.rs:138-140 -/
def getOffset (store : OffsetStore) (ns part : Text) : Option Bytes :=
  getBytes hex store (offsetKey ns part)

/-- mirrors offset_store.rs:142-144 -/
def getCheckpoint (store : OffsetStore) (key : Text) : Option Bytes :=
  getBytes hex store (checkpointKey key)

/-- What is published: the offset of a pair, or a checkpoint. -/
inductive Slot
  | offset (ns part : Text)
  | checkpoint (key : Text)
deriving DecidableEq, Repr

def Slot.publishSk : Slot → Text
  | .offset ns part => offsetKey ns part
  | .checkpoint key => checkpointKey key

def Slot.read (store : OffsetStore) : Slot → Option Bytes
  | .offset ns part => getOffset hex store ns part
  | .checkpoint key => getCheckpoint hex store key

/-- Publishing `x` changes neither what is read of `y` nor the fence that `y` is
compared against. -/
def Isolated (x y : Slot) : Prop :=
  ∀ store bytes epoch seq mode store',
    publishWalCommit store x.publishSk bytes epoch seq mode = .ok store' →
      y.read hex store' = y.read hex store ∧ fenceOf store' y.publishSk = fenceOf store y.publishSk

/-- The value keys and the fence keys of two slots are four keys. -/
structure Apart (x y : Slot) : Prop where
  values : y.publishSk ≠ x.publishSk
  read : y.publishSk ≠ fenceKey x.publishSk
  fence : fenceKey y.publishSk ≠ x.publishSk

theorem Slot.read_eq (store : OffsetStore) (y : Slot) :
    y.read hex store = getBytes hex store y.publishSk := by
  cases y <;> rfl

theorem ne_fenceKey (sk : Text) : sk ≠ fenceKey sk := by
  intro h
  have := congrArg List.length h
  simp only [fenceKey, fenceMark, List.length_append, List.length_cons, List.length_nil] at this
  omega

theorem get_put (store : OffsetStore) (sk : Text) (bytes : Bytes) (epoch seq : Nat) (k : Text) :
    (put store sk bytes epoch seq).get k =
      if k = fenceKey sk then some (.fence ⟨epoch, seq, .digest bytes⟩)
      else if k = sk then some (.value bytes) else store.get k := by
  rw [put, Map.get_insert, Map.get_insert]

theorem publishWalCommit_new {store : OffsetStore} {sk : Text} (h : fenceOf store sk = none)
    (bytes : Bytes) (epoch seq : Nat) (mode : PublishMode) :
    publishWalCommit store sk bytes epoch seq mode = .ok (put store sk bytes epoch seq) := by
  rw [publishWalCommit, h]
  rfl

theorem isolated_of_apart {x y : Slot} (h : Apart x y) : Isolated hex x y := by
  intro store bytes epoch seq mode store' hpub
  cases publishWalCommit_cases hpub with
  | inl hsame =>
    rw [hsame.1]
    exact ⟨rfl, rfl⟩
  | inr hput =>
    rw [hput.1]
    constructor
    · rw [Slot.read_eq, Slot.read_eq, getBytes, getBytes, get_put, if_neg h.read, if_neg h.values]
    · rw [fenceOf, fenceOf, get_put, if_neg, if_neg h.fence]
      exact fun he => h.values (fenceKey_injective he)

/-- **Slots that are apart.** One publish is invisible to the other slot exactly
if no key of the one is a key of the other. -/
theorem isolated_iff (x y : Slot) : Isolated hex x y ↔ Apart x y := by
  constructor
  · intro h
    -- A first publish of `x` into the empty store makes its two keys readable.
    have hempty := (h ∅ [] 0 0 .fresh _ (publishWalCommit_new rfl [] 0 0 .fresh)).1
    rw [Slot.read_eq, Slot.read_eq, getBytes, getBytes, get_put, Map.get_empty] at hempty
    refine ⟨?_, ?_, ?_⟩
    · intro heq
      rw [heq, if_neg (ne_fenceKey _), if_pos rfl] at hempty
      cases hempty
    · intro heq
      rw [if_pos heq] at hempty
      cases hempty
    · intro heq
      -- The fence of `y` is overwritten by a value too short to be a fence.
      let store : OffsetStore := (∅ : OffsetStore).insert x.publishSk (.fence ⟨1, 1, .text []⟩)
      have hnone : fenceOf store x.publishSk = none := by
        rw [fenceOf, Map.get_insert, if_neg (ne_fenceKey _).symm]
        rfl
      have hfence := (h store [] 0 0 .fresh _ (publishWalCommit_new hnone [] 0 0 .fresh)).2
      rw [fenceOf, fenceOf, get_put, heq, if_neg (ne_fenceKey _), if_pos rfl, Map.get_insert,
        if_pos rfl] at hfence
      cases hfence
  · exact isolated_of_apart hex

end Slots

/-- `a-b` with partition `c`, and `a` with partition `b-c`. -/
theorem dash_shared : Slot.offset ['a', '-', 'b'] ['c'] ≠ .offset ['a'] ['b', '-', 'c'] ∧
    ¬ Isolated id (.offset ['a', '-', 'b'] ['c']) (.offset ['a'] ['b', '-', 'c']) := by
  refine ⟨by decide, fun h => ?_⟩
  have hread := (h ∅ [1] 1 1 .fresh _ (publishWalCommit_new rfl [1] 1 1 .fresh)).1
  exact absurd hread (by decide)

/-! ## On one key -/

structure PublishCall where
  bytes : Bytes
  epoch : Nat
  seq : Nat
  mode : PublishMode
deriving DecidableEq, Repr

def PublishCall.tuple (call : PublishCall) : Nat ×ₗ Nat := toLex (call.epoch, call.seq)

def PublishCall.publish (call : PublishCall) (sk : Text) (store : OffsetStore) :
    Except PublishError OffsetStore :=
  publishWalCommit store sk call.bytes call.epoch call.seq call.mode

def PublishCall.after (sk : Text) (store : OffsetStore) (call : PublishCall) : OffsetStore :=
  match call.publish sk store with
  | .ok store' => store'
  | .error _ => store

def publishAll (sk : Text) (store : OffsetStore) (calls : List PublishCall) : OffsetStore :=
  calls.foldl (PublishCall.after sk) store

structure Holds (store : OffsetStore) (sk : Text) (call : PublishCall) : Prop where
  value : published store sk = some call.bytes
  fence : fenceOf store sk = some ⟨call.epoch, call.seq, .digest call.bytes⟩

def Published (sk : Text) (store : OffsetStore) (calls : List PublishCall) (call : PublishCall) : Prop :=
  ∃ earlier later store', calls = earlier ++ call :: later ∧
    call.publish sk (publishAll sk store earlier) = .ok store'

/-- Calls with one tuple carry the same bytes. -/
def OneValue (calls : List PublishCall) : Prop :=
  ∀ a ∈ calls, ∀ b ∈ calls, a.tuple = b.tuple → a.bytes = b.bytes

instance (calls : List PublishCall) : Decidable (OneValue calls) :=
  inferInstanceAs (Decidable (∀ a ∈ calls, ∀ b ∈ calls, _))

section Sequence
variable {store store₀ : OffsetStore} {sk : Text} {call top : PublishCall}

theorem PublishCall.tuple_lt {a b : PublishCall} :
    a.tuple < b.tuple ↔ a.epoch < b.epoch ∨ (a.epoch = b.epoch ∧ a.seq < b.seq) :=
  Prod.Lex.toLex_lt_toLex

theorem PublishCall.tuple_inj {a b : PublishCall} :
    a.tuple = b.tuple ↔ a.epoch = b.epoch ∧ a.seq = b.seq := by
  rw [tuple, tuple, toLex_inj, Prod.mk.injEq]

/-! ### One call -/

theorem publish_of_greater (h : Holds store sk top) (hlt : top.tuple < call.tuple) :
    call.publish sk store = .ok (put store sk call.bytes call.epoch call.seq) := by
  have hlt := PublishCall.tuple_lt.1 hlt
  simp only [PublishCall.publish, publishWalCommit, h.fence, decideWalPublish]
  rw [if_neg (by omega), if_neg (by omega)]

theorem publish_of_same (h : Holds store sk top) (heq : call.tuple = top.tuple)
    (hbytes : call.bytes = top.bytes) : call.publish sk store = .ok store := by
  obtain ⟨hepoch, hseq⟩ := PublishCall.tuple_inj.1 heq
  simp only [PublishCall.publish, publishWalCommit, h.fence, decideWalPublish]
  rw [if_pos ⟨hepoch.symm, hseq.symm⟩, if_pos (by rw [hbytes])]

theorem publish_of_less (h : Holds store sk top) (hlt : call.tuple < top.tuple) :
    call.publish sk store = match call.mode with
      | .republish => .ok store
      | .fresh => .error .fenceRegression := by
  have hlt := PublishCall.tuple_lt.1 hlt
  simp only [PublishCall.publish, publishWalCommit, h.fence, decideWalPublish]
  rw [if_neg (by omega), if_pos hlt]
  cases call.mode <;> rfl

/-! ### Many calls -/

theorem publishAll_concat (calls : List PublishCall) (call : PublishCall) :
    publishAll sk store (calls ++ [call]) = call.after sk (publishAll sk store calls) := by
  rw [publishAll, List.foldl_append]
  rfl

variable {calls : List PublishCall}

theorem Published.concat (h : Published sk store calls top) (call : PublishCall) :
    Published sk store (calls ++ [call]) top := by
  obtain ⟨earlier, later, store', rfl, hok⟩ := h
  exact ⟨earlier, later ++ [call], store', by simp, hok⟩

theorem Published.last {store' : OffsetStore}
    (h : call.publish sk (publishAll sk store calls) = .ok store') :
    Published sk store (calls ++ [call]) call :=
  ⟨calls, [], store', rfl, h⟩

theorem Published.mem (h : Published sk store calls top) : top ∈ calls := by
  obtain ⟨earlier, later, -, rfl, -⟩ := h
  simp

/-- The call a key is settled at: it was published, none is greater, and the
store is the first one with this call put into it. -/
structure SettledAt (sk : Text) (store₀ : OffsetStore) (calls : List PublishCall) (top : PublishCall) :
    Prop where
  published : Published sk store₀ calls top
  greatest : ∀ b ∈ calls, b.tuple ≤ top.tuple
  get : ∀ k, (publishAll sk store₀ calls).get k =
    (put store₀ sk top.bytes top.epoch top.seq).get k

theorem SettledAt.holds (h : SettledAt sk store₀ calls top) :
    Holds (publishAll sk store₀ calls) sk top := by
  constructor
  · rw [L2.published, h.get, get_put, if_neg (ne_fenceKey sk), if_pos rfl]
  · rw [fenceOf, h.get, get_put, if_pos rfl]
    rfl

theorem SettledAt.concat (h : SettledAt sk store₀ calls top) (hsame : OneValue (calls ++ [call])) :
    SettledAt sk store₀ (calls ++ [call]) (if top.tuple < call.tuple then call else top) := by
  have htop : top ∈ calls ++ [call] := List.mem_append_left _ h.published.mem
  have hcall : call ∈ calls ++ [call] := List.mem_append_right _ (List.mem_singleton_self call)
  have hmax : ∀ t, (∀ b ∈ calls, b.tuple ≤ t) → call.tuple ≤ t → ∀ b ∈ calls ++ [call], b.tuple ≤ t := by
    intro t hcalls hlast b hb
    cases List.mem_append.1 hb with
    | inl hb => exact hcalls b hb
    | inr hb => rwa [List.mem_singleton.1 hb]
  split
  · rename_i hlt
    have hpub := publish_of_greater h.holds hlt
    refine ⟨.last hpub, hmax _ (fun b hb => (h.greatest b hb).trans hlt.le) le_rfl, ?_⟩
    intro k
    rw [publishAll_concat, PublishCall.after, hpub]
    simp only [get_put, h.get]
    split
    · rfl
    · split <;> rfl
  · rename_i hnot
    have hle : call.tuple ≤ top.tuple := le_of_not_gt hnot
    refine ⟨h.published.concat call, hmax _ h.greatest hle, ?_⟩
    -- Whether the call is ignored or refused, the store stays.
    have hafter : call.after sk (publishAll sk store₀ calls) = publishAll sk store₀ calls := by
      rw [PublishCall.after]
      cases lt_or_eq_of_le hle with
      | inl hlt =>
        rw [publish_of_less h.holds hlt]
        cases call.mode <;> rfl
      | inr heq => rw [publish_of_same h.holds heq (hsame call hcall top htop heq)]
    rw [publishAll_concat, hafter]
    exact h.get

theorem settledAt_singleton (hnew : fenceOf store₀ sk = none) (call : PublishCall) :
    SettledAt sk store₀ [call] call := by
  have hpub : call.publish sk store₀ = .ok (put store₀ sk call.bytes call.epoch call.seq) :=
    publishWalCommit_new hnew _ _ _ _
  refine ⟨⟨[], [], _, rfl, hpub⟩, by simp, ?_⟩
  intro k
  show (call.after sk store₀).get k = _
  rw [PublishCall.after, hpub]

theorem exists_settledAt (hnew : fenceOf store₀ sk = none) (calls : List PublishCall) :
    calls ≠ [] → OneValue calls → ∃ top, SettledAt sk store₀ calls top := by
  induction calls using List.reverseRecOn with
  | nil => exact fun h => absurd rfl h
  | append_singleton calls call ih =>
    intro _ hsame
    cases calls with
    | nil => exact ⟨call, settledAt_singleton hnew call⟩
    | cons first calls =>
      obtain ⟨top, htop⟩ := ih (List.cons_ne_nil _ _)
        fun a ha b hb => hsame a (List.mem_append_left _ ha) b (List.mem_append_left _ hb)
      exact ⟨_, htop.concat hsame⟩

theorem OneValue.subset {calls' : List PublishCall} (h : OneValue calls)
    (hsub : ∀ a ∈ calls', a ∈ calls) : OneValue calls' :=
  fun a ha b hb => h a (hsub a ha) b (hsub b hb)

theorem fresh_refused_iff (hnew : fenceOf store₀ sk = none) (hsame : OneValue (calls ++ [call]))
    (hmode : call.mode = .fresh) :
    call.publish sk (publishAll sk store₀ calls) = .error .fenceRegression ↔
      ∃ b, Published sk store₀ calls b ∧ call.tuple < b.tuple := by
  cases calls with
  | nil =>
    rw [PublishCall.publish, publishAll, List.foldl_nil, publishWalCommit_new hnew]
    constructor
    · intro h
      cases h
    · intro h
      obtain ⟨b, hb, -⟩ := h
      cases hb.mem
  | cons first calls =>
    obtain ⟨top, htop⟩ := exists_settledAt hnew (first :: calls) (List.cons_ne_nil _ _)
      (hsame.subset fun a ha => List.mem_append_left _ ha)
    constructor
    · intro h
      refine ⟨top, htop.published, ?_⟩
      by_contra hnot
      cases lt_or_eq_of_le (le_of_not_gt hnot) with
      | inl hlt =>
        rw [publish_of_greater htop.holds hlt] at h
        cases h
      | inr heq =>
        have hbytes := hsame call (List.mem_append_right _ (List.mem_singleton_self call)) top
          (List.mem_append_left _ htop.published.mem) heq.symm
        rw [publish_of_same htop.holds heq.symm hbytes] at h
        cases h
    · intro h
      obtain ⟨b, hb, hlt⟩ := h
      rw [publish_of_less htop.holds (hlt.trans_le (htop.greatest b hb.mem)), hmode]

theorem publishAll_perm (hnew : fenceOf store₀ sk = none) {calls' : List PublishCall}
    (hsame : OneValue calls) (hperm : calls'.Perm calls) (k : Text) :
    (publishAll sk store₀ calls').get k = (publishAll sk store₀ calls).get k := by
  by_cases hnil : calls = []
  · subst hnil
    rw [hperm.eq_nil]
  · obtain ⟨top, htop⟩ := exists_settledAt hnew calls hnil hsame
    obtain ⟨top', htop'⟩ := exists_settledAt hnew calls'
      (fun h => hnil (by rw [h] at hperm; exact hperm.symm.eq_nil))
      (hsame.subset fun a ha => hperm.mem_iff.1 ha)
    have hmem : top' ∈ calls := hperm.mem_iff.1 htop'.published.mem
    have htuple : top'.tuple = top.tuple :=
      le_antisymm (htop.greatest _ hmem) (htop'.greatest _ (hperm.mem_iff.2 htop.published.mem))
    have hbytes := hsame _ hmem _ htop.published.mem htuple
    obtain ⟨hepoch, hseq⟩ := PublishCall.tuple_inj.1 htuple
    rw [htop.get, htop'.get, hbytes, hepoch, hseq]

/-- **Any calls on one key.** At every point the key holds value and fence of the
greatest call so far; a fresh call is refused exactly if a greater one was
published before it; the final state does not depend on the order. -/
theorem publish_sequence {calls : List PublishCall} (hnew : fenceOf store sk = none)
    (hsame : OneValue calls) :
    (∀ l, l <+: calls → l ≠ [] → ∃ top ∈ l, (∀ b ∈ l, b.tuple ≤ top.tuple) ∧
      Holds (publishAll sk store l) sk top) ∧
    (∀ l call, l ++ [call] <+: calls → call.mode = .fresh →
      (call.publish sk (publishAll sk store l) = .error .fenceRegression ↔
        ∃ b, Published sk store l b ∧ call.tuple < b.tuple)) ∧
    ∀ calls', calls'.Perm calls → ∀ k,
      (publishAll sk store calls').get k = (publishAll sk store calls).get k := by
  refine ⟨?_, ?_, fun calls' hperm k => publishAll_perm hnew hsame hperm k⟩
  · intro l hl hne
    obtain ⟨top, htop⟩ := exists_settledAt hnew l hne (hsame.subset fun a ha => hl.subset ha)
    exact ⟨top, htop.published.mem, htop.greatest, htop.holds⟩
  · intro l call hl hmode
    exact fresh_refused_iff hnew (hsame.subset fun a ha => hl.subset ha) hmode

end Sequence

/-- A fresh call, a late republish, a late fresh call and a repeated one. -/
def mixedCalls : List PublishCall :=
  [⟨[1], 1, 2, .fresh⟩, ⟨[0], 1, 1, .republish⟩, ⟨[0], 1, 1, .fresh⟩, ⟨[2], 2, 0, .republish⟩,
    ⟨[1], 1, 2, .republish⟩]

theorem mixedCalls_settled : fenceOf ∅ ['k'] = none ∧ OneValue mixedCalls ∧
    ∃ top ∈ mixedCalls, (∀ b ∈ mixedCalls, b.tuple ≤ top.tuple) ∧
      Holds (publishAll ['k'] ∅ mixedCalls) ['k'] top :=
  ⟨rfl, by decide, (publish_sequence rfl (by decide)).1 mixedCalls List.prefix_rfl (by decide)⟩

end Skippr.L2
