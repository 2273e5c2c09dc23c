import Skippr.Core.Map
import Skippr.Core.Text

/-!
# The offset store and its publish fence

Published offsets and checkpoints live in one key space with their fences: the
value of publish key `sk` under `sk`, its `(epoch, seq, sha256)` fence under
`fence#sk` (src/helpers/offset_store.rs). `publish_wal_commit` writes both in
one batch, or neither, as `decide_wal_publish` says.

SHA-256 is taken as collision free: a digest stands for the bytes it was
computed from.
-/
namespace Skippr.L2

abbrev Bytes := List UInt8

def le64 (n : Nat) : Bytes := (List.range 8).map fun i => UInt8.ofNat (n / 256 ^ i)

def ofLe64 (bytes : Bytes) : Nat := bytes.foldr (fun b acc => b.toNat + 256 * acc) 0

/-- The text after a fence's two integers: the hex digest of a value, or
whatever else stands there. -/
inductive Sha
  | digest (bytes : Bytes)
  | text (bytes : Bytes)
deriving DecidableEq, Repr

structure Fence where
  epoch : Nat
  seq : Nat
  sha : Sha
deriving DecidableEq, Repr

inductive Cell
  | value (bytes : Bytes)
  | fence (f : Fence)
deriving DecidableEq, Repr

abbrev OffsetStore := Map Text Cell

/-- mirrors offset_store.rs:91-93 -/
def offsetKey (ns part : Text) : Text := ns ++ '-' :: part

/-- mirrors offset_store.rs:95-97 -/
def checkpointKey (key : Text) : Text :=
  ['c', 'd', 'c', '_', 'c', 'h', 'e', 'c', 'k', 'p', 'o', 'i', 'n', 't', ':'] ++ key

def fenceMark : Text := ['f', 'e', 'n', 'c', 'e', '#']

/-- mirrors offset_store.rs:99-101 -/
def fenceKey (sk : Text) : Text := fenceMark ++ sk

/-- mirrors offset_store.rs:111-119 -/
def decodeFence (bytes : Bytes) : Option Fence :=
  if bytes.length < 16 then none
  else if (String.fromUTF8? ⟨(bytes.drop 16).toArray⟩).isNone then none
  else some ⟨ofLe64 (bytes.take 8), ofLe64 ((bytes.drop 8).take 8), .text (bytes.drop 16)⟩

def Cell.asFence : Cell → Option Fence
  | .fence f => some f
  | .value bytes => decodeFence bytes

def fenceOf (store : OffsetStore) (sk : Text) : Option Fence :=
  (store.get (fenceKey sk)).bind Cell.asFence

def published (store : OffsetStore) (sk : Text) : Option Bytes :=
  match store.get sk with
  | some (.value bytes) => some bytes
  | _ => none

inductive PublishMode | fresh | republish
deriving DecidableEq, Repr

inductive PublishAction | commit | alreadyApplied
deriving DecidableEq, Repr

inductive PublishError
  /-- "same WAL tuple with different hash" -/
  | corrupt
  | fenceRegression
deriving DecidableEq, Repr

/-- mirrors crates/skippr-lease/src/error.rs:69-94 -/
def decideWalPublish (stored : Option Fence) (epoch seq : Nat) (sha : Sha) (mode : PublishMode) :
    Except PublishError PublishAction :=
  match stored with
  | none => .ok .commit
  | some old =>
    if old.epoch = epoch ∧ old.seq = seq then
      if old.sha = sha then .ok .alreadyApplied else .error .corrupt
    else if epoch < old.epoch ∨ (epoch = old.epoch ∧ seq < old.seq) then
      match mode with
      | .republish => .ok .alreadyApplied
      | .fresh => .error .fenceRegression
    else .ok .commit

def put (store : OffsetStore) (sk : Text) (bytes : Bytes) (epoch seq : Nat) : OffsetStore :=
  (store.insert sk (.value bytes)).insert (fenceKey sk) (.fence ⟨epoch, seq, .digest bytes⟩)

/-- mirrors offset_store.rs:150-186 -/
def publishWalCommit (store : OffsetStore) (sk : Text) (bytes : Bytes) (epoch seq : Nat)
    (mode : PublishMode) : Except PublishError OffsetStore :=
  match decideWalPublish (fenceOf store sk) epoch seq (.digest bytes) mode with
  | .error e => .error e
  | .ok .alreadyApplied => .ok store
  | .ok .commit => .ok (put store sk bytes epoch seq)

def NotFence (sk : Text) : Prop := ¬ fenceMark <+: sk

instance (sk : Text) : Decidable (NotFence sk) := inferInstanceAs (Decidable (¬ _))

variable {sk : Text} {store : OffsetStore} {bytes : Bytes} {epoch seq : Nat}

theorem fenceKey_injective {sk' : Text} (h : fenceKey sk = fenceKey sk') : sk = sk' :=
  List.append_cancel_left h

theorem NotFence.ne_fenceKey (h : NotFence sk) (sk' : Text) : sk ≠ fenceKey sk' := by
  rintro rfl
  exact h (List.prefix_append fenceMark sk')

theorem fenceOf_put (h : NotFence sk) (store : OffsetStore) (bytes : Bytes) (epoch seq : Nat)
    (sk' : Text) :
    fenceOf (put store sk bytes epoch seq) sk' =
      if sk' = sk then some ⟨epoch, seq, .digest bytes⟩ else fenceOf store sk' := by
  unfold fenceOf put
  rw [Map.get_insert, Map.get_insert]
  by_cases hsk : sk' = sk
  · subst hsk
    rw [if_pos rfl, if_pos rfl]
    rfl
  · rw [if_neg fun he => hsk (fenceKey_injective he), if_neg fun he => h.ne_fenceKey sk' he.symm,
      if_neg hsk]

theorem published_put {sk' : Text} (h : NotFence sk') (store : OffsetStore) (sk : Text)
    (bytes : Bytes) (epoch seq : Nat) :
    published (put store sk bytes epoch seq) sk' =
      if sk' = sk then some bytes else published store sk' := by
  unfold published put
  rw [Map.get_insert, Map.get_insert, if_neg (h.ne_fenceKey sk)]
  by_cases hsk : sk' = sk
  · rw [if_pos hsk, if_pos hsk]
  · rw [if_neg hsk, if_neg hsk]

/-- A publish leaves the store alone, because the stored tuple is at least its
own, or writes its value and fence over a smaller tuple. -/
theorem publishWalCommit_cases {store' : OffsetStore} {mode : PublishMode}
    (h : publishWalCommit store sk bytes epoch seq mode = .ok store') :
    (store' = store ∧ ∃ f, fenceOf store sk = some f ∧
      (epoch < f.epoch ∨ (epoch = f.epoch ∧ seq ≤ f.seq))) ∨
    (store' = put store sk bytes epoch seq ∧ ∀ f, fenceOf store sk = some f →
      f.epoch < epoch ∨ (f.epoch = epoch ∧ f.seq < seq)) := by
  unfold publishWalCommit decideWalPublish at h
  cases hf : fenceOf store sk with
  | none =>
    simp only [hf] at h
    cases h
    exact .inr ⟨rfl, nofun⟩
  | some old =>
    simp only [hf] at h
    split at h
    · cases h
    · rename_i hd
      cases h
      refine .inl ⟨rfl, old, rfl, ?_⟩
      split at hd
      · rename_i heq
        exact .inr ⟨heq.1.symm, by omega⟩
      · split at hd
        · rename_i hlt
          omega
        · cases hd
    · rename_i hd
      cases h
      refine .inr ⟨rfl, ?_⟩
      intro f hold
      cases hold
      split at hd
      · split at hd
        · cases hd
        · cases hd
      · split at hd
        · cases mode <;> cases hd
        · omega

/-- A fresh publish finds its own tuple and bytes, or writes over a smaller
tuple. -/
theorem publishWalCommit_fresh {store' : OffsetStore}
    (h : publishWalCommit store sk bytes epoch seq .fresh = .ok store') :
    (store' = store ∧ fenceOf store sk = some ⟨epoch, seq, .digest bytes⟩) ∨
    (store' = put store sk bytes epoch seq ∧ ∀ f, fenceOf store sk = some f →
      f.epoch < epoch ∨ (f.epoch = epoch ∧ f.seq < seq)) := by
  cases publishWalCommit_cases h with
  | inr hput => exact .inr hput
  | inl hsame =>
    obtain ⟨hstore, f, hf, hle⟩ := hsame
    unfold publishWalCommit decideWalPublish at h
    simp only [hf] at h
    by_cases heq : f.epoch = epoch ∧ f.seq = seq
    · by_cases hsha : f.sha = .digest bytes
      · obtain ⟨rfl, rfl⟩ := heq
        exact .inl ⟨hstore, by rw [hf, ← hsha]⟩
      · simp [heq, hsha] at h
    · have hlt : epoch < f.epoch ∨ (epoch = f.epoch ∧ seq < f.seq) := by omega
      simp [heq, hlt] at h

theorem publishWalCommit_republish
    (h : ∀ f, fenceOf store sk = some f → f.epoch = epoch → f.seq = seq →
      f.sha = .digest bytes) :
    ∃ store', publishWalCommit store sk bytes epoch seq .republish = .ok store' := by
  unfold publishWalCommit decideWalPublish
  cases hf : fenceOf store sk with
  | none => exact ⟨_, rfl⟩
  | some old =>
    by_cases heq : old.epoch = epoch ∧ old.seq = seq
    · simp [heq, h old hf heq.1 heq.2]
    · by_cases hlt : epoch < old.epoch ∨ (epoch = old.epoch ∧ seq < old.seq)
      · simp [heq, hlt]
      · simp [heq, hlt]

end Skippr.L2
