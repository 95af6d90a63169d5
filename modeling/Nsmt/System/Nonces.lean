import Nsmt.Client.Push
import Nsmt.Server.Chunks
import Nsmt.System.Download

/-!
# Nonces across transfers

A chunk is encrypted under the newest key of its tenant with its index for a
nonce. Within one object the indices differ; from one object to the next they
start again at 0. A run is the list of its transfers, in whatever order their
chunks are encrypted: `nonces_unique_iff` says when no key and nonce meet two
different chunks.
-/

namespace Nsmt.System

open Nsmt.Lib Nsmt.Core Nsmt.Server Nsmt.Client

/-- One call of the cipher. -/
structure EncryptCall where
  key : Bytes
  nonce : Bytes
  plain : Bytes
  deriving DecidableEq, Repr

/-- `E2EKeys::encrypt` as the call of the cipher it makes. -/
def encryptCall (keys : E2EKeys) (plain : Bytes) (idx : Nat) : EncryptCall :=
  { key := keys.newest, nonce := E2EKeys.nonceFor idx, plain }

@[simp] theorem encryptCall_key (keys : E2EKeys) (plain : Bytes) (idx : Nat) :
    (encryptCall keys plain idx).key = keys.newest := rfl

@[simp] theorem encryptCall_nonce (keys : E2EKeys) (plain : Bytes) (idx : Nat) :
    (encryptCall keys plain idx).nonce = E2EKeys.nonceFor idx := rfl

@[simp] theorem encryptCall_plain (keys : E2EKeys) (plain : Bytes) (idx : Nat) :
    (encryptCall keys plain idx).plain = plain := rfl

def EncryptCall.result (aead : Aead) (call : EncryptCall) : Bytes :=
  aead.encrypt call.key call.nonce call.plain

/-- Who encrypts: `push_entry`, or the server or a peer that answers `FILE_GET`. -/
inductive TransferKind
  | upload
  | download
  deriving DecidableEq, Repr

/-- One upload or download as far as it got: chunks 0 to `count - 1` of the
object were encrypted. An upload ends with the object; the indices a download
asks for are `u64`. -/
structure Transfer where
  kind : TransferKind
  bytes : Bytes
  count : Nat
  count_le : count ≤ 2 ^ 64
  upload_le : kind = .upload → count ≤ chunksOf bytes

namespace Transfer

def chunk (t : Transfer) (idx : Nat) : Bytes :=
  match t.kind with
  | .upload => Sparse.slice chunkSize t.bytes idx
  | .download => Session.chunkAt t.bytes idx

def chunks (t : Transfer) : List Bytes := (List.range t.count).map t.chunk

def calls (keys : E2EKeys) (t : Transfer) : List EncryptCall :=
  (List.range t.count).map fun idx => encryptCall keys (t.chunk idx) idx

end Transfer

/-- No key and nonce encrypt two different plaintexts. -/
def NoncesUnique (calls : List EncryptCall) : Prop :=
  ∀ c ∈ calls, ∀ d ∈ calls, c.key = d.key → c.nonce = d.nonce → c.plain = d.plain

instance (calls : List EncryptCall) : Decidable (NoncesUnique calls) :=
  inferInstanceAs (Decidable (∀ c ∈ calls, ∀ d ∈ calls, _))

-- ---------------------------------------------------------------------------
-- Where the calls are made
-- ---------------------------------------------------------------------------

theorem chunkPayload_call (aead : Aead) (keys : E2EKeys) (chunk : Bytes) (idx : Nat) :
    chunkPayload aead (some keys) chunk idx =
      le 4 idx ++ (encryptCall keys chunk idx).result aead := rfl

/-- The chunk frames of an upload carry the results of its calls. -/
theorem fileChunk_call (aead : Aead) (keys : E2EKeys) (p : PushEntry) (idx : Nat) :
    p.fileChunk aead (some keys) idx =
      .fileChunk (le 4 idx ++
        (encryptCall keys (Sparse.slice chunkSize p.bytes idx) idx).result aead) := by
  rw [PushEntry.fileChunk, chunkPayload_call]

/-- So do the answers of the server and of peers. -/
theorem answer_call {cfg : Config} (hkeys : cfg.e2e domain = some keys)
    (h : Answer cfg domain blobId b { blobId, chunkIndex := some idx } frame) :
    frame = .fileChunk 0x01
      (le 4 idx ++ (encryptCall keys (Session.chunkAt b idx) idx).result cfg.aead) := by
  rw [h.chunk, sealedAt, hkeys, ← chunkPayload_call]
  rfl

-- ---------------------------------------------------------------------------
-- Transfers that agree
-- ---------------------------------------------------------------------------

theorem map_range_isPrefix_iff {f g : Nat → α} (h : n ≤ m) :
    (List.range n).map f <+: (List.range m).map g ↔ ∀ i < n, f i = g i := by
  have htake : ((List.range m).map g).take n = (List.range n).map g := by
    rw [← List.map_take, List.take_range, Nat.min_eq_left h]
  rw [List.prefix_iff_eq_take, List.length_map, List.length_range, htake, List.map_inj_left]
  simp only [List.mem_range]

/-- Two transfers agree on the indices both have exactly when the chunks of one
begin with those of the other. -/
theorem agree_iff_isPrefix_or (t u : Transfer) :
    (∀ i, i < t.count → i < u.count → t.chunk i = u.chunk i) ↔
      t.chunks <+: u.chunks ∨ u.chunks <+: t.chunks := by
  constructor
  · intro h
    rcases Nat.le_total t.count u.count with hle | hle
    · exact .inl ((map_range_isPrefix_iff hle).mpr fun i hi => h i hi (by omega))
    · exact .inr ((map_range_isPrefix_iff hle).mpr fun i hi => (h i (by omega) hi).symm)
  · rintro (h | h) i hit hiu
    · have hle := h.length_le
      simp only [Transfer.chunks, List.length_map, List.length_range] at hle
      exact (map_range_isPrefix_iff hle).mp h i hit
    · have hle := h.length_le
      simp only [Transfer.chunks, List.length_map, List.length_range] at hle
      exact ((map_range_isPrefix_iff hle).mp h i hiu).symm

theorem noncesUnique_iff_agree (keys : E2EKeys) (transfers : List Transfer) :
    NoncesUnique (transfers.flatMap (Transfer.calls keys)) ↔
      ∀ t ∈ transfers, ∀ u ∈ transfers, ∀ i, i < t.count → i < u.count → t.chunk i = u.chunk i := by
  have hmem (c : EncryptCall) : c ∈ transfers.flatMap (Transfer.calls keys) ↔
      ∃ t ∈ transfers, ∃ i < t.count, encryptCall keys (t.chunk i) i = c := by
    simp only [List.mem_flatMap, Transfer.calls, List.mem_map, List.mem_range]
  constructor
  · intro h t ht u hu i hit hiu
    have hplain := h _ ((hmem _).mpr ⟨t, ht, i, hit, rfl⟩) _ ((hmem _).mpr ⟨u, hu, i, hiu, rfl⟩)
    simp only [encryptCall_key, encryptCall_nonce, encryptCall_plain, forall_const] at hplain
    exact hplain
  · intro h c hc d hd _ hnonce
    obtain ⟨t, ht, i, hit, rfl⟩ := (hmem c).mp hc
    obtain ⟨u, hu, j, hju, rfl⟩ := (hmem d).mp hd
    rw [encryptCall_nonce, encryptCall_nonce] at hnonce
    rw [encryptCall_plain, encryptCall_plain]
    -- One nonce is one index.
    obtain rfl : i = j :=
      E2EKeys.nonceFor_inj (hit.trans_le t.count_le) (hju.trans_le u.count_le) hnonce
    exact h t ht u hu i hit hju

/-- Nonces are injective in the index, and a run reuses none exactly when of
any two of its transfers one encrypts a beginning of what the other does. -/
theorem nonces_unique_iff (keys : E2EKeys) (transfers : List Transfer) :
    (NoncesUnique (transfers.flatMap (Transfer.calls keys)) ∧
      ∀ i j : UInt64, E2EKeys.nonceFor i.toNat = E2EKeys.nonceFor j.toNat → i = j) ↔
    ∀ t ∈ transfers, ∀ u ∈ transfers, t.chunks <+: u.chunks ∨ u.chunks <+: t.chunks := by
  have hinj (i j : UInt64) (h : E2EKeys.nonceFor i.toNat = E2EKeys.nonceFor j.toNat) : i = j :=
    UInt64.toNat_inj.mp (E2EKeys.nonceFor_inj i.toNat_lt j.toNat_lt h)
  rw [and_iff_left hinj, noncesUnique_iff_agree]
  simp only [agree_iff_isPrefix_or]

/-- Uploads of two different bytes encrypt both under one key and nonce. -/
theorem objects_share_nonces :
    ¬ NoncesUnique (([⟨.upload, [1], 1, by decide, fun _ => by decide⟩,
      ⟨.upload, [2], 1, by decide, fun _ => by decide⟩] : List Transfer).flatMap
        (Transfer.calls { newest := [], older := [] })) := by
  decide +kernel

end Nsmt.System
