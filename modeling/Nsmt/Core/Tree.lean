import Nsmt.Lib.Sha256
import Mathlib.Data.List.Sort

/-!
# Directory trees and their hash

`FileTree` and `tree_hash`, which client and server define word for word the
same. The hash covers path, blob, mode and size of the entries in path order,
with no separator between the fields and none between entries; the
modification time is not covered.

SHA-256 is the parameter `sha256`; `Digest.sha256` is the function itself. `treePreimage_inj` says what the missing
separators leave intact: trees of the shape `build_tree` produces with the same
preimage name the same blobs at the same paths.
-/

namespace Nsmt.Core

open Nsmt.Lib

abbrev Digest := { bytes : Bytes // bytes.length = 32 }

structure FileTreeEntry where
  path : String
  blobId : String
  mode : Nat
  size : Nat
  mtimeNs : Int
  deriving DecidableEq, Repr

structure FileTree where
  treeHash : String
  entries : List FileTreeEntry
  deriving DecidableEq, Repr

def Digest.sha256 (msg : Bytes) : Digest := ⟨Sha256.hash msg, Sha256.length_hash msg⟩

/-- `hex::encode` of a digest. -/
def Digest.hex (d : Digest) : String := hexEncode d.val

theorem Digest.hex_inj {a b : Digest} (h : a.hex = b.hex) : a = b := Subtype.ext (hexEncode_inj h)

/-- The bytes `tree_hash` feeds for one entry: path, blob, `u16` mode, `u64` size. -/
def FileTreeEntry.hashed (e : FileTreeEntry) : Bytes :=
  utf8 e.path ++ utf8 e.blobId ++ le 2 e.mode ++ le 8 e.size

def sortedEntries (t : FileTree) : List FileTreeEntry :=
  t.entries.insertionSort (fun a b => a.path ≤ b.path)

def treePreimage (t : FileTree) : Bytes := (sortedEntries t).flatMap FileTreeEntry.hashed

section
variable (sha256 : Bytes → Digest)

def objectId (bytes : Bytes) : String := (sha256 bytes).hex

def treeHash (t : FileTree) : String := (sha256 (treePreimage t)).hex

end

/-- The text of a blob id: 64 lower-case hex digits. -/
def BlobText (s : String) : Prop := s.toList.length = 64 ∧ ∀ c ∈ s.toList, isHexDigit c = true

instance (s : String) : Decidable (BlobText s) := inferInstanceAs (Decidable (_ ∧ _))

/-- What `build_tree` guarantees: one entry a path, blob ids from `object_id`,
the constant mode `0o644` and a `u64` size. -/
structure TreeShape (t : FileTree) : Prop where
  nodup : (t.entries.map FileTreeEntry.path).Nodup
  blob : ∀ e ∈ t.entries, BlobText e.blobId
  mode : ∀ e ∈ t.entries, e.mode = 0o644
  size : ∀ e ∈ t.entries, e.size < 2 ^ 64

/-- The fields of the entries are such that the hash can be read back. -/
def Hashable (t : FileTree) : Prop :=
  ∀ e ∈ t.entries, BlobText e.blobId ∧ e.mode = 0o644 ∧ e.size < 2 ^ 64

theorem TreeShape.hashable (h : TreeShape t) : Hashable t :=
  fun e he => ⟨h.blob e he, h.mode e he, h.size e he⟩

theorem Digest.blobText (d : Digest) : BlobText d.hex := by
  refine ⟨?_, hexEncode_digits d.val⟩
  rw [Digest.hex, length_hexEncode, d.property]

theorem BlobText.utf8 (h : BlobText s) : (utf8 s).length = 64 ∧ ∀ b ∈ utf8 s, b.toNat < 128 := by
  obtain ⟨hlen, hall⟩ := utf8_hex h.2
  exact ⟨hlen.trans h.1, hall⟩

theorem Digest.isCharBoundary (d : Digest) (hi : i ≤ 64) : isCharBoundary d.hex i = true := by
  obtain ⟨hlen, hall⟩ := d.blobText.utf8
  exact isCharBoundary_ascii hall (by omega)

structure BuiltTree (sha256 : Bytes → Digest) (t : FileTree) : Prop where
  shape : TreeShape t
  hash : t.treeHash = treeHash sha256 t

theorem BuiltTree.rehash (h : BuiltTree sha256 t) : { t with treeHash := treeHash sha256 t } = t := by
  rw [← h.hash]

theorem BuiltTree.loggable (h : BuiltTree sha256 t) : isCharBoundary t.treeHash 12 = true := by
  rw [h.hash]
  exact Digest.isCharBoundary _ (by omega)

-- ---------------------------------------------------------------------------
-- Reading a preimage back
-- ---------------------------------------------------------------------------

/-- The two mode bytes: the first of them continues no character. -/
theorem le_mode : le 2 0o644 = [0xA4, 0x01] := by decide

/-- If one path were shorter than the other, the mode byte behind its blob
would stand inside the longer path, right behind an ASCII byte. -/
theorem path_not_shorter {p q b c : String} {r s : Bytes} (hb : BlobText b) (hc : BlobText c)
    (h : utf8 p ++ utf8 b ++ [0xA4, 0x01] ++ r = utf8 q ++ utf8 c ++ [0xA4, 0x01] ++ s) :
    ¬ (utf8 p).length < (utf8 q).length := by
  intro hlt
  obtain ⟨hblen, hbascii⟩ := hb.utf8
  obtain ⟨hclen, hcascii⟩ := hc.utf8
  -- Left: byte `|p| + 64` is the mode byte, and the one before it belongs to the blob.
  have hmode : (utf8 p ++ utf8 b ++ [0xA4, 0x01] ++ r)[(utf8 p).length + 64]? = some 0xA4 := by
    rw [List.append_assoc, List.getElem?_append_right (by simp only [List.length_append]; omega)]
    simp [hblen]
  obtain ⟨x, hx, hxlt⟩ : ∃ x, (utf8 p ++ utf8 b ++ [0xA4, 0x01] ++ r)[(utf8 p).length + 63]? = some x ∧
      x.toNat < 128 := by
    have hlast : (utf8 b)[63]? = some (utf8 b)[63] := List.getElem?_eq_getElem (by omega)
    refine ⟨(utf8 b)[63], ?_, hbascii _ (List.mem_of_getElem? hlast)⟩
    rw [List.append_assoc, List.append_assoc, List.getElem?_append_right (by omega),
      List.getElem?_append_left (by omega)]
    simp
  rw [h] at hmode hx
  by_cases hin : (utf8 p).length + 64 < (utf8 q).length
  · rw [List.append_assoc, List.append_assoc, List.getElem?_append_left hin] at hmode
    rw [List.append_assoc, List.append_assoc, List.getElem?_append_left (by omega)] at hx
    obtain ⟨-, a, ha, hge⟩ := utf8_boundary hmode (by decide)
    rw [show (utf8 p).length + 64 - 1 = (utf8 p).length + 63 by omega, hx] at ha
    obtain rfl := Option.some.inj ha
    omega
  · rw [List.append_assoc, List.append_assoc, List.getElem?_append_right (by omega),
      List.getElem?_append_left (by omega)] at hmode
    have hlt := hcascii _ (List.mem_of_getElem? hmode)
    revert hlt
    decide

theorem entry_hashed_inj {d e : FileTreeEntry} {r s : Bytes}
    (hd : BlobText d.blobId) (he : BlobText e.blobId) (hdm : d.mode = 0o644) (hem : e.mode = 0o644)
    (hds : d.size < 2 ^ 64) (hes : e.size < 2 ^ 64) (h : d.hashed ++ r = e.hashed ++ s) :
    (d.path = e.path ∧ d.blobId = e.blobId ∧ d.size = e.size) ∧ r = s := by
  simp only [FileTreeEntry.hashed, hdm, hem, le_mode, List.append_assoc] at h
  have h' : utf8 d.path ++ utf8 d.blobId ++ [0xA4, 0x01] ++ (le 8 d.size ++ r) =
      utf8 e.path ++ utf8 e.blobId ++ [0xA4, 0x01] ++ (le 8 e.size ++ s) := by
    simpa only [List.append_assoc] using h
  have hlen : (utf8 d.path).length = (utf8 e.path).length :=
    Nat.le_antisymm (Nat.le_of_not_lt (path_not_shorter he hd h'.symm))
      (Nat.le_of_not_lt (path_not_shorter hd he h'))
  obtain ⟨hpath, h⟩ := List.append_inj h hlen
  obtain ⟨hblob, h⟩ := List.append_inj h (by rw [hd.utf8.1, he.utf8.1])
  have h := List.append_cancel_left h
  obtain ⟨hsize, hrest⟩ := List.append_inj h (by simp)
  have hsize := @le_inj 8 _ _ (by omega) (by omega) hsize
  exact ⟨⟨utf8_inj hpath, utf8_inj hblob, hsize⟩, hrest⟩

/-- What the hash sees of an entry. -/
def FileTreeEntry.key (e : FileTreeEntry) : String × String × Nat := (e.path, e.blobId, e.size)

theorem FileTreeEntry.hashed_ne_nil (e : FileTreeEntry) : e.hashed ≠ [] := by
  simp [FileTreeEntry.hashed, le]

theorem flatMap_hashed_inj {as bs : List FileTreeEntry}
    (ha : ∀ e ∈ as, BlobText e.blobId ∧ e.mode = 0o644 ∧ e.size < 2 ^ 64)
    (hb : ∀ e ∈ bs, BlobText e.blobId ∧ e.mode = 0o644 ∧ e.size < 2 ^ 64)
    (h : as.flatMap FileTreeEntry.hashed = bs.flatMap FileTreeEntry.hashed) :
    as.map FileTreeEntry.key = bs.map FileTreeEntry.key := by
  induction as generalizing bs with
  | nil =>
    cases bs with
    | nil => rfl
    | cons e bs => simp [e.hashed_ne_nil] at h
  | cons d as ih =>
    cases bs with
    | nil => simp [d.hashed_ne_nil] at h
    | cons e bs =>
      obtain ⟨hdb, hdm, hds⟩ := ha d (List.mem_cons_self ..)
      obtain ⟨heb, hem, hes⟩ := hb e (List.mem_cons_self ..)
      rw [List.flatMap_cons, List.flatMap_cons] at h
      obtain ⟨⟨hp, hbl, hsz⟩, hrest⟩ := entry_hashed_inj hdb heb hdm hem hds hes h
      have htail := ih (fun x hx => ha x (List.mem_cons_of_mem d hx))
        (fun x hx => hb x (List.mem_cons_of_mem e hx)) hrest
      simp only [List.map_cons, FileTreeEntry.key, hp, hbl, hsz, htail]

theorem mem_sortedEntries : e ∈ sortedEntries t ↔ e ∈ t.entries := List.mem_insertionSort _

/-- Trees with one preimage have the same entries up to order, mode and
modification time. -/
theorem treePreimage_inj (ht : Hashable t) (hu : Hashable u)
    (h : treePreimage t = treePreimage u) (k : String × String × Nat) :
    k ∈ t.entries.map FileTreeEntry.key ↔ k ∈ u.entries.map FileTreeEntry.key := by
  have hkeys := flatMap_hashed_inj (fun e he => ht e (mem_sortedEntries.mp he))
    (fun e he => hu e (mem_sortedEntries.mp he)) h
  have hsort (v : FileTree) : k ∈ v.entries.map FileTreeEntry.key ↔
      k ∈ (sortedEntries v).map FileTreeEntry.key := by
    simp only [List.mem_map, mem_sortedEntries]
  rw [hsort t, hsort u, hkeys]

/-- Entries with different paths have one order by path. -/
theorem TreeShape.sortedEntries_perm (hu : TreeShape u) (h : t.entries.Perm u.entries) :
    sortedEntries t = sortedEntries u := by
  have hsorted (v : FileTree) : (sortedEntries v).Pairwise (fun a b => a.path ≤ b.path) := by
    have : Std.Total fun a b : FileTreeEntry => a.path ≤ b.path := ⟨fun a b => String.le_total a.path b.path⟩
    have : IsTrans FileTreeEntry fun a b => a.path ≤ b.path := ⟨fun _ _ _ => String.le_trans⟩
    exact List.pairwise_insertionSort _ _
  refine List.Perm.eq_of_pairwise ?_ (hsorted t) (hsorted u) ?_
  · intro a b ha hb hab hba
    have ha := h.mem_iff.mp (mem_sortedEntries.mp ha)
    exact List.inj_on_of_nodup_map hu.nodup ha (mem_sortedEntries.mp hb) (String.le_antisymm hab hba)
  · exact ((List.perm_insertionSort _ _).trans h).trans (List.perm_insertionSort _ _).symm

/-- The preimage is the same for every order of the entries, and says what they are. -/
theorem treePreimage_identifies (ht : TreeShape t) (hu : TreeShape u) :
    (t.entries.Perm u.entries → treePreimage t = treePreimage u) ∧
      (treePreimage t = treePreimage u → ∀ k,
        k ∈ t.entries.map FileTreeEntry.key ↔ k ∈ u.entries.map FileTreeEntry.key) := by
  constructor
  · intro h
    rw [treePreimage, treePreimage, hu.sortedEntries_perm h]
  · exact fun h => treePreimage_inj ht.hashable hu.hashable h

theorem treePreimage_identifies_two :
    let blob := Digest.hex ⟨List.replicate 32 0, rfl⟩
    let a : FileTreeEntry := ⟨"a", blob, 0o644, 2 ^ 64 - 1, 0⟩
    let b : FileTreeEntry := ⟨"b", blob, 0o644, 0, 5⟩
    treePreimage ⟨"", [a, b]⟩ = treePreimage ⟨"x", [b, a]⟩ := by
  intro blob a b
  have hblob : BlobText blob := Digest.blobText _
  have hshape (hash : String) : TreeShape ⟨hash, [a, b]⟩ :=
    ⟨by simp [a, b], by simp [a, b, hblob], by simp [a, b], by simp [a, b]⟩
  have hswapped (hash : String) : TreeShape ⟨hash, [b, a]⟩ :=
    ⟨by simp [a, b], by simp [a, b, hblob], by simp [a, b], by simp [a, b]⟩
  exact (treePreimage_identifies (hshape "") (hswapped "x")).1 (List.Perm.swap ..)

-- ---------------------------------------------------------------------------
-- The path-to-blob map
-- ---------------------------------------------------------------------------

/-- `entries.iter().find(|e| &e.path == p)`. -/
def FileTree.entryAt (t : FileTree) (p : String) : Option FileTreeEntry :=
  t.entries.find? (fun e => e.path = p)

def FileTree.blobAt (t : FileTree) (p : String) : Option String :=
  (t.entryAt p).map FileTreeEntry.blobId

def FileTree.paths (t : FileTree) : List String := t.entries.map FileTreeEntry.path

theorem FileTree.mem_paths {t : FileTree} : p ∈ t.paths ↔ ∃ e ∈ t.entries, e.path = p := by
  simp [FileTree.paths]

theorem FileTree.entryAt_mem {t : FileTree} (h : t.entryAt p = some e) :
    e ∈ t.entries ∧ e.path = p := by
  refine ⟨List.mem_of_find?_eq_some h, ?_⟩
  simpa using List.find?_some h

theorem FileTree.entryAt_eq_none {t : FileTree} : t.entryAt p = none ↔ p ∉ t.paths := by
  simp [FileTree.entryAt, FileTree.paths]

theorem find_path_of_mem {es : List FileTreeEntry} (hn : (es.map FileTreeEntry.path).Nodup)
    (he : e ∈ es) : es.find? (fun x => x.path = e.path) = some e := by
  induction es with
  | nil => cases he
  | cons d es ih =>
    obtain ⟨hd, hn⟩ := List.nodup_cons.mp hn
    rcases List.mem_cons.mp he with rfl | he
    · simp
    · have hne : d.path ≠ e.path := fun heq => hd (heq ▸ List.mem_map_of_mem he)
      rw [List.find?_cons_of_neg (by simpa using hne)]
      exact ih hn he

theorem FileTree.entryAt_of_mem {t : FileTree} (hn : t.paths.Nodup) (he : e ∈ t.entries) :
    t.entryAt e.path = some e := find_path_of_mem hn he

theorem FileTree.blobAt_eq_some {t : FileTree} (hn : t.paths.Nodup) :
    t.blobAt p = some b ↔ ∃ e ∈ t.entries, e.path = p ∧ e.blobId = b := by
  constructor
  · intro h
    obtain ⟨e, he, rfl⟩ := Option.map_eq_some_iff.mp h
    obtain ⟨hmem, hpath⟩ := FileTree.entryAt_mem he
    exact ⟨e, hmem, hpath, rfl⟩
  · rintro ⟨e, he, rfl, rfl⟩
    rw [FileTree.blobAt, FileTree.entryAt_of_mem hn he, Option.map_some]

theorem paths_eq_of_preimage (ht : Hashable t) (hu : Hashable u)
    (h : treePreimage t = treePreimage u) : p ∈ t.paths ↔ p ∈ u.paths := by
  have hkey (v : FileTree) : p ∈ v.paths ↔ ∃ b n, (p, b, n) ∈ v.entries.map FileTreeEntry.key := by
    simp only [FileTree.mem_paths, List.mem_map, FileTreeEntry.key, Prod.mk.injEq]
    constructor
    · rintro ⟨e, he, hp⟩
      exact ⟨e.blobId, e.size, e, he, hp, rfl, rfl⟩
    · rintro ⟨-, -, e, he, hp, -, -⟩
      exact ⟨e, he, hp⟩
  rw [hkey t, hkey u]
  simp only [treePreimage_inj ht hu h]

theorem blobAt_eq_of_preimage (ht : TreeShape t) (hu : TreeShape u)
    (h : treePreimage t = treePreimage u) (p : String) : t.blobAt p = u.blobAt p := by
  have hkey (v : FileTree) (hv : TreeShape v) (b : String) :
      v.blobAt p = some b ↔ ∃ n, (p, b, n) ∈ v.entries.map FileTreeEntry.key := by
    rw [FileTree.blobAt_eq_some hv.nodup]
    simp only [List.mem_map, FileTreeEntry.key, Prod.mk.injEq]
    constructor
    · rintro ⟨e, he, hp, hb⟩
      exact ⟨e.size, e, he, hp, hb, rfl⟩
    · rintro ⟨-, e, he, hp, hb, -⟩
      exact ⟨e, he, hp, hb⟩
  apply Option.ext
  intro b
  rw [hkey t ht, hkey u hu]
  simp only [treePreimage_inj ht.hashable hu.hashable h]

end Nsmt.Core
