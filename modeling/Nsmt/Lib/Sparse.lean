import Mathlib.Data.Set.Insert
import Mathlib.Tactic.SplitIfs

/-!
# Sparse files

A file written piecewise at offsets: `writeAt` is `seek` then `write_all` on a
file opened without truncation, so a gap reads as zeros and a write of nothing
leaves the file alone. A text cut into chunks of `k` elements is written chunk
by chunk, in any order: `Holds k text written file` ties the file to the set of
chunks written so far, and `Holds.eq_iff` says when it is the whole text.
-/

namespace Nsmt.Lib.Sparse

section Slices
variable {α : Type}

/-- The elements `[i * k, (i + 1) * k)` of a text. -/
def slice (k : Nat) (text : List α) (i : Nat) : List α := (text.drop (i * k)).take k

/-- `usize::div_ceil`. -/
def chunkCount (k length : Nat) : Nat := (length + k - 1) / k

theorem lt_chunkCount (hk : 0 < k) : i < chunkCount k length ↔ i * k < length := by
  rw [chunkCount, Nat.lt_div_iff_mul_lt hk]
  omega

theorem chunkCount_pos (hk : 0 < k) : 0 < chunkCount k length ↔ 0 < length := by
  rw [lt_chunkCount hk]
  simp

theorem getElem?_slice (k : Nat) (text : List α) (i j : Nat) :
    (slice k text i)[j]? = if j < k then text[i * k + j]? else none := by
  rw [slice, List.getElem?_take]
  split
  · rw [List.getElem?_drop]
  · rfl

theorem length_slice (k : Nat) (text : List α) (i : Nat) :
    (slice k text i).length = min k (text.length - i * k) := by
  simp [slice]

theorem flatMap_slice (k : Nat) (text : List α) (n : Nat) :
    (List.range n).flatMap (slice k text) = text.take (n * k) := by
  induction n with
  | zero => simp
  | succ n ih =>
    rw [List.range_succ, List.flatMap_append, List.flatMap_singleton, ih, Nat.succ_mul, List.take_add,
      slice]

theorem mem_slice_iff (hk : 0 < k) {text : List α} :
    x ∈ slice k text i ↔ ∃ j, j / k = i ∧ text[j]? = some x := by
  rw [List.mem_iff_getElem?]
  constructor
  · rintro ⟨m, hm⟩
    rw [getElem?_slice] at hm
    split at hm
    · rename_i hlt
      refine ⟨i * k + m, ?_, hm⟩
      rw [Nat.mul_comm, Nat.mul_add_div hk, Nat.div_eq_of_lt hlt, Nat.add_zero]
    · cases hm
  · rintro ⟨j, rfl, hj⟩
    refine ⟨j % k, ?_⟩
    rw [getElem?_slice, if_pos (Nat.mod_lt j hk), Nat.div_add_mod']
    exact hj

end Slices

variable {α : Type} [Zero α]

def writeAt (file : List α) (offset : Nat) (data : List α) : List α :=
  if data = [] then file else
    file.take offset ++ List.replicate (offset - file.length) 0 ++ data ++
      file.drop (offset + data.length)

theorem getElem?_writeAt (file : List α) (offset : Nat) {data : List α} (hd : data ≠ [])
    (j : Nat) :
    (writeAt file offset data)[j]? =
      if offset ≤ j ∧ j < offset + data.length then data[j - offset]?
      else if j < file.length then file[j]?
      else if j < offset then some 0 else none := by
  have hpos := List.length_pos_iff.mpr hd
  -- The kept prefix and the gap together always end at `offset`.
  have hprefix : min offset file.length + (offset - file.length) = offset := by omega
  rw [writeAt, if_neg hd]
  simp only [List.getElem?_append, List.length_append, List.length_take, List.length_replicate,
    List.getElem?_take, List.getElem?_replicate, List.getElem?_drop, hprefix]
  split_ifs <;> first
    | rfl
    | omega
    | (rw [List.getElem?_eq_none_iff]; omega)
    | (congr 1; omega)

theorem lt_length_writeAt {file data : List α} (hd : data ≠ []) :
    j < (writeAt file offset data).length ↔ j < file.length ∨ j < offset + data.length := by
  have h := getElem?_writeAt file offset hd j
  have hiff : j < (writeAt file offset data).length ↔
      (writeAt file offset data)[j]? ≠ none := by
    simp
  rw [hiff, h]
  split_ifs with h1 h2 h3
  · simp [h1.2]
    omega
  · simp [h2]
  · simp
    omega
  · simp
    omega

-- ---------------------------------------------------------------------------
-- Files written chunk by chunk
-- ---------------------------------------------------------------------------

/-- The file holds the chunks in `written`, zeros in the gaps before the last
of them, and nothing behind it. -/
structure Holds (k : Nat) (text : List α) (written : Set Nat) (file : List α) : Prop where
  bound : ∀ i ∈ written, i * k < text.length
  length : ∀ j, j < file.length ↔ ∃ i ∈ written, j < (i + 1) * k ∧ j < text.length
  data : ∀ j, j < text.length → j / k ∈ written → file[j]? = text[j]?
  gap : ∀ j, j < file.length → j / k ∉ written → file[j]? = some 0

theorem Holds.empty (k : Nat) (text : List α) : Holds k text ∅ [] where
  bound := by simp
  length := by simp
  data := by simp
  gap := by simp

theorem lt_succ_mul (hk : 0 < k) (j : Nat) : j < (j / k + 1) * k := by
  rw [Nat.mul_comm]
  exact Nat.lt_mul_div_succ j hk

theorem Holds.writeAt {text : List α} (h : Holds k text written file) (hk : 0 < k)
    (hi : i * k < text.length) :
    Holds k text (insert i written) (writeAt file (i * k) (slice k text i)) := by
  have hlen : (slice k text i).length = min k (text.length - i * k) := length_slice k text i
  have hne : slice k text i ≠ [] := by
    rw [ne_eq, ← List.length_eq_zero_iff, hlen]
    omega
  have hsucc : (i + 1) * k = i * k + k := Nat.succ_mul i k
  -- The write covers exactly the positions of chunk `i`.
  have hcover (j : Nat) : (i * k ≤ j ∧ j < i * k + (slice k text i).length) ↔
      (j / k = i ∧ j < text.length) := by
    rw [hlen, Nat.div_eq_iff hk]
    constructor <;> intro hj <;> omega
  refine ⟨?_, fun j => ?_, fun j hj hw => ?_, fun j hj hw => ?_⟩
  · rintro m (rfl | hm)
    · exact hi
    · exact h.bound m hm
  · rw [lt_length_writeAt hne, h.length]
    constructor
    · rintro (⟨m, hm, hj⟩ | hj)
      · exact ⟨m, Set.mem_insert_of_mem i hm, hj⟩
      · exact ⟨i, Set.mem_insert i written, by omega⟩
    · rintro ⟨m, hm, hj⟩
      rcases hm with rfl | hm
      · exact .inr (by omega)
      · exact .inl ⟨m, hm, hj⟩
  · rw [getElem?_writeAt _ _ hne]
    by_cases hc : j / k = i
    · have hin := (hcover j).mpr ⟨hc, hj⟩
      rw [if_pos hin, getElem?_slice, if_pos (by omega)]
      congr 1
      omega
    · have hw : j / k ∈ written := hw.resolve_left hc
      have hlt : j < file.length := (h.length j).mpr ⟨j / k, hw, lt_succ_mul hk j, hj⟩
      rw [if_neg (fun hin => hc ((hcover j).mp hin).1), if_pos hlt]
      exact h.data j hj hw
  · have hc : j / k ≠ i := fun hc => hw (hc ▸ Set.mem_insert _ _)
    have hw : j / k ∉ written := fun hm => hw (Set.mem_insert_of_mem i hm)
    have hout : ¬ (i * k ≤ j ∧ j < i * k + (slice k text i).length) :=
      fun hin => hc ((hcover j).mp hin).1
    rw [getElem?_writeAt _ _ hne, if_neg hout]
    split_ifs with hlt hoff
    · exact h.gap j hlt hw
    · rfl
    · rw [lt_length_writeAt hne] at hj
      omega

theorem Holds.eq_of_all {text : List α} (h : Holds k text written file)
    (hall : ∀ i, i * k < text.length → i ∈ written) : file = text := by
  apply List.ext_getElem?
  intro j
  have hmem (hj : j < text.length) : j / k ∈ written :=
    hall _ (Nat.lt_of_le_of_lt (Nat.div_mul_le_self j k) hj)
  by_cases hj : j < text.length
  · exact h.data j hj (hmem hj)
  · have hf : ¬ j < file.length := by
      rw [h.length]
      rintro ⟨_, _, _, hlt⟩
      exact hj hlt
    rw [List.getElem?_eq_none_iff.mpr (by omega), List.getElem?_eq_none_iff.mpr (by omega)]

/-- Exactly when a partly written file already is the text: its last chunk is
there, and every chunk that is missing consists of zeros. -/
theorem Holds.eq_iff {text : List α} (h : Holds k text written file) (hk : 0 < k)
    (ht : text ≠ []) :
    file = text ↔ chunkCount k text.length - 1 ∈ written ∧
      ∀ i ∉ written, ∀ x ∈ slice k text i, x = 0 := by
  have hpos := List.length_pos_iff.mpr ht
  have hcount : 0 < chunkCount k text.length := (chunkCount_pos hk).mpr hpos
  constructor
  · rintro rfl
    constructor
    · obtain ⟨i, hi, hlast, -⟩ := (h.length (file.length - 1)).mp (by omega)
      have hlt : i < chunkCount k file.length := (lt_chunkCount hk).mpr (h.bound i hi)
      have hle : ¬ i + 1 < chunkCount k file.length := by
        rw [lt_chunkCount hk]
        omega
      rwa [show chunkCount k file.length - 1 = i by omega]
    · intro i hi x hx
      obtain ⟨j, rfl, hj⟩ := (mem_slice_iff hk).mp hx
      have hgap := h.gap j (List.getElem?_eq_some_iff.mp hj).1 hi
      rw [hj] at hgap
      exact Option.some.inj hgap
  · rintro ⟨hlast, hzero⟩
    have hlength (j : Nat) : j < file.length ↔ j < text.length := by
      rw [h.length]
      constructor
      · rintro ⟨_, _, _, hj⟩
        exact hj
      · intro hj
        refine ⟨_, hlast, ?_, hj⟩
        have hend : ¬ chunkCount k text.length * k < text.length := by
          rw [← lt_chunkCount hk]
          omega
        rw [Nat.sub_add_cancel hcount]
        omega
    apply List.ext_getElem?
    intro j
    by_cases hj : j < text.length
    · by_cases hw : j / k ∈ written
      · exact h.data j hj hw
      · have hx := List.getElem?_eq_getElem hj
        have hz := hzero (j / k) hw _ ((mem_slice_iff hk).mpr ⟨j, rfl, hx⟩)
        rw [h.gap j ((hlength j).mpr hj) hw, hx, hz]
    · have hf : ¬ j < file.length := fun hlt => hj ((hlength j).mp hlt)
      rw [List.getElem?_eq_none_iff.mpr (by omega), List.getElem?_eq_none_iff.mpr (by omega)]

-- ---------------------------------------------------------------------------
-- Pieces of any length
-- ---------------------------------------------------------------------------

/-- The first `n` pieces, each written where its chunk starts. -/
def assemble (k : Nat) (piece : Nat → List α) (n : Nat) : List α :=
  (List.range n).foldl (fun file i => writeAt file (i * k) (piece i)) []

@[simp] theorem assemble_zero (k : Nat) (piece : Nat → List α) : assemble k piece 0 = [] := rfl

theorem assemble_succ (k : Nat) (piece : Nat → List α) (n : Nat) :
    assemble k piece (n + 1) = writeAt (assemble k piece n) (n * k) (piece n) := by
  rw [assemble, List.range_succ, List.foldl_append]
  rfl

theorem assemble_slice (hk : 0 < k) (text : List α) :
    assemble k (slice k text) (chunkCount k text.length) = text := by
  have hholds (n : Nat) (hn : n ≤ chunkCount k text.length) :
      Holds k text {i | i < n} (assemble k (slice k text) n) := by
    induction n with
    | zero => simpa using Holds.empty k text
    | succ n ih =>
      have hset : {i | i < n + 1} = insert n {i | i < n} := by
        ext i
        simp only [Set.mem_ofPred_eq, Set.mem_insert_iff]
        omega
      rw [assemble_succ, hset]
      exact (ih (by omega)).writeAt hk ((lt_chunkCount hk).mp hn)
  exact (hholds _ le_rfl).eq_of_all fun i hi => (lt_chunkCount hk).mpr hi

/-- Pieces that all end before a position leave the file shorter than that. -/
theorem length_assemble_lt {piece : Nat → List α} (hpos : 0 < length)
    (hend : ∀ i < n, i * k + (piece i).length < length) :
    (assemble k piece n).length < length := by
  induction n with
  | zero => exact hpos
  | succ n ih =>
    have hlt := ih fun i hi => hend i (by omega)
    rw [assemble_succ]
    by_cases hd : piece n = []
    · rw [writeAt, if_pos hd]
      exact hlt
    · have hn := hend n (by omega)
      have hwrite (j : Nat) : j < (writeAt (assemble k piece n) (n * k) (piece n)).length ↔
          j < (assemble k piece n).length ∨ j < n * k + (piece n).length := lt_length_writeAt hd
      have hlast := hwrite ((writeAt (assemble k piece n) (n * k) (piece n)).length - 1)
      omega

theorem le_length_assemble (k : Nat) (piece : Nat → List α) (n : Nat) (hd : piece n ≠ []) :
    n * k + (piece n).length ≤ (assemble k piece (n + 1)).length := by
  have hpos := List.length_pos_iff.mpr hd
  have hwrite (j : Nat) : j < (writeAt (assemble k piece n) (n * k) (piece n)).length ↔
      j < (assemble k piece n).length ∨ j < n * k + (piece n).length := lt_length_writeAt hd
  have hlast := hwrite (n * k + (piece n).length - 1)
  rw [assemble_succ]
  omega

end Nsmt.Lib.Sparse
