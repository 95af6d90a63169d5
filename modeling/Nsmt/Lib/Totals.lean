import Mathlib.Algebra.BigOperators.Group.Finset.Basic

/-!
# Totals of functions with finite support

`Totals size n` says that `size` is zero but for finitely many arguments and
that its values add up to `n`. `Totals.change` is what a change at one argument
does to the total.
-/

namespace Nsmt.Lib

open Finset

def Totals (size : α → Nat) (n : Nat) : Prop :=
  ∃ support : Finset α, (∀ a, a ∉ support → size a = 0) ∧ ∑ a ∈ support, size a = n

namespace Totals

variable {α : Type} {size : α → Nat} {n m : Nat}

theorem zero (h : ∀ a, size a = 0) : Totals size 0 := ⟨∅, fun a _ => h a, rfl⟩

theorem unique (hn : Totals size n) (hm : Totals size m) : n = m := by
  classical
  obtain ⟨s, hs, rfl⟩ := hn
  obtain ⟨t, ht, rfl⟩ := hm
  have hl : ∑ a ∈ s, size a = ∑ a ∈ s ∪ t, size a :=
    sum_subset subset_union_left fun a _ ha => hs a ha
  have hr : ∑ a ∈ t, size a = ∑ a ∈ s ∪ t, size a :=
    sum_subset subset_union_right fun a _ ha => ht a ha
  rw [hl, hr]

theorem insert_support (h : Totals size n) (a : α) :
    ∃ rest : Finset α, a ∉ rest ∧ (∀ b, b ≠ a → b ∉ rest → size b = 0) ∧
      size a + ∑ b ∈ rest, size b = n := by
  classical
  obtain ⟨s, hs, rfl⟩ := h
  refine ⟨s.erase a, notMem_erase a s, fun b hb hmem => ?_, ?_⟩
  · exact hs b fun h => hmem (mem_erase.mpr ⟨hb, h⟩)
  · by_cases ha : a ∈ s
    · exact add_sum_erase s size ha
    · rw [erase_eq_of_notMem ha, hs a ha, Nat.zero_add]

theorem change (h : Totals size n) (size' : α → Nat) (a : α)
    (hsame : ∀ b, b ≠ a → size' b = size b) : ∃ m, Totals size' m ∧ m + size a = n + size' a := by
  classical
  obtain ⟨rest, ha, hrest, rfl⟩ := h.insert_support a
  have hsum : ∑ b ∈ rest, size' b = ∑ b ∈ rest, size b :=
    sum_congr rfl fun b hb => hsame b fun hba => ha (hba ▸ hb)
  refine ⟨size' a + ∑ b ∈ rest, size b, ⟨insert a rest, fun b hb => ?_, ?_⟩, by omega⟩
  · obtain ⟨hba, hmem⟩ := not_or.mp (mem_insert.not.mp hb)
    rw [hsame b hba, hrest b hba hmem]
  · rw [sum_insert ha, hsum]

end Totals

end Nsmt.Lib
