import Mathlib

/-!
# Quorums of different groups

Two quorums are drawn from two groups that need not be equal.  This module says
exactly how large the quorums must be so that they cannot avoid each other.
-/

namespace Hermes

open Finset

variable {α : Type*} [DecidableEq α] {S T : Finset α} {p q : ℕ}

/-- Of the `p` members of a quorum at least `p - #(S \ T)` are in the other group. -/
theorem sub_card_sdiff_le_card_inter {A : Finset α} (inside : A ⊆ S) (size : p ≤ A.card) :
    p - (S \ T).card ≤ (A ∩ T).card := by
  have outside : (A \ T).card ≤ (S \ T).card :=
    card_le_card (sdiff_subset_sdiff inside (Subset.refl T))
  have parts := card_sdiff_add_card_inter A T
  omega

/-- Quorums that are small enough can be chosen apart from each other. -/
theorem exists_disjoint_quorums (room : (p - (S \ T).card) + (q - (T \ S).card) ≤ (S ∩ T).card) :
    ∃ A ⊆ S, ∃ B ⊆ T, p ≤ A.card ∧ q ≤ B.card ∧ Disjoint A B := by
  -- fill up from the common members what the own ones do not provide
  obtain ⟨X, inX, cardX⟩ := exists_subset_card_eq
    (show p - (S \ T).card ≤ (S ∩ T).card by omega)
  have rest : q - (T \ S).card ≤ ((S ∩ T) \ X).card := by
    rw [card_sdiff_of_subset inX]
    omega
  obtain ⟨Y, inY, cardY⟩ := exists_subset_card_eq rest
  have ownX : Disjoint (S \ T) X := by
    rw [disjoint_left]
    intro x own shared
    exact (mem_sdiff.mp own).2 (mem_inter.mp (inX shared)).2
  have ownY : Disjoint (T \ S) Y := by
    rw [disjoint_left]
    intro x own shared
    exact (mem_sdiff.mp own).2
      (mem_inter.mp (mem_sdiff.mp (inY shared)).1).1
  refine ⟨(S \ T) ∪ X, ?_, (T \ S) ∪ Y, ?_, ?_, ?_, ?_⟩
  · exact union_subset sdiff_subset (inX.trans inter_subset_left)
  · exact union_subset sdiff_subset
      (inY.trans (sdiff_subset.trans inter_subset_right))
  · rw [card_union_of_disjoint ownX]
    omega
  · rw [card_union_of_disjoint ownY]
    omega
  · rw [disjoint_left]
    intro x inA inB
    simp only [mem_union, mem_sdiff] at inA inB
    rcases inA with ⟨_, notT⟩ | common
    · rcases inB with ⟨inT, _⟩ | common
      · exact notT inT
      · exact notT (mem_inter.mp (mem_sdiff.mp (inY common)).1).2
    · rcases inB with ⟨_, notS⟩ | other
      · exact notS (mem_inter.mp (inX common)).1
      · exact (mem_sdiff.mp (inY other)).2 common

/-- Quorums of at least `p` members of `S` and at least `q` members of `T` always
meet if and only if what each of them needs from the common members exceeds these. -/
theorem quorums_meet_iff :
    (∀ A ⊆ S, ∀ B ⊆ T, p ≤ A.card → q ≤ B.card → (A ∩ B).Nonempty) ↔
      (S ∩ T).card < (p - (S \ T).card) + (q - (T \ S).card) := by
  constructor
  · intro meet
    by_contra room
    obtain ⟨A, inS, B, inT, sizeA, sizeB, apart⟩ :=
      exists_disjoint_quorums (not_lt.mp room)
    exact not_disjoint_iff_nonempty_inter.mpr (meet A inS B inT sizeA sizeB) apart
  · intro large A inS B inT sizeA sizeB
    rw [← not_disjoint_iff_nonempty_inter]
    intro apart
    have sharedA := sub_card_sdiff_le_card_inter (T := T) inS sizeA
    have sharedB := sub_card_sdiff_le_card_inter (T := S) inT sizeB
    have together : (A ∩ T ∪ B ∩ S).card ≤ (S ∩ T).card := by
      apply card_le_card
      apply union_subset
      · exact inter_subset_inter inS (Subset.refl T)
      · rw [inter_comm S T]
        exact inter_subset_inter inT (Subset.refl S)
    have apart' : Disjoint (A ∩ T) (B ∩ S) :=
      apart.mono inter_subset_left inter_subset_left
    rw [card_union_of_disjoint apart'] at together
    omega

end Hermes
