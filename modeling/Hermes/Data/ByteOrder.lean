import Hermes.Data.Bytes

/-!
# The order of byte strings

Byte strings are compared byte by byte; the empty one is the least.
-/

namespace Hermes.ByteOrder

/-- The lexicographic order as a linear order. -/
scoped instance : LinearOrder Bytes where
  le := (· ≤ ·)
  lt := (· < ·)
  le_refl a := Std.le_refl a
  le_trans _ _ _ := Std.le_trans
  lt_iff_le_not_ge _ _ := Std.lt_iff_le_and_not_ge
  le_antisymm _ _ := Std.le_antisymm
  le_total _ _ := Std.le_total
  toDecidableLE := inferInstance
  toDecidableLT := inferInstance
  toDecidableEq := inferInstance
  compare a b := compareOfLessAndEq a b
  compare_eq_compareOfLessAndEq _ _ := rfl

theorem isPrefix_of_le_of_le {p x : Bytes} (low : p ≤ x) {t : Bytes} (high : x ≤ p ++ t) :
    p <+: x := by
  induction p generalizing x with
  | nil => exact List.nil_prefix
  | cons a p ih =>
    cases x with
    | nil => exact absurd low (by simp)
    | cons b x =>
      rw [List.cons_le_cons_iff] at low
      rw [List.cons_append, List.cons_le_cons_iff] at high
      rcases low with less | ⟨rfl, low⟩
      · rcases high with less' | ⟨rfl, -⟩
        · exact absurd less' (UInt8.lt_asymm less)
        · exact absurd less (UInt8.lt_irrefl _)
      · rcases high with less' | ⟨-, high⟩
        · exact absurd less' (UInt8.lt_irrefl _)
        · exact (List.prefix_cons_inj a).mpr (ih low high)

end Hermes.ByteOrder
