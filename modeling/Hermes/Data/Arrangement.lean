import Mathlib

/-!
# Arranging in an order that respects a relation

The elements of a list can be arranged so that a relation never points backwards if they have
points on a line along which the relation ascends.
-/

namespace Hermes.Arrangement

open List

variable {α β : Type*}

/-- Nothing comes after what it is related to. -/
def Respects (r : α → α → Prop) (order : List α) : Prop :=
  order.Pairwise fun a b => ¬ r b a

instance (r : α → α → Prop) [DecidableRel r] (order : List α) : Decidable (Respects r order) :=
  inferInstanceAs (Decidable (order.Pairwise fun a b => ¬ r b a))

variable {r : α → α → Prop}

/-- An arrangement exists if the relation ascends along points on a line; the order is that
of the points. -/
theorem exists_respects_of_point [LinearOrder β] (point : α → β) (l : List α)
    (ascends : ∀ a ∈ l, ∀ b ∈ l, r a b → point a < point b) :
    ∃ order, order.Perm l ∧ Respects r order ∧ order.Pairwise fun a b => point a ≤ point b := by
  have sorted : (l.mergeSort fun a b => point a ≤ point b).Pairwise
      fun a b => point a ≤ point b := by
    apply (@pairwise_mergeSort _ (fun a b => decide (point a ≤ point b)) _ _ l).imp
    · intro a b le
      exact of_decide_eq_true le
    · intro a b c ab bc
      exact decide_eq_true (le_trans (of_decide_eq_true ab) (of_decide_eq_true bc))
    · intro a b
      rcases le_total (point a) (point b) with ab | ba
      · rw [decide_eq_true ab, Bool.true_or]
      · rw [decide_eq_true ba, Bool.or_true]
  have perm := mergeSort_perm l fun a b => decide (point a ≤ point b)
  refine ⟨_, perm, ?_, sorted⟩
  apply sorted.imp_of_mem
  intro a b a_mem b_mem le backwards
  exact absurd (ascends b (perm.mem_iff.mp b_mem) a (perm.mem_iff.mp a_mem) backwards)
    (not_lt_of_ge le)

/-! ## Places of an arrangement -/

variable {r : α → α → Prop} {before after : List α} {x y : α}

theorem rel_before (pairwise : (before ++ x :: after).Pairwise r) (mem : y ∈ before) : r y x :=
  (pairwise_append.mp pairwise).2.2 y mem x mem_cons_self

theorem rel_after (pairwise : (before ++ x :: after).Pairwise r) (mem : y ∈ after) : r x y :=
  (pairwise_cons.mp (pairwise_append.mp pairwise).2.1).1 y mem

/-- What is related to an element comes before it. -/
theorem Respects.mem_before (respects : Respects r (before ++ x :: after))
    (mem : y ∈ before ++ x :: after) (other : y ≠ x) (related : r y x) : y ∈ before := by
  rcases mem_append.mp mem with earlier | later
  · exact earlier
  · rcases mem_cons.mp later with same | later
    · exact absurd same other
    · exact absurd related (rel_after respects later)

/-- What comes before an element is not what it is related to. -/
theorem Respects.not_related (respects : Respects r (before ++ x :: after))
    (mem : y ∈ before) : ¬ r x y :=
  rel_before respects mem

/-- What has a lower point comes before an element. -/
theorem mem_before_of_lt [LinearOrder β] {point : α → β}
    (ascending : (before ++ x :: after).Pairwise fun a b => point a ≤ point b)
    (mem : y ∈ before ++ x :: after) (lower : point y < point x) : y ∈ before := by
  have respects : Respects (fun a b => point a < point b) (before ++ x :: after) :=
    ascending.imp not_lt_of_ge
  exact respects.mem_before mem (fun same => ne_of_lt lower (congrArg point same)) lower

end Hermes.Arrangement
