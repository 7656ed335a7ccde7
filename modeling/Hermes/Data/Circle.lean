import Hermes.Data.Slices

/-!
# Points on a circle

Positions on a circle are numbers; from a position one goes upwards and then on from the
lowest one.  The next of some points depends only on which points there are, so that adding
and removing points can change it only in favour of the new ones and to the detriment of the
old ones.
-/

namespace Hermes.Circle

open List

variable {α κ : Type*} [LinearOrder κ]

/-- Where a position stands in the order of those that one passes from `h` on. -/
def turn (h p : κ) : Bool ×ₗ κ :=
  toLex (decide (p < h), p)

theorem turn_injective (h : κ) : Function.Injective (turn h) := fun _ _ same =>
  (Prod.mk.inj (toLex.injective same)).2

/-- The first point from a position on. -/
structure IsNext (pos : α → κ) (points : Set α) (h : κ) (a : α) : Prop where
  mem : a ∈ points
  least : ∀ b ∈ points, turn h (pos a) ≤ turn h (pos b)

variable {pos : α → κ} {points more : Set α} {h : κ} {a b : α}

theorem IsNext.unique (different : Set.InjOn pos points) (first : IsNext pos points h a)
    (second : IsNext pos points h b) : a = b := by
  apply different first.mem second.mem
  apply turn_injective h
  exact le_antisymm (first.least b second.mem) (second.least a first.mem)

theorem IsNext.anti (next : IsNext pos more h a) (fewer : points ⊆ more) (mem : a ∈ points) :
    IsNext pos points h a where
  mem := mem
  least b inPoints := next.least b (fewer inPoints)

/-! ## Searching -/

/-- The index that a search for the first position from `h` on ends at, or the first one if
there is none. -/
def nextIndex (pos : α → κ) (l : List α) (h : κ) : ℕ :=
  let idx := Slices.search l.length fun i => (l[i]?).any fun a => h ≤ pos a
  if idx = l.length then 0 else idx

theorem nextIndex_append {before after : List α} (low : ∀ a ∈ before, pos a < h)
    (high : ∀ a ∈ after, h ≤ pos a) :
    nextIndex pos (before ++ after) h = if after = [] then 0 else before.length := by
  have found : Slices.search (before ++ after).length
      (fun i => ((before ++ after)[i]?).any fun a => h ≤ pos a) = before.length := by
    apply Slices.search_append
    · intro a mem
      simpa using low a mem
    · intro a mem
      simpa using high a mem
  rw [nextIndex, found]
  cases after with
  | nil | cons a rest => simp

theorem turn_le_of_le {p q : κ} (le : h ≤ p) (order : h ≤ q → p ≤ q) : turn h p ≤ turn h q := by
  rw [turn, turn, Prod.Lex.toLex_le_toLex, decide_eq_false (not_lt.mpr le)]
  by_cases above : h ≤ q
  · rw [decide_eq_false (not_lt.mpr above)]
    exact .inr ⟨rfl, order above⟩
  · rw [decide_eq_true (not_le.mp above)]
    exact .inl Bool.false_lt_true

theorem turn_le_of_lt {p q : κ} (below : q < h) (order : p ≤ q) : turn h p ≤ turn h q := by
  rw [turn, turn, Prod.Lex.toLex_le_toLex, decide_eq_true below,
    decide_eq_true (order.trans_lt below)]
  exact .inr ⟨rfl, order⟩

/-- A search in a sorted list finds the next point. -/
theorem isNext_nextIndex {l : List α} (sorted : l.Pairwise fun a b => pos a ≤ pos b)
    (found : l[nextIndex pos l h]? = some a) : IsNext pos { b | b ∈ l } h a := by
  refine ⟨mem_of_getElem? found, ?_⟩
  -- the points below the position come first
  obtain ⟨before, after, rfl, low, high⟩ := Slices.exists_split (p := fun a => h ≤ pos a) sorted
    fun _ _ le holds => holds.trans le
  simp only [not_le] at low
  rw [nextIndex_append low high] at found
  rw [pairwise_append] at sorted
  cases after with
  | nil =>
    rw [if_pos rfl, append_nil, ← head?_eq_getElem?, head?_eq_some_iff] at found
    obtain ⟨rest, rfl⟩ := found
    rw [append_nil]
    rintro b (_ | ⟨_, later⟩)
    · exact le_rfl
    · exact turn_le_of_lt (low b (.tail _ later)) (rel_of_pairwise_cons sorted.1 later)
  | cons first rest =>
    rw [if_neg (cons_ne_nil first rest), getElem?_append_right le_rfl,
      Nat.sub_self] at found
    cases found
    intro b mem
    apply turn_le_of_le (high a mem_cons_self)
    intro above
    rcases mem_append.mp mem with lower | upper
    · exact absurd above (not_le.mpr (low b lower))
    · rcases mem_cons.mp upper with rfl | later
      · exact le_rfl
      · exact rel_of_pairwise_cons sorted.2.1 later

theorem nextIndex_lt {l : List α} (nonempty : l ≠ []) : nextIndex pos l h < l.length := by
  rw [nextIndex]
  split
  · exact length_pos_of_ne_nil nonempty
  · rename_i inside
    exact lt_of_le_of_ne Slices.search_le inside

end Hermes.Circle
