import Mathlib

/-!
# Tilings by intervals

Half-open intervals that follow each other without a gap and without overlap tile the range
from the beginning of the first to the end of the last.  Some of them may be empty.  Every
point of the range lies in exactly one interval, the last one that begins no later.
-/

namespace Hermes.Tiling

open List

variable {α K : Type*} [LinearOrder K]

/-- From a point up to another one, or without an end. -/
@[ext]
structure Tile (K : Type*) where
  lo : K
  hi : WithTop K

namespace Tile

def Contains (i : Tile K) (k : K) : Prop :=
  i.lo ≤ k ∧ (k : WithTop K) < i.hi

/-- The interval ends where it begins. -/
def Empty (i : Tile K) : Prop :=
  i.hi = i.lo

end Tile

/-- The intervals tile the range from `a` to `b`. -/
def Tiles (a : WithTop K) : List (Tile K) → WithTop K → Prop
  | [], b => a = b
  | i :: rest, b => (i.lo : WithTop K) = a ∧ a ≤ i.hi ∧ Tiles i.hi rest b

variable {a b c : WithTop K} {l l' : List (Tile K)} {i : Tile K}

@[simp]
theorem tiles_nil : Tiles a [] b ↔ a = b :=
  Iff.rfl

@[simp]
theorem tiles_cons {rest : List (Tile K)} :
    Tiles a (i :: rest) b ↔ (i.lo : WithTop K) = a ∧ a ≤ i.hi ∧ Tiles i.hi rest b :=
  Iff.rfl

theorem tiles_append : Tiles a (l ++ l') b ↔ ∃ c, Tiles a l c ∧ Tiles c l' b := by
  induction l generalizing a with
  | nil => simp
  | cons i rest ih => simp [ih, and_assoc]

theorem Tiles.le (tiles : Tiles a l b) : a ≤ b := by
  induction l generalizing a with
  | nil => exact tiles.le
  | cons i rest ih => exact tiles.2.1.trans (ih tiles.2.2)

/-- No interval of a tiling begins before it or ends before it begins. -/
theorem Tiles.bounds (tiles : Tiles a l b) (mem : i ∈ l) :
    a ≤ i.lo ∧ (i.lo : WithTop K) ≤ i.hi := by
  induction l generalizing a with
  | nil => nomatch mem
  | cons j rest ih =>
    obtain ⟨rfl, le, tiles⟩ := tiles
    rcases mem_cons.mp mem with rfl | later
    · exact ⟨le_rfl, le⟩
    · exact (ih tiles later).imp_left le.trans

/-- Of two intervals of a tiling the second begins after the first, or where it is empty. -/
def Before (i j : Tile K) : Prop :=
  i.lo < j.lo ∨ i.lo = j.lo ∧ i.Empty

theorem Tiles.pairwise (tiles : Tiles a l b) : l.Pairwise Before := by
  induction l generalizing a with
  | nil => exact .nil
  | cons i rest ih =>
    obtain ⟨rfl, le, tiles⟩ := tiles
    refine .cons ?_ (ih tiles)
    intro j later
    have after := (tiles.bounds later).1
    rcases (WithTop.coe_le_coe.mp (le.trans after)).lt_or_eq with less | same
    · exact .inl less
    · exact .inr ⟨same, le_antisymm (same ▸ after) le⟩

theorem Tiles.eq_of_perm (tiles : Tiles a l b) (perm : l'.Perm l)
    (sorted : l'.Pairwise Before) : l' = l := by
  apply Perm.eq_of_pairwise _ sorted tiles.pairwise perm
  rintro i j - - (less | ⟨same, empty⟩) (less' | ⟨same', empty'⟩)
  · exact absurd less less'.asymm
  · exact absurd same' less.ne'
  · exact absurd same less'.ne'
  · ext1
    · exact same
    · rw [empty, empty', same]

theorem Tiles.cut {k : K} (tiles : Tiles a (l ++ i :: l') b) (contains : i.Contains k) :
    Tiles a (l ++ ⟨i.lo, k⟩ :: ⟨k, i.hi⟩ :: l') b := by
  rw [tiles_append] at tiles ⊢
  obtain ⟨c, front, begins, -, back⟩ := tiles
  refine ⟨c, front, begins, ?_, rfl, contains.2.le, back⟩
  rw [← begins]
  exact WithTop.coe_le_coe.mpr contains.1

theorem Tiles.join {m : List (Tile K)} {j : Tile K}
    (tiles : Tiles a (l ++ i :: (m ++ j :: l')) b) : Tiles a (l ++ ⟨i.lo, j.hi⟩ :: l') b := by
  rw [tiles_append] at tiles ⊢
  obtain ⟨c, front, begins, le, tiles⟩ := tiles
  obtain ⟨d, middle, -, le', back⟩ := tiles_append.mp tiles
  exact ⟨c, front, begins, (le.trans middle.le).trans le', back⟩

variable {f : α → Tile K}

/-- Taking empty intervals away leaves a tiling. -/
theorem Tiles.filter {l : List α} {p : α → Bool} (tiles : Tiles a (l.map f) b)
    (empty : ∀ x ∈ l, p x = false → (f x).Empty) : Tiles a ((l.filter p).map f) b := by
  induction l generalizing a with
  | nil => exact tiles
  | cons x rest ih =>
    obtain ⟨begins, le, tiles⟩ := tiles
    rw [forall_mem_cons] at empty
    have rest_tiles := ih tiles empty.2
    cases kept : p x with
    | true =>
      rw [filter_cons_of_pos kept]
      exact ⟨begins, le, rest_tiles⟩
    | false =>
      rw [filter_cons_of_neg (by simp [kept])]
      rw [(empty.1 kept : (f x).hi = _), begins] at rest_tiles
      exact rest_tiles

/-- Every point of the range lies in one interval, between those that end before it and those
that begin after it. -/
theorem Tiles.exists_contains {l : List α} (tiles : Tiles a (l.map f) b) {k : K} (above : a ≤ k)
    (below : (k : WithTop K) < b) :
    ∃ before x after, l = before ++ x :: after ∧ (f x).Contains k ∧
      (∀ y ∈ before, (f y).lo ≤ k ∧ (f y).hi ≤ k) ∧ ∀ y ∈ after, k < (f y).lo := by
  induction l generalizing a with
  | nil =>
    exact absurd (tiles ▸ above) (not_le.mpr below)
  | cons x rest ih =>
    obtain ⟨rfl, le, tiles⟩ := tiles
    rcases lt_or_ge (k : WithTop K) (f x).hi with inside | beyond
    · refine ⟨[], x, rest, rfl, ⟨WithTop.coe_le_coe.mp above, inside⟩, nofun, ?_⟩
      intro y later
      have after := (tiles.bounds (mem_map_of_mem later)).1
      exact WithTop.coe_lt_coe.mp (inside.trans_le after)
    · obtain ⟨before, y, after, rfl, contains, low, high⟩ := ih tiles beyond
      refine ⟨x :: before, y, after, rfl, contains, ?_, high⟩
      rw [forall_mem_cons]
      exact ⟨⟨WithTop.coe_le_coe.mp above, beyond⟩, low⟩

/-- Intervals between one boundary and the next tile the range from the first boundary to the
last. -/
theorem tiles_range {boundary : ℕ → WithTop K} {f : ℕ → Tile K} {n : ℕ}
    (begins : ∀ i < n, ((f i).lo : WithTop K) = boundary i)
    (ends : ∀ i < n, (f i).hi = boundary (i + 1))
    (ascending : ∀ i < n, boundary i ≤ boundary (i + 1)) :
    Tiles (boundary 0) ((List.range n).map f) (boundary n) := by
  induction n with
  | zero => rfl
  | succ n ih =>
    rw [range_succ, map_append, tiles_append]
    refine ⟨boundary n, ?_, begins n n.lt_succ_self, ?_, ends n n.lt_succ_self⟩
    · exact ih (fun i less => begins i (less.trans n.lt_succ_self))
        (fun i less => ends i (less.trans n.lt_succ_self))
        fun i less => ascending i (less.trans n.lt_succ_self)
    · rw [ends n n.lt_succ_self]
      exact ascending n n.lt_succ_self

end Hermes.Tiling
