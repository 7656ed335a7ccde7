import Mathlib

/-!
# Sorting and searching slices

Sorting by a key leaves elements with the same key in any order.  Searching halves a range
until the first index with a property is left.
-/

namespace Hermes.Slices

open List

variable {α κ : Type*}

/-! ## Sorting -/

/-- A procedure that sorts by a key. -/
structure Sorter (α κ : Type*) [LE κ] where
  sort : (α → κ) → List α → List α
  perm : ∀ key l, (sort key l).Perm l
  sorted : ∀ key l, (sort key l).Pairwise fun a b => key a ≤ key b

/-- Sorting by insertion. -/
def Sorter.insertion [LinearOrder κ] : Sorter α κ where
  sort key l := l.insertionSort fun a b => key a ≤ key b
  perm _ l := List.perm_insertionSort _ l
  sorted key l :=
    have : Std.Total fun a b => key a ≤ key b := ⟨fun a b => le_total (key a) (key b)⟩
    have : IsTrans α fun a b => key a ≤ key b := ⟨fun _ _ _ => le_trans⟩
    List.pairwise_insertionSort _ l

variable {l : List α}

namespace Sorter

variable [PartialOrder κ] (sorter : Sorter α κ) {key : α → κ}

@[simp]
theorem mem_sort {a : α} : a ∈ sorter.sort key l ↔ a ∈ l :=
  (sorter.perm key l).mem_iff

/-- Elements with different keys are sorted in one way only. -/
theorem sort_eq {l' : List α} (perm : l'.Perm l) (sorted : l'.Pairwise fun a b => key a ≤ key b)
    (different : ∀ a ∈ l, ∀ b ∈ l, key a = key b → a = b) : sorter.sort key l = l' := by
  apply Perm.eq_of_pairwise _ (sorter.sorted key l) sorted
    ((sorter.perm key l).trans perm.symm)
  intro a b inSort inList below above
  rw [mem_sort] at inSort
  exact different a inSort b (perm.mem_iff.mp inList) (le_antisymm below above)

end Sorter

/-! ## Limits -/

variable {p : α → Bool} {n : ℕ}

section Limits

variable [LinearOrder κ] {key : α → κ} {sorter : Sorter α κ} {l : List α}

theorem Sorter.pairwise_lt_sort (distinct : (l.map key).Nodup) :
    (sorter.sort key l).Pairwise fun a b => key a < key b := by
  have different : ((sorter.sort key l).map key).Nodup :=
    ((sorter.perm key l).map key).nodup_iff.mpr distinct
  rw [Nodup, pairwise_map] at different
  exact ((sorter.sorted key l).and different).imp fun ⟨le, ne⟩ => le.lt_of_ne ne

theorem Sorter.sort_congr {l' : List α} (perm : l'.Perm l) (distinct : (l.map key).Nodup) :
    sorter.sort key l' = sorter.sort key l := by
  apply sorter.sort_eq ((sorter.perm key l).trans perm.symm) (sorter.sorted key l)
  intro a inList b inList' same
  exact inj_on_of_nodup_map distinct (perm.subset inList) (perm.subset inList') same

theorem Sorter.sort_filter (sorter sorter' : Sorter α κ) (distinct : (l.map key).Nodup)
    (p : α → Bool) : sorter'.sort key (l.filter p) = (sorter.sort key l).filter p := by
  apply sorter'.sort_eq ((sorter.perm key l).filter p) ((sorter.sorted key l).filter p)
  intro a inList b inList' same
  exact inj_on_of_nodup_map distinct (mem_of_mem_filter inList)
    (mem_of_mem_filter inList') same

/-- The first elements with a property are the first elements of all if every element without
it has enough others before it. -/
theorem take_eq_take_filter_iff (sorted : l.Pairwise fun a b => key a < key b) :
    l.take n = (l.filter p).take n ↔
      ∀ a ∈ l, p a = true ∨ n ≤ (l.filter fun b => key b < key a).length := by
  induction l generalizing n with
  | nil => simp
  | cons a rest ih =>
    rw [pairwise_cons] at sorted
    cases n with
    | zero => simp
    | succ n =>
      have first : (rest.filter fun b => key b < key a) = [] := by
        rw [filter_eq_nil_iff]
        exact fun b mem => by simpa using (sorted.1 b mem).le
      have later : (∀ e ∈ rest, p e = true ∨
          n + 1 ≤ ((a :: rest).filter fun b => key b < key e).length) ↔
          ∀ e ∈ rest, p e = true ∨ n ≤ (rest.filter fun b => key b < key e).length := by
        apply forall₂_congr
        intro e mem
        rw [filter_cons_of_pos (by simpa using sorted.1 e mem), length_cons,
          Nat.add_le_add_iff_right]
      rw [forall_mem_cons, later, ← ih sorted.2]
      cases holds : p a with
      | true => simp [holds]
      | false =>
        have absent : a ∉ rest := fun mem => (sorted.1 a mem).false
        constructor
        · intro same
          rw [filter_cons_of_neg (by simp [holds])] at same
          have mem : a ∈ (rest.filter p).take (n + 1) := same ▸ mem_cons_self
          exact absurd (mem_of_mem_filter (mem_of_mem_take mem)) absent
        · rintro ⟨enough | enough, -⟩
          · nomatch enough
          · rw [filter_cons_of_neg (by simp), first] at enough
            nomatch enough

/-- What comes after the first elements of a sorted list has those before it. -/
theorem le_length_filter_of_notMem_take (sorted : l.Pairwise fun a b => key a < key b) {a : α}
    (mem : a ∈ l) (beyond : a ∉ l.take n) : n ≤ (l.filter fun b => key b < key a).length := by
  rw [← take_append_drop n l] at mem sorted
  have later : a ∈ l.drop n := (mem_append.mp mem).resolve_left beyond
  have before : (l.take n).filter (fun b => key b < key a) = l.take n := by
    rw [filter_eq_self]
    exact fun b early => decide_eq_true ((pairwise_append.mp sorted).2.2 b early a later)
  have long : (l.take n).length = n := by
    apply length_take_of_le
    by_contra short
    rw [drop_eq_nil_of_le (not_le.mp short).le] at later
    nomatch later
  calc
    n = ((l.take n).filter fun b => key b < key a).length := by rw [before, long]
    _ ≤ (l.filter fun b => key b < key a).length :=
      ((take_sublist n l).filter _).length_le

theorem Sorter.take_sort_flatten {parts : List (List α)}
    (sorted : ∀ part ∈ parts, part.Pairwise fun a b => key a < key b)
    (distinct : (parts.flatten.map key).Nodup) (n : ℕ) :
    (sorter.sort key (parts.flatMap (List.take n))).take n =
      (sorter.sort key parts.flatten).take n := by
  classical
  have sublist : (parts.flatMap (take n)).Sublist parts.flatten := by
    rw [← flatMap_id]
    exact Sublist.flatMap_right parts fun part _ => take_sublist n part
  have sort_cut : sorter.sort key (parts.flatMap (take n)) =
      (sorter.sort key parts.flatten).filter (· ∈ parts.flatMap (take n)) := by
    apply sorter.sort_eq _ ((sorter.sorted key parts.flatten).filter _)
    · intro a inCut b inCut' same
      exact inj_on_of_nodup_map distinct (sublist.subset inCut) (sublist.subset inCut') same
    · have nodup := distinct.of_map
      rw [perm_ext_iff_of_nodup (((sorter.perm key _).nodup_iff.mpr nodup).filter _)
        (nodup.sublist sublist)]
      intro a
      rw [mem_filter, sorter.mem_sort, decide_eq_true_iff]
      exact and_iff_right_of_imp fun inCut => sublist.subset inCut
  rw [sort_cut, eq_comm, take_eq_take_filter_iff (sorter.pairwise_lt_sort distinct)]
  intro a mem
  rw [sorter.mem_sort, mem_flatten] at mem
  obtain ⟨part, inParts, mem⟩ := mem
  by_cases early : a ∈ part.take n
  · exact .inl (decide_eq_true (mem_flatMap_of_mem inParts early))
  · right
    calc
      n ≤ (part.filter fun b => key b < key a).length :=
        le_length_filter_of_notMem_take (sorted part inParts) mem early
      _ ≤ (parts.flatten.filter fun b => key b < key a).length :=
        ((sublist_flatten_of_mem inParts).filter _).length_le
      _ = ((sorter.sort key parts.flatten).filter fun b => key b < key a).length :=
        ((sorter.perm key parts.flatten).filter _).length_eq.symm

end Limits

/-! ## Searching -/

/-- The loop of a search within `i` and `j`. -/
def halve (f : ℕ → Bool) : (fuel i j : ℕ) → ℕ
  | 0, i, _ => i
  | fuel + 1, i, j =>
    if i < j then
      let h := (i + j) / 2
      if f h then halve f fuel i h else halve f fuel (h + 1) j
    else i

/-- The first index below `n` with a property, or `n`; every index above one with the
property is supposed to have it as well. -/
def search (n : ℕ) (f : ℕ → Bool) : ℕ :=
  halve f n 0 n

variable {f : ℕ → Bool}

theorem halve_eq {fuel i j r : ℕ} (lower : i ≤ r) (upper : r ≤ j) (enough : j - i ≤ fuel)
    (low : ∀ k < r, f k = false) (high : ∀ k, r ≤ k → k < j → f k = true) :
    halve f fuel i j = r := by
  induction fuel generalizing i j with
  | zero =>
    rw [halve]
    omega
  | succ fuel ih =>
    rw [halve]
    split
    · dsimp only
      split
      · rename_i holds
        have below : r ≤ (i + j) / 2 := by
          by_contra above
          rw [low _ (not_le.mp above)] at holds
          nomatch holds
        apply ih lower below (by omega)
        exact fun k after before => high k after (by omega)
      · rename_i fails
        have above : (i + j) / 2 < r := by
          by_contra below
          exact fails (high _ (not_lt.mp below) (by omega))
        exact ih above upper (by omega) high
    · omega

theorem halve_le {fuel i j : ℕ} (le : i ≤ j) : halve f fuel i j ≤ j := by
  induction fuel generalizing i j with
  | zero => exact le
  | succ fuel ih =>
    rw [halve]
    split
    · dsimp only
      split
      · exact (ih (by omega)).trans (by omega)
      · exact ih (by omega)
    · exact le

theorem search_le : search n f ≤ n :=
  halve_le (Nat.zero_le n)

/-- What a search finds if the indices without the property come before those with it. -/
theorem search_eq {r : ℕ} (le : r ≤ n) (low : ∀ k < r, f k = false)
    (high : ∀ k, r ≤ k → k < n → f k = true) : search n f = r :=
  halve_eq (Nat.zero_le r) le (Nat.sub_le n 0) low high

/-- Searching a list whose elements without the property come before those with it. -/
theorem search_append {before after : List α} (low : ∀ a ∈ before, p a = false)
    (high : ∀ a ∈ after, p a = true) :
    search (before ++ after).length (fun i => ((before ++ after)[i]?).any p) = before.length := by
  apply search_eq
  · rw [length_append]
    exact Nat.le_add_right _ _
  · intro k less
    rw [getElem?_append_left less, getElem?_eq_getElem less]
    exact low _ (getElem_mem less)
  · intro k later less
    rw [length_append] at less
    rw [getElem?_append_right later, getElem?_eq_getElem (by omega)]
    exact high _ (getElem_mem _)

/-- A sorted list splits where a property begins that its order passes on. -/
theorem exists_split {r : α → α → Prop} {p : α → Prop} (sorted : l.Pairwise r)
    (passes : ∀ a b, r a b → p a → p b) :
    ∃ before after, l = before ++ after ∧ (∀ a ∈ before, ¬ p a) ∧ ∀ a ∈ after, p a := by
  induction l with
  | nil => exact ⟨[], [], rfl, nofun, nofun⟩
  | cons a rest ih =>
    rw [pairwise_cons] at sorted
    by_cases holds : p a
    · refine ⟨[], a :: rest, rfl, nofun, ?_⟩
      rw [forall_mem_cons]
      exact ⟨holds, fun b mem => passes a b (sorted.1 b mem) holds⟩
    · obtain ⟨before, after, rfl, low, high⟩ := ih sorted.2
      exact ⟨a :: before, after, rfl, forall_mem_cons.mpr ⟨holds, low⟩, high⟩

end Hermes.Slices
