import Mathlib

/-!
# Skip lists

A skip list keeps items in the order of their keys.  Every node carries a tower of
forward pointers, and the pointer of level `i` leads to the next node whose tower is
higher than `i`; so the nodes in their order, with the heights of their towers,
determine all pointers.  A search walks along the highest level and goes down one
level whenever the next key there is not below the wanted one.

Wherever the towers are high, a search ends right before the first key that is not
below the wanted one.  Hence a skip list is a map from keys to items.
-/

namespace Hermes

open List

universe u v

structure Tower (α : Type u) where
  item : α
  height : ℕ
  deriving DecidableEq, Repr

namespace Tower

section Walks

variable {α : Type u} {κ : Type v} [LT κ] [DecidableLT κ] (key : α → κ) (k : κ)

/-- The walk along level `i`: the nodes behind the last node it reaches.  The nodes
behind the current node are `behind`, and the scan looks among them for the next
tower that is high enough. -/
def walk (i : ℕ) (behind : List (Tower α)) : List (Tower α) → List (Tower α)
  | [] => behind
  | t :: rest =>
    if i < t.height then
      if key t.item < k then walk i rest rest else behind
    else walk i behind rest

/-- The walks along the levels below `level`, the highest first. -/
def search : (level : ℕ) → List (Tower α) → List (Tower α)
  | 0, behind => behind
  | i + 1, behind => search i (walk key k i behind behind)

def Ordered (nodes : List (Tower α)) : Prop :=
  nodes.Pairwise fun s t => key s.item < key t.item

variable {key k} {nodes : List (Tower α)}

theorem walk_zero (high : ∀ t ∈ nodes, 0 < t.height) :
    walk key k 0 nodes nodes = nodes.dropWhile (key ·.item < k) := by
  induction nodes with
  | nil => rfl
  | cons t rest ih =>
    rw [walk, if_pos (high t mem_cons_self), dropWhile_cons]
    by_cases below : key t.item < k
    · rw [if_pos below, if_pos (decide_eq_true below)]
      exact ih fun s mem => high s (mem_cons_of_mem _ mem)
    · rw [if_neg below, if_neg (by simpa using below)]

variable [LE κ] [Std.IsLinearOrder κ] [Std.LawfulOrderLT κ]

theorem walk_spec {i : ℕ} {passed scan : List (Tower α)} (ordered : Ordered key (passed ++ scan)) :
    ∃ front, passed ++ scan = front ++ walk key k i (passed ++ scan) scan ∧
      ∀ t ∈ front, key t.item < k := by
  induction scan generalizing passed with
  | nil => exact ⟨[], rfl, by simp⟩
  | cons t rest ih =>
    rw [walk]
    by_cases high : i < t.height
    · rw [if_pos high]
      by_cases below : key t.item < k
      · rw [if_pos below]
        obtain ⟨afterT, beforeT⟩ := (pairwise_append.mp ordered).2
        obtain ⟨front, split, lower⟩ :=
          @ih [] (pairwise_cons.mp afterT).2
        refine ⟨passed ++ t :: front, ?_, ?_⟩
        · rw [nil_append] at split
          rw [append_assoc, cons_append, ← split]
        · intro s mem
          rcases mem_append.mp mem with early | late
          · exact Std.lt_trans (beforeT s early t mem_cons_self) below
          · rcases mem_cons.mp late with rfl | later
            · exact below
            · exact lower s later
      · rw [if_neg below]
        exact ⟨[], rfl, by simp⟩
    · rw [if_neg high]
      rw [append_cons] at ordered ⊢
      exact ih ordered

/-- A search ends right before the first key that is not below the wanted one,
whatever the towers are. -/
theorem search_eq {level : ℕ} (ordered : Ordered key nodes)
    (high : ∀ t ∈ nodes, 0 < t.height) (positive : 0 < level) :
    search key k level nodes = nodes.dropWhile (key ·.item < k) := by
  induction level generalizing nodes with
  | zero => exact absurd positive (Nat.lt_irrefl 0)
  | succ i ih =>
    rw [search]
    cases i with
    | zero => exact walk_zero high
    | succ i =>
      obtain ⟨front, split, lower⟩ := @walk_spec _ _ _ _ key k _ _ _ (i + 1) [] nodes ordered
      rw [nil_append] at split
      have sub : ∀ t ∈ walk key k (i + 1) nodes nodes, t ∈ nodes := by
        intro t mem
        rw [split]
        exact mem_append_right _ mem
      have ordered' : Ordered key (walk key k (i + 1) nodes nodes) := by
        have all := ordered
        rw [split] at all
        exact (pairwise_append.mp all).2.1
      rw [ih ordered' (fun t mem => high t (sub t mem)) (Nat.succ_pos i)]
      conv_rhs => rw [split]
      rw [dropWhile_append_of_pos]
      exact fun t mem => decide_eq_true (lower t mem)

end Walks

end Tower

/-- Items in the order of their keys, in towers. -/
structure SkipList {α : Type u} {κ : Type v} [LT κ] (key : α → κ) where
  nodes : List (Tower α) := []
  /-- The number of levels that searches walk along. -/
  level : ℕ := 1
  ordered : Tower.Ordered key nodes := by exact List.Pairwise.nil
  high : ∀ t ∈ nodes, 0 < t.height := by exact fun _ mem => nomatch mem
  level_pos : 0 < level := by exact Nat.one_pos

namespace SkipList

variable {α : Type u} {κ : Type v} [LT κ] [DecidableLT κ] {key : α → κ}

/-- The nodes behind the last one with a lower key, as a search finds them. -/
def seek (sl : SkipList key) (k : κ) : List (Tower α) :=
  Tower.search key k sl.level sl.nodes

def items (sl : SkipList key) : List α :=
  sl.nodes.map Tower.item

section Seeking

variable [LE κ] [Std.IsLinearOrder κ] [Std.LawfulOrderLT κ]

theorem seek_eq (sl : SkipList key) (k : κ) : sl.seek k = sl.nodes.dropWhile (key ·.item < k) :=
  Tower.search_eq sl.ordered sl.high sl.level_pos

theorem take_eq_takeWhile (sl : SkipList key) (k : κ) :
    sl.nodes.take (sl.nodes.length - (sl.seek k).length) = sl.nodes.takeWhile (key ·.item < k) := by
  have split : sl.nodes.takeWhile (key ·.item < k) ++ sl.seek k = sl.nodes := by
    rw [seek_eq]
    exact takeWhile_append_dropWhile
  have length : sl.nodes.length - (sl.seek k).length
      = (sl.nodes.takeWhile (key ·.item < k)).length := by
    conv_lhs => rw [← split]
    rw [length_append, Nat.add_sub_cancel]
  rw [length]
  exact (congrArg (take _) split.symm).trans (take_left' rfl)

/-- A search splits the nodes into those with lower keys and the others. -/
theorem take_append_seek (sl : SkipList key) (k : κ) :
    sl.nodes.take (sl.nodes.length - (sl.seek k).length) ++ sl.seek k = sl.nodes := by
  rw [take_eq_takeWhile, seek_eq]
  exact takeWhile_append_dropWhile

theorem lower_of_mem_take {sl : SkipList key} {k : κ} {t : Tower α}
    (mem : t ∈ sl.nodes.take (sl.nodes.length - (sl.seek k).length)) : key t.item < k := by
  rw [take_eq_takeWhile] at mem
  have all := all_takeWhile (l := sl.nodes) (p := (key ·.item < k))
  exact of_decide_eq_true (all_eq_true.mp all t mem)

theorem ordered_seek (sl : SkipList key) (k : κ) : Tower.Ordered key (sl.seek k) := by
  have all := sl.ordered
  rw [← take_append_seek sl k] at all
  exact (pairwise_append.mp all).2.1

/-- The node a search ends at is not below the wanted key, and all others come later. -/
theorem not_lower_of_seek {sl : SkipList key} {k : κ} {t : Tower α} {rest : List (Tower α)}
    (found : sl.seek k = t :: rest) : ¬ key t.item < k ∧ ∀ s ∈ rest, key t.item < key s.item := by
  constructor
  · rw [seek_eq] at found
    have first := head?_dropWhile_not (key ·.item < k) sl.nodes
    rw [found] at first
    simpa using first
  · have all := ordered_seek sl k
    rw [found] at all
    exact (pairwise_cons.mp all).1

/-- A search leaves the nodes whose keys are not below the wanted one. -/
theorem mem_seek {sl : SkipList key} {k : κ} {t : Tower α} :
    t ∈ sl.seek k ↔ t ∈ sl.nodes ∧ ¬ key t.item < k := by
  constructor
  · intro mem
    refine ⟨?_, ?_⟩
    · rw [← take_append_seek sl k]
      exact mem_append_right _ mem
    · obtain ⟨first, rest, found⟩ := exists_cons_of_ne_nil (ne_nil_of_mem mem)
      obtain ⟨notLower, later⟩ := not_lower_of_seek found
      rw [found] at mem
      rcases mem_cons.mp mem with rfl | further
      · exact notLower
      · exact fun lower => notLower (Std.lt_trans (later t further) lower)
  · rintro ⟨mem, notLower⟩
    rw [← take_append_seek sl k] at mem
    rcases mem_append.mp mem with early | late
    · exact absurd (lower_of_mem_take early) notLower
    · exact late

end Seeking

variable [DecidableEq κ]

/-- The item of a key. -/
def get (sl : SkipList key) (k : κ) : Option α :=
  match sl.seek k with
  | t :: _ => if key t.item = k then some t.item else none
  | [] => none

/-- The item of a key is in the node where the search for the key ends. -/
theorem seek_of_get {sl : SkipList key} {k : κ} {a : α} (found : sl.get k = some a) :
    ∃ t rest, sl.seek k = t :: rest ∧ key t.item = k ∧ t.item = a := by
  unfold get at found
  cases behind : sl.seek k with
  | nil =>
    rw [behind] at found
    nomatch found
  | cons t rest =>
    rw [behind] at found
    dsimp only at found
    by_cases same : key t.item = k
    · rw [if_pos same, Option.some.injEq] at found
      exact ⟨t, rest, rfl, same, found⟩
    · rw [if_neg same] at found
      nomatch found

/-- Put an item where the search for its key ends: into the node that has the key, or
into a new node with a tower of the given height. -/
def place (sl : SkipList key) (item : α) (height : ℕ) : List (Tower α) :=
  let behind := sl.seek (key item)
  let front := sl.nodes.take (sl.nodes.length - behind.length)
  match behind with
  | t :: rest =>
    if key t.item = key item then front ++ { t with item := item } :: rest
    else front ++ { item := item, height := height } :: t :: rest
  | [] => front ++ [{ item := item, height := height }]

variable [LE κ] [Std.IsLinearOrder κ] [Std.LawfulOrderLT κ]

theorem get_eq_some_iff {sl : SkipList key} {k : κ} {a : α} :
    sl.get k = some a ↔ a ∈ sl.items ∧ key a = k := by
  have split := take_append_seek sl k
  constructor
  · intro found
    obtain ⟨t, rest, behind, same, rfl⟩ := seek_of_get found
    refine ⟨mem_map_of_mem ?_, same⟩
    rw [← split, behind]
    exact mem_append_cons_self
  · unfold get items
    rintro ⟨mem, same⟩
    obtain ⟨s, memNodes, rfl⟩ := mem_map.mp mem
    rw [← split] at memNodes
    -- a node with a lower key is another node
    rcases mem_append.mp memNodes with early | late
    · have lower := lower_of_mem_take early
      rw [same] at lower
      exact absurd lower Std.lt_irrefl
    · cases behind : sl.seek k with
      | nil =>
        rw [behind] at late
        nomatch late
      | cons t rest =>
        obtain ⟨notLower, later⟩ := not_lower_of_seek behind
        rw [behind] at late
        rcases mem_cons.mp late with rfl | further
        · exact if_pos same
        · have above := later s further
          rw [same] at above
          exact absurd above notLower

section

variable {height : ℕ} (sl : SkipList key) (item : α) (positive : 0 < height)

include sl item positive

/-- What `place` does: the new item stands between the lower and the higher keys, and
apart from it only a node with its key may have gone. -/
theorem place_spec :
    ∃ front rest tower, sl.place item height = front ++ tower :: rest ∧
      tower.item = item ∧ 0 < tower.height ∧
      (∀ t ∈ front, key t.item < key item) ∧ (∀ t ∈ rest, key item < key t.item) ∧
      (sl.nodes = front ++ rest ∨
        ∃ t, key t.item = key item ∧ sl.nodes = front ++ t :: rest) := by
  have split := take_append_seek sl (key item)
  refine ⟨sl.nodes.take (sl.nodes.length - (sl.seek (key item)).length), ?_⟩
  have lower := fun t mem => @lower_of_mem_take _ _ _ _ _ _ _ _ sl (key item) t mem
  unfold place
  cases behind : sl.seek (key item) with
  | nil =>
    rw [behind] at split lower
    refine ⟨[], { item := item, height := height }, rfl, rfl, positive, lower, by simp, .inl ?_⟩
    exact split.symm
  | cons t rest =>
    obtain ⟨notLower, later⟩ := not_lower_of_seek behind
    rw [behind] at split lower
    dsimp only
    by_cases same : key t.item = key item
    · rw [if_pos same]
      refine ⟨rest, { t with item := item }, rfl, rfl, ?_, lower, ?_, .inr ⟨t, same, split.symm⟩⟩
      · apply sl.high t
        rw [← split]
        exact mem_append_cons_self
      · intro s mem
        rw [← same]
        exact later s mem
    · rw [if_neg same]
      have above : key item < key t.item := by
        rcases Std.lt_trichotomy (key t.item) (key item) with below | equal | above
        · exact absurd below notLower
        · exact absurd equal same
        · exact above
      refine ⟨t :: rest, { item := item, height := height }, rfl, rfl, positive, lower, ?_,
        .inl split.symm⟩
      intro s mem
      rcases mem_cons.mp mem with rfl | further
      · exact above
      · exact Std.lt_trans above (later s further)

theorem ordered_place : Tower.Ordered key (sl.place item height) := by
  obtain ⟨front, rest, tower, placed, rfl, -, lower, higher, before⟩ :=
    place_spec sl item positive
  have sub : (front ++ rest).Sublist sl.nodes := by
    rcases before with same | ⟨t, -, same⟩
    · rw [same]
    · rw [same]
      exact Sublist.append_left (sublist_cons_self t rest) front
  obtain ⟨fronts, rests, -⟩ := pairwise_append.mp (sl.ordered.sublist sub)
  rw [placed]
  refine pairwise_append.mpr ⟨fronts, pairwise_cons.mpr ⟨higher, rests⟩, ?_⟩
  intro s early t late
  rcases mem_cons.mp late with rfl | further
  · exact lower s early
  · exact Std.lt_trans (lower s early) (higher t further)

theorem high_place : ∀ t ∈ sl.place item height, 0 < t.height := by
  obtain ⟨front, rest, tower, placed, -, tall, -, -, before⟩ := place_spec sl item positive
  have old : ∀ t ∈ front ++ rest, t ∈ sl.nodes := by
    intro t mem
    rcases before with same | ⟨_, -, same⟩
    · rw [same]
      exact mem
    · rw [same]
      exact (Sublist.append_left (sublist_cons_self _ rest) front).subset mem
  intro t mem
  rw [placed] at mem
  rcases mem_append.mp mem with early | late
  · exact sl.high t (old t (mem_append_left _ early))
  · rcases mem_cons.mp late with rfl | further
    · exact tall
    · exact sl.high t (old t (mem_append_right _ further))

end

/-- Put an item under its key; a new node may raise the number of levels. -/
def set (sl : SkipList key) (item : α) (height : ℕ) (positive : 0 < height) : SkipList key where
  nodes := sl.place item height
  level := if (sl.get (key item)).isSome then sl.level else max sl.level height
  ordered := sl.ordered_place item positive
  high := sl.high_place item positive
  level_pos := by
    have := sl.level_pos
    split <;> omega

theorem mem_items_set {sl : SkipList key} {item a : α} {height : ℕ} {positive : 0 < height} :
    a ∈ (sl.set item height positive).items ↔ a = item ∨ (a ∈ sl.items ∧ key a ≠ key item) := by
  obtain ⟨front, rest, tower, placed, rfl, -, lower, higher, before⟩ :=
    place_spec sl item positive
  have others : ∀ t ∈ front ++ rest, key t.item ≠ key tower.item := by
    intro t mem same
    rcases mem_append.mp mem with early | late
    · exact absurd (same ▸ lower t early) Std.lt_irrefl
    · exact absurd (same ▸ higher t late) Std.lt_irrefl
  have old : a ∈ (front ++ rest).map Tower.item ↔ a ∈ sl.items ∧ key a ≠ key tower.item := by
    unfold items
    constructor
    · intro mem
      obtain ⟨t, memT, rfl⟩ := mem_map.mp mem
      refine ⟨mem_map_of_mem ?_, others t memT⟩
      rcases before with same | ⟨s, -, same⟩
      · rw [same]
        exact memT
      · rw [same]
        exact (Sublist.append_left (sublist_cons_self s rest) front).subset memT
    · rintro ⟨mem, other⟩
      rcases before with same | ⟨s, sameKey, same⟩
      · rw [← same]
        exact mem
      · rw [same] at mem
        simp only [map_append, map_cons, mem_append, mem_cons] at mem ⊢
        rcases mem with early | rfl | late
        · exact .inl early
        · exact absurd sameKey other
        · exact .inr late
  rw [← old]
  simp only [items, set, placed, map_append, map_cons, mem_append, mem_cons]
  tauto

/-- A skip list is a map: setting an item changes the item of its key only. -/
theorem get_set (sl : SkipList key) (item : α) (height : ℕ) (positive : 0 < height) (k : κ) :
    (sl.set item height positive).get k = if k = key item then some item else sl.get k := by
  ext a
  rw [get_eq_some_iff, mem_items_set]
  by_cases same : k = key item
  · rw [if_pos same, Option.some.injEq]
    constructor
    · rintro ⟨rfl | ⟨-, other⟩, sameKey⟩
      · rfl
      · exact absurd (sameKey.trans same) other
    · rintro rfl
      exact ⟨.inl rfl, same.symm⟩
  · rw [if_neg same, get_eq_some_iff]
    constructor
    · rintro ⟨rfl | ⟨mem, -⟩, sameKey⟩
      · exact absurd sameKey.symm same
      · exact ⟨mem, sameKey⟩
    · rintro ⟨mem, sameKey⟩
      exact ⟨.inr ⟨mem, fun equal => same (sameKey.symm.trans equal)⟩, sameKey⟩

end SkipList

end Hermes
