import Mathlib

/-!
# Merging states

Copies of a state that are merged pairwise, in any order and as often as one likes.  Merging
is a join if the copies can be ranked in a semilattice where it takes suprema.  Maps that
are merged entry by entry are such copies.
-/

namespace Hermes.Merge

open List Set

/-! ## Joins -/

section Joins

variable {S R L : Type*}

/-- What a replica holds that has merged the states of a set: it starts with one of them
and merges what others hold, each of which has merged some states before. -/
inductive Merged (merge : S → S → S) : Set S → S → Prop where
  | own (s : S) : Merged merge {s} s
  | merge {A B : Set S} {a b : S} (left : Merged merge A a) (right : Merged merge B b) :
    Merged merge (A ∪ B) (merge a b)

/-- On some states, merging is commutative, associative and idempotent as far as the view
of a state shows, and replicas that have merged the same states hold the same. -/
structure IsJoin (merge : S → S → S) (view : S → R) (states : Set S) : Prop where
  comm : ∀ a ∈ states, ∀ b ∈ states, view (merge a b) = view (merge b a)
  assoc : ∀ a ∈ states, ∀ b ∈ states, ∀ c ∈ states,
    view (merge (merge a b) c) = view (merge a (merge b c))
  idem : ∀ a ∈ states, view (merge a a) = view a
  converge : ∀ {A B : Set S} {a b : S}, Merged merge A a → Merged merge B b →
    A ⊆ states → B ⊆ states → Set.image view A = Set.image view B → view a = view b

variable {merge : S → S → S} {view : S → R} {rank : S → L}

theorem image_rank_eq (rank_eq : ∀ a b, view a = view b → rank a = rank b) {A B : Set S}
    (same : Set.image view A = Set.image view B) : Set.image rank A = Set.image rank B := by
  have into : ∀ {A B : Set S}, image view A = image view B →
      image rank A ⊆ image rank B := by
    rintro A B same _ ⟨a, mem, rfl⟩
    have seen : view a ∈ image view B := same ▸ mem_image_of_mem view mem
    obtain ⟨b, mem, eq⟩ := seen
    exact ⟨b, mem, rank_eq b a eq⟩
  exact Subset.antisymm (into same) (into same.symm)

variable [SemilatticeSup L]

/-- Where merging takes suprema, what has been merged has the least upper bound as its
rank. -/
theorem Merged.isLUB (rank_merge : ∀ a b, rank (merge a b) = rank a ⊔ rank b) {A : Set S}
    {a : S} (merged : Merged merge A a) : IsLUB (Set.image rank A) (rank a) := by
  induction merged with
  | own s =>
    rw [image_singleton]
    exact isLUB_singleton
  | merge _ _ left right =>
    rw [image_union, rank_merge]
    exact left.union right

/-- Merging is a join if it takes suprema of ranks, and the rank determines the view of
what has been merged. -/
theorem IsJoin.of_rank {states : Set S}
    (rank_merge : ∀ a b, rank (merge a b) = rank a ⊔ rank b)
    (rank_eq : ∀ a b, view a = view b → rank a = rank b)
    (view_eq : ∀ {A B : Set S} {a b : S}, Merged merge A a → Merged merge B b →
      A ⊆ states → B ⊆ states → rank a = rank b → view a = view b) :
    IsJoin merge view states := by
  have converge : ∀ {A B : Set S} {a b : S}, Merged merge A a → Merged merge B b →
      A ⊆ states → B ⊆ states → image view A = image view B → view a = view b := by
    intro A B a b left right inA inB same
    apply view_eq left right inA inB
    have bound := left.isLUB rank_merge
    rw [image_rank_eq rank_eq same] at bound
    exact bound.unique (right.isLUB rank_merge)
  constructor
  · intro a inA b inB
    apply converge (.merge (.own a) (.own b)) (.merge (.own b) (.own a))
    · simp [insert_subset_iff, inA, inB]
    · simp [insert_subset_iff, inA, inB]
    · rw [union_comm]
  · intro a inA b inB c inC
    apply converge (.merge (.merge (.own a) (.own b)) (.own c))
      (.merge (.own a) (.merge (.own b) (.own c)))
    · simp [insert_subset_iff, inA, inB, inC]
    · simp [insert_subset_iff, inA, inB, inC]
    · rw [union_assoc]
  · intro a inA
    apply converge (.merge (.own a) (.own a)) (.own a)
    · simp [inA]
    · simp [inA]
    · rw [union_self]
  · exact converge

/-- A loop that joins items into a state takes the supremum of what it starts with and of
what the items bring. -/
theorem foldl_le_iff {I J : Type*} {put : S → I → S} {brings : I → J} {weight : J → L}
    (joins : ∀ s i, rank (put s i) = rank s ⊔ weight (brings i)) (items : List I) (s : S) (x : L) :
    rank (items.foldl put s) ≤ x ↔ rank s ≤ x ∧ ∀ j ∈ items.map brings, weight j ≤ x := by
  induction items generalizing s with
  | nil => simp
  | cons i rest ih =>
    rw [foldl_cons, ih, joins, sup_le_iff, map_cons, forall_mem_cons, and_assoc]

theorem foldl_congr {I J : Type*} {put : S → I → S} {brings : I → J} (weight : J → L)
    (joins : ∀ s i, rank (put s i) = rank s ⊔ weight (brings i)) (s : S)
    {items others : List I} (same : ∀ j, j ∈ items.map brings ↔ j ∈ others.map brings) :
    rank (items.foldl put s) = rank (others.foldl put s) := by
  apply eq_of_forall_ge_iff
  intro x
  simp only [foldl_le_iff joins, same]

end Joins

/-! ## Maps -/

section Maps

variable {K V γ : Type*} [DecidableEq K]

/-- What is shown for a value that may be absent: absence is below all values. -/
def level (read : V → γ) : Option V → WithBot γ
  | none => ⊥
  | some v => (read v : WithBot γ)

variable {read : V → γ}

theorem level_eq_level_iff {a b : Option V} :
    level read a = level read b ↔ a.map read = b.map read := by
  cases a <;> cases b <;> simp [level]

/-- What a map shows at every key. -/
def shown (read : V → γ) (m : AList fun _ : K => V) : K → WithBot γ :=
  fun k => level read (m.lookup k)

theorem lookup_insert_ite (m : AList fun _ : K => V) (key k : K) (v : V) :
    (m.insert key v).lookup k = if k = key then some v else m.lookup k := by
  split
  · rename_i same
    rw [same, AList.lookup_insert]
  · rename_i different
    rw [AList.lookup_insert_ne different]

theorem shown_insert (read : V → γ) (m : AList fun _ : K => V) (key : K) (v : V) :
    shown read (m.insert key v) = Function.update (shown read m) key (read v) := by
  funext k
  rw [shown, lookup_insert_ite, Function.update_apply]
  split <;> rfl

/-- Two maps show the same if they have the same entries, as far as these are read. -/
theorem shown_eq_shown_iff {m m' : AList fun _ : K => V} :
    shown read m = shown read m' ↔
      (fun k => (m.lookup k).map read) = fun k => (m'.lookup k).map read := by
  simp only [funext_iff, shown, level_eq_level_iff]

variable [SemilatticeSup γ]

/-- A loop over the entries of a map that joins each entry into another map takes the
supremum of the two maps. -/
theorem shown_foldl
    {put : (AList fun _ : K => V) → (_ : K) × V → AList fun _ : K => V}
    (joins : ∀ m entry, shown read (put m entry) =
      Function.update (shown read m) entry.1 (shown read m entry.1 ⊔ read entry.2))
    (m other : AList fun _ : K => V) :
    shown read (other.entries.foldl put m) = shown read m ⊔ shown read other := by
  have loop : ∀ (entries : List ((_ : K) × V)), entries.NodupKeys →
      ∀ (m : AList fun _ : K => V) (k : K), shown read (entries.foldl put m) k =
        shown read m k ⊔ level read (entries.dlookup k) := by
    intro entries nodup
    induction entries with
    | nil =>
      intro m k
      exact (sup_bot_eq _).symm
    | cons entry rest ih =>
      intro m k
      rw [nodupKeys_cons] at nodup
      rw [foldl_cons, ih nodup.2, joins, Function.update_apply]
      by_cases here : k = entry.1
      · subst here
        rw [if_pos rfl, dlookup_cons_eq, dlookup_eq_none.mpr nodup.1]
        exact sup_bot_eq _
      · rw [if_neg here, dlookup_cons_ne _ _ here]
  funext k
  exact loop other.entries other.nodupKeys m k

end Maps

end Hermes.Merge
