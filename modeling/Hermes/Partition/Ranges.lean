import Hermes.Partition.Coverage

/-!
# Looking up ranges of keys

In a map whose shards follow each other without gaps, the shards that a range of keys meets
stand next to each other, from the one that contains the first key on.
-/

namespace Hermes.Partition

open List
open scoped ByteOrder

/-- The shards begin at a key, each ends where the next one begins, further on, and the last one
has no end. -/
def ContiguousFrom (startKey : Key) : List ShardDescriptor → Prop
  | [] => False
  | [s] => s.startKey = startKey ∧ s.endKey = []
  | s :: next :: rest =>
    s.startKey = startKey ∧ s.startKey < s.endKey ∧ ContiguousFrom s.endKey (next :: rest)

theorem ContiguousFrom.tiles {startKey : Key} {l : List ShardDescriptor}
    (contiguous : ContiguousFrom startKey l) :
    Tiling.Tiles (startKey : WithTop Key) (l.map ShardDescriptor.range) ⊤ ∧
      ∀ s ∈ l, (s.startKey : WithTop Key) < s.range.hi := by
  induction l generalizing startKey with
  | nil => nomatch contiguous
  | cons s rest ih =>
    cases rest with
    | nil =>
      obtain ⟨rfl, last⟩ := contiguous
      have ends : s.range.hi = ⊤ := if_pos last
      rw [forall_mem_singleton, map_singleton, Tiling.tiles_cons, ends]
      exact ⟨⟨rfl, le_top, rfl⟩, WithTop.coe_lt_top _⟩
    | cons next rest =>
      obtain ⟨rfl, less, contiguous⟩ := contiguous
      obtain ⟨tiles, nonempty⟩ := ih contiguous
      have ends : s.range.hi = s.endKey := if_neg fun empty => not_lt_nil _ (empty ▸ less)
      have less : (s.startKey : WithTop Key) < s.range.hi := ends ▸ WithTop.coe_lt_coe.mpr less
      rw [forall_mem_cons, map_cons, Tiling.tiles_cons]
      exact ⟨⟨rfl, less.le, ends ▸ tiles⟩, less, nonempty⟩

namespace ShardMap

variable {sm : ShardMap} {startKey endKey key : Key}

/-- The keys from one up to another, or without an end. -/
def InRange (startKey endKey key : Key) : Prop :=
  startKey ≤ key ∧ (endKey = [] ∨ key < endKey)

/-- The shards form a contiguous partition of the key space. -/
def Contiguous (sm : ShardMap) : Prop :=
  ContiguousFrom [] sm.descriptors

theorem Contiguous.nonempty (contiguous : sm.Contiguous) {p : Ref} (mem : p ∈ sm.shards) :
    ((sm.heap p).startKey : WithTop Key) < (sm.heap p).range.hi :=
  contiguous.tiles.2 _ (mem_map_of_mem mem)

theorem Contiguous.ascending (contiguous : sm.Contiguous) :
    sm.shards.Pairwise fun p q => (sm.heap p).startKey < (sm.heap q).startKey := by
  have pairwise := contiguous.tiles.1.pairwise
  rw [descriptors, map_map, pairwise_map] at pairwise
  apply pairwise.imp_of_mem
  rintro p q mem - (less | ⟨-, empty⟩)
  · exact less
  · exact absurd (contiguous.nonempty mem) empty.not_gt

/-- A range of keys is looked up from the shard that contains its first key on. -/
theorem Contiguous.lookupRange_eq (contiguous : sm.Contiguous) (startKey endKey : Key) :
    ∃ before found rest, sm.shards = before ++ (found ++ rest) ∧
      sm.lookupRange startKey endKey = .ok found ∧
      (∀ p ∈ before, (sm.heap p).range.hi ≤ startKey) ∧
      (∀ p ∈ found, (startKey : WithTop Key) < (sm.heap p).range.hi ∧
        ¬ (endKey ≠ [] ∧ endKey ≤ (sm.heap p).startKey)) ∧
      ∀ p ∈ rest, endKey ≠ [] ∧ endKey ≤ (sm.heap p).startKey := by
  have covers : sm.Covers := contiguous.tiles.1
  obtain ⟨before, p, after, shards, index, contains, low, high⟩ := covers.exists_indexOf startKey
  have ascending := contiguous.ascending
  rw [shards] at ascending
  obtain ⟨found, rest, split, inside, beyond⟩ := Slices.exists_split
    (p := fun q => endKey ≠ [] ∧ endKey ≤ (sm.heap q).startKey)
    (pairwise_append.mp ascending).2.1 fun _ _ less stops => ⟨stops.1, stops.2.trans less.le⟩
  refine ⟨before, found, rest, split ▸ shards, ?_, low, fun q mem => ⟨?_, inside q mem⟩, beyond⟩
  · have stops : rest.takeWhile
        (fun q => ¬ (endKey ≠ [] ∧ endKey ≤ (sm.heap q).startKey)) = [] := by
      cases rest with
      | nil => rfl
      | cons q rest => simp [beyond q mem_cons_self]
    rw [lookupRange, index, shards, if_neg (by simp), drop_left, split,
      takeWhile_append_of_pos (fun q mem => decide_eq_true (inside q mem)), stops,
      append_nil]
  · have mem : q ∈ p :: after := split ▸ mem_append_left rest mem
    rcases mem_cons.mp mem with rfl | later
    · exact contains.2
    · have known : q ∈ sm.shards := shards ▸ mem_append_right before mem
      exact (WithTop.coe_lt_coe.mpr (high q later)).trans (contiguous.nonempty known)

/-- `LookupRange` returns, in order, the shards that contain a key of the range. -/
theorem lookupRange_exact (contiguous : sm.Contiguous)
    (range : endKey = [] ∨ startKey < endKey) : ∃ result,
      sm.lookupRange startKey endKey = .ok result ∧ result.Sublist sm.shards ∧ result.Nodup ∧
      (∀ p, p ∈ result ↔ p ∈ sm.shards ∧
        ∃ key, InRange startKey endKey key ∧ (sm.heap p).containsKey key) ∧
      ∀ key, InRange startKey endKey key → ∃ p ∈ result, sm.lookup key = .ok p := by
  obtain ⟨before, found, rest, shards, eq, low, inside, beyond⟩ :=
    contiguous.lookupRange_eq startKey endKey
  have sublist : found.Sublist sm.shards := by
    rw [shards]
    exact (sublist_append_left found rest).trans (sublist_append_right before _)
  have distinct : sm.shards.Nodup := contiguous.ascending.imp fun less same => (same ▸ less).false
  have members : ∀ p, p ∈ found ↔ p ∈ sm.shards ∧
      ∃ key, InRange startKey endKey key ∧ (sm.heap p).containsKey key := by
    intro p
    simp only [ShardDescriptor.containsKey_iff]
    constructor
    · intro mem
      obtain ⟨reaches, begins⟩ := inside p mem
      refine ⟨sublist.subset mem, startKey ⊔ (sm.heap p).startKey, ⟨le_sup_left, ?_⟩,
        le_sup_right, ?_⟩
      · rw [not_and_or, not_not, not_le] at begins
        rcases range with empty | less
        · exact .inl empty
        · exact begins.imp_right (sup_lt_iff.mpr ⟨less, ·⟩)
      · rw [WithTop.coe_sup]
        exact sup_lt_iff.mpr ⟨reaches, contiguous.nonempty (sublist.subset mem)⟩
    · rintro ⟨mem, key, ⟨above, below⟩, contains⟩
      rw [shards, mem_append, mem_append] at mem
      rcases mem with early | here | late
      · have less := contains.2.trans_le (low p early)
        exact absurd above (WithTop.coe_lt_coe.mp less).not_ge
      · exact here
      · obtain ⟨ends, after⟩ := beyond p late
        exact absurd (below.resolve_left ends) (after.trans contains.1).not_gt
  refine ⟨found, eq, sublist, distinct.sublist sublist, members, fun key inRange => ?_⟩
  obtain ⟨p, only, lookup⟩ := Covers.partitionsKeySpace contiguous.tiles.1 key
  have mem : p ∈ sm.shards.filter fun p => (sm.heap p).containsKey key := by
    rw [only]
    exact mem_singleton_self p
  obtain ⟨known, contains⟩ := mem_filter.mp mem
  exact ⟨p, (members p).mpr ⟨known, key, inRange, contains⟩, lookup⟩

theorem lookupRange_exact_three : ∃ result,
    (({} : ShardMap).initializeShards 3 ["a"]).lookupRange [70] [100] = .ok result ∧
      ∀ p, p ∈ result ↔ p ∈ (({} : ShardMap).initializeShards 3 ["a"]).shards ∧
        ∃ key, InRange [70] [100] key ∧
          ((({} : ShardMap).initializeShards 3 ["a"]).heap p).containsKey key := by
  have contiguous : (({} : ShardMap).initializeShards 3 ["a"]).Contiguous :=
    ⟨rfl, by decide, rfl, by decide, rfl, rfl⟩
  obtain ⟨result, found, -, -, members, -⟩ := lookupRange_exact contiguous
    (show ([100] : Key) = [] ∨ [70] < [100] from .inr (by decide))
  exact ⟨result, found, members⟩

end ShardMap

end Hermes.Partition
