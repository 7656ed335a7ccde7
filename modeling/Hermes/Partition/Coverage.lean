import Hermes.Data.Except
import Hermes.Data.Tiling
import Hermes.Partition.Shard

/-!
# The shards and the key space

In the order of the slice the shards of a map tile the key space, as long as no call
mistakes an empty key for the other end of the key space, merges a shard whose ID another
one has as well, or leaves an empty shard behind another one that starts at the same key.
-/

namespace Hermes.Partition

open AList Function List ShardDescriptor
open scoped ByteOrder
open Tiling (Tile Tiles)

namespace ShardDescriptor

variable {s : ShardDescriptor} {key : Key}

/-- The keys of a shard. -/
def range (s : ShardDescriptor) : Tile Key where
  lo := s.startKey
  hi := if s.endKey = [] then ⊤ else s.endKey

theorem containsKey_iff : s.containsKey key = true ↔ s.range.Contains key := by
  have starts : ¬ (s.startKey ≠ [] ∧ key < s.startKey) ↔ s.startKey ≤ key := by
    by_cases empty : s.startKey = []
    · simp [empty]
    · simp [empty]
  have ends : ¬ (s.endKey ≠ [] ∧ s.endKey ≤ key) ↔ (key : WithTop Key) < s.range.hi := by
    rw [range]
    by_cases unbounded : s.endKey = []
    · simp [unbounded]
    · simp [unbounded]
  rw [Tile.Contains, ← ends, range, containsKey]
  split
  · simp_all
  · split
    · simp_all
    · simp_all

/-- A shard without any key. -/
def IsEmpty (s : ShardDescriptor) : Prop :=
  s.startKey ≠ [] ∧ s.endKey = s.startKey
  deriving Decidable

theorem isEmpty_iff : s.IsEmpty ↔ s.range.Empty := by
  rw [IsEmpty, Tile.Empty, range]
  by_cases unbounded : s.endKey = []
  · simp [unbounded]
  · simp only [unbounded, if_false, WithTop.coe_inj, and_iff_right_iff_imp]
    exact fun same => same ▸ unbounded

end ShardDescriptor

namespace ShardMap

variable {sm : ShardMap} {sorter : Slices.Sorter Ref Key}

/-- Every key is in one shard, which looking it up returns. -/
def PartitionsKeySpace (sm : ShardMap) : Prop :=
  ∀ key, ∃ p, sm.shards.filter (fun p => (sm.heap p).containsKey key) = [p] ∧
    sm.lookup key = .ok p

/-- What the pointers of the slice point to. -/
def descriptors (sm : ShardMap) : List ShardDescriptor :=
  sm.shards.map sm.heap

/-- The ranges of the shards tile the key space. -/
def Covers (sm : ShardMap) : Prop :=
  Tiles (([] : Key) : WithTop Key) (sm.descriptors.map ShardDescriptor.range) ⊤

variable {before after : List Ref} {p : Ref}

theorem indexOf_eq {key : Key} (shards : sm.shards = before ++ p :: after)
    (low : ∀ q ∈ before ++ [p], (sm.heap q).startKey ≤ key)
    (high : ∀ q ∈ after, key < (sm.heap q).startKey) : sm.indexOf key = before.length := by
  rw [append_cons] at shards
  rw [indexOf, shards, Slices.search_append, length_append, length_singleton,
    Nat.add_sub_cancel]
  · exact fun q early => decide_eq_false (low q early).not_gt
  · exact fun q late => decide_eq_true (high q late)

/-- The shard at the index of a key contains it. -/
theorem Covers.exists_indexOf (covers : sm.Covers) (key : Key) : ∃ before p after,
    sm.shards = before ++ p :: after ∧ sm.indexOf key = before.length ∧
      (sm.heap p).range.Contains key ∧ (∀ q ∈ before, (sm.heap q).range.hi ≤ key) ∧
      ∀ q ∈ after, key < (sm.heap q).startKey := by
  rw [Covers, descriptors, map_map] at covers
  obtain ⟨before, p, after, shards, contains, low, high⟩ :=
    covers.exists_contains (WithTop.coe_le_coe.mpr (nil_le key)) (WithTop.coe_lt_top key)
  refine ⟨before, p, after, shards, ?_, contains, fun q early => (low q early).2, high⟩
  apply indexOf_eq shards _ high
  rw [forall_mem_append, forall_mem_singleton]
  exact ⟨fun q early => (low q early).1, contains.1⟩

theorem Covers.partitionsKeySpace (covers : sm.Covers) : sm.PartitionsKeySpace := by
  intro key
  obtain ⟨before, p, after, shards, index, contains, low, high⟩ := covers.exists_indexOf key
  have contained := containsKey_iff.mpr contains
  refine ⟨p, ?_, ?_⟩
  · have front : before.filter (fun p => (sm.heap p).containsKey key) = [] := by
      rw [filter_eq_nil_iff]
      intro q early holds
      exact (containsKey_iff.mp holds).2.not_ge (low q early)
    have back : after.filter (fun p => (sm.heap p).containsKey key) = [] := by
      rw [filter_eq_nil_iff]
      intro q late holds
      exact (containsKey_iff.mp holds).1.not_gt (high q late)
    rw [shards, filter_append, front, filter_cons, if_pos contained, back]
    rfl
  · rw [lookup, index, shards]
    simp [contained]

/-! ## The pointers -/

/-- The slice holds different pointers that have been given out, and the map by IDs leads to
pointers of the slice. -/
structure WellFormed (sm : ShardMap) : Prop where
  nodup : sm.shards.Nodup
  allocated : ∀ p ∈ sm.shards, p < sm.next
  byID : ∀ {shardID p}, sm.shardsByID.lookup shardID = some p →
    p ∈ sm.shards ∧ (sm.heap p).shardID = shardID

theorem heap_write_of_ne {p q : Ref} (other : q ≠ p) (shard : ShardDescriptor) :
    (sm.write p shard).heap q = sm.heap q :=
  update_of_ne other _ _

variable {shard : ShardDescriptor}

/-- Writing keeps the IDs of all shards. -/
theorem shardID_write (same : shard.shardID = (sm.heap p).shardID) (q : Ref) :
    ((sm.write p shard).heap q).shardID = (sm.heap q).shardID := by
  rcases eq_or_ne q p with rfl | other
  · simp [write, same]
  · rw [heap_write_of_ne other]

section

variable (wellFormed : sm.WellFormed)

include wellFormed

theorem WellFormed.write (same : shard.shardID = (sm.heap p).shardID) :
    (sm.write p shard).WellFormed where
  __ := wellFormed
  byID found := by
    rw [shardID_write same]
    exact wellFormed.byID found

theorem WellFormed.add (shard : ShardDescriptor) : (sm.add shard).WellFormed where
  nodup := by
    apply Nodup.append wellFormed.nodup (nodup_singleton _)
    rw [disjoint_singleton]
    exact fun mem => (wellFormed.allocated _ mem).false
  allocated p mem := by
    rcases mem_append.mp mem with old | new
    · exact (wellFormed.allocated p old).trans (Nat.lt_succ_self _)
    · rw [mem_singleton.mp new]
      exact Nat.lt_succ_self _
  byID {shardID p} found := by
    rcases eq_or_ne shardID shard.shardID with rfl | other
    · rw [ShardMap.add, lookup_insert] at found
      cases found
      simp [ShardMap.add]
    · rw [ShardMap.add, lookup_insert_ne other] at found
      obtain ⟨mem, id⟩ := wellFormed.byID found
      have old : p ≠ sm.next := (wellFormed.allocated p mem).ne
      simp [ShardMap.add, mem, old, id]

theorem WellFormed.sortShards (sorter : Slices.Sorter Ref Key) :
    (sm.sortShards sorter).WellFormed where
  nodup := (sorter.perm _ _).nodup_iff.mpr wellFormed.nodup
  allocated p mem := wellFormed.allocated p (sorter.mem_sort.mp mem)
  byID found := (wellFormed.byID found).imp_left sorter.mem_sort.mpr

theorem WellFormed.merged (p₁ p₂ : Ref) (shard2ID : ShardID) :
    (sm.merged p₁ p₂ shard2ID).WellFormed where
  nodup := wellFormed.nodup.filter _
  allocated p mem := wellFormed.allocated p (mem_of_mem_filter mem)
  byID {shardID p} found := by
    have other : shardID ≠ shard2ID := by
      rintro rfl
      rw [ShardMap.merged, lookup_erase] at found
      nomatch found
    rw [ShardMap.merged, lookup_erase_ne other] at found
    have written : (sm.write p₁ ((sm.heap p₁).endingAt (sm.heap p₂).endKey)).WellFormed :=
      wellFormed.write rfl
    obtain ⟨mem, id⟩ := written.byID found
    refine ⟨mem_filter.mpr ⟨mem, ?_⟩, id⟩
    rw [id]
    exact decide_eq_true other

theorem WellFormed.descriptors_add (shard : ShardDescriptor) :
    (sm.add shard).descriptors = sm.descriptors ++ [shard] := by
  have old : sm.shards.map (sm.add shard).heap = sm.descriptors := by
    apply map_congr_left
    intro p mem
    exact update_of_ne (wellFormed.allocated p mem).ne _ _
  rw [← old]
  simp [descriptors, ShardMap.add]

end

/-- Writing replaces one descriptor. -/
theorem map_heap_write (nodup : (before ++ p :: after).Nodup) :
    (before ++ p :: after).map (sm.write p shard).heap =
      before.map sm.heap ++ shard :: after.map sm.heap := by
  rw [nodup_middle, nodup_cons, mem_append, not_or] at nodup
  have others {l : List Ref} (other : p ∉ l) : l.map (sm.write p shard).heap = l.map sm.heap := by
    apply map_congr_left
    intro q mem
    exact heap_write_of_ne (ne_of_mem_of_not_mem mem other) shard
  have here : (sm.write p shard).heap p = shard := update_self _ _ _
  rw [map_append, map_cons, others nodup.1.1, others nodup.1.2, here]

/-! ## Initial shards -/

theorem getD_computeSplitPoints (n i : ℕ) : ((computeSplitPoints n)[i]?).getD [] =
    if i + 1 < n then [UInt8.ofNat (33 + 93 * (i + 1) / n)] else [] := by
  rw [computeSplitPoints]
  split
  · rw [if_neg (by omega)]
    rfl
  · split
    · rw [getElem?_map, getElem?_range (by omega)]
      rfl
    · rw [getElem?_eq_none (by rw [length_map, length_range]; omega)]
      rfl

/-- Where the initial shards meet. -/
def boundary (n i : ℕ) : WithTop Key :=
  if i = 0 then ([] : Key)
  else if i < n then ([UInt8.ofNat (33 + 93 * i / n)] : Key)
  else ⊤

theorem boundary_le_succ (n i : ℕ) : boundary n i ≤ boundary n (i + 1) := by
  rcases lt_or_ge (i + 1) n with inside | last
  · rw [boundary, boundary, if_neg i.succ_ne_zero]
    split
    · exact WithTop.coe_le_coe.mpr (nil_le _)
    · rw [if_pos (Nat.lt_of_succ_lt inside), WithTop.coe_le_coe]
      have ascending : 33 + 93 * i / n ≤ 33 + 93 * (i + 1) / n :=
        Nat.add_le_add_left (Nat.div_le_div_right (Nat.mul_le_mul_left 93 (Nat.le_succ i))) 33
      have small : 33 + 93 * (i + 1) / n < 256 := by
        have := Nat.div_le_of_le_mul (show 93 * (i + 1) ≤ n * 93 by omega)
        omega
      rw [cons_le_cons_iff]
      rcases ascending.lt_or_eq with less | same
      · exact .inl ((UInt8.ofNat_lt_iff_lt (ascending.trans_lt small) small).mpr less)
      · exact .inr ⟨congrArg UInt8.ofNat same, le_rfl⟩
  · rw [boundary.eq_def n (i + 1), if_neg last.not_gt]
    exact le_top

theorem range_initialShard {n i : ℕ} (nodes : List String) (less : i < n) :
    ((initialShard n nodes i).range.lo : WithTop Key) = boundary n i ∧
      (initialShard n nodes i).range.hi = boundary n (i + 1) := by
  constructor
  · rw [boundary, initialShard, ShardDescriptor.range]
    rcases i.eq_zero_or_pos with rfl | pos
    · rfl
    · rw [if_pos pos, getD_computeSplitPoints, Nat.sub_add_cancel pos, if_pos less,
        if_neg pos.ne', if_pos less]
  · rw [boundary, initialShard, ShardDescriptor.range]
    simp only [getD_computeSplitPoints]
    by_cases inside : i + 1 < n
    · simp [inside]
    · simp [inside]

theorem descriptors_initializeShards (sm : ShardMap) (n : ℕ) (nodes : List String) :
    (sm.initializeShards n nodes).WellFormed ∧
      (sm.initializeShards n nodes).descriptors = (List.range n).map (initialShard n nodes) := by
  -- The loop appends the shards one after the other.
  suffices loop : ∀ k sm', sm' = (List.range k).foldl
      (fun sm i => sm.add (initialShard n nodes i)) { sm with shards := [], shardsByID := ∅ } →
      sm'.WellFormed ∧ sm'.descriptors = (List.range k).map (initialShard n nodes) by
    obtain ⟨wellFormed, descriptors⟩ := loop n _ rfl
    exact ⟨{ wellFormed with }, descriptors⟩
  intro k
  induction k with
  | zero =>
    rintro sm' rfl
    exact ⟨⟨nodup_nil, nofun, nofun⟩, rfl⟩
  | succ k ih =>
    rintro sm' rfl
    obtain ⟨wellFormed, descriptors⟩ := ih _ rfl
    rw [range_succ, foldl_append, map_append, ← descriptors]
    exact ⟨wellFormed.add _, wellFormed.descriptors_add _⟩

theorem covers_initializeShards (sm : ShardMap) {n : ℕ} (pos : 1 ≤ n) (nodes : List String) :
    (sm.initializeShards n nodes).Covers := by
  have tiles := Tiling.tiles_range (fun i less => (range_initialShard nodes less).1)
    (fun i less => (range_initialShard nodes less).2) fun i _ => boundary_le_succ n i
  rw [Covers, (descriptors_initializeShards sm n nodes).2, map_map]
  have last : boundary n n = ⊤ := by
    rw [boundary, if_neg (Nat.pos_iff_ne_zero.mp pos), if_neg (lt_irrefl n)]
  rw [last] at tiles
  exact tiles

/-! ## The calls -/

/-- Of two shards in the slice with the same start key the first one is empty. -/
def EmptyFirst (sm : ShardMap) : Prop :=
  sm.shards.Pairwise fun p q => (sm.heap p).startKey = (sm.heap q).startKey → (sm.heap p).IsEmpty
  deriving Decidable

theorem range_write (same : shard.range = (sm.heap p).range)
    (q : Ref) : ((sm.write p shard).heap q).range = (sm.heap q).range := by
  rcases eq_or_ne q p with rfl | other
  · simp [write, same]
  · rw [heap_write_of_ne other]

theorem Covers.write (covers : sm.Covers)
    (same : shard.range = (sm.heap p).range) : (sm.write p shard).Covers := by
  rw [Covers, descriptors, map_map] at covers ⊢
  have ranges : ShardDescriptor.range ∘ (sm.write p shard).heap =
      ShardDescriptor.range ∘ sm.heap := funext (range_write same)
  rw [ranges]
  exact covers

variable {splitKey : Key} {newGroupID : RaftGroupID} {newReplicas : List ReplicaDescriptor}

theorem WellFormed.descriptors_cut (wellFormed : sm.WellFormed)
    (shards : sm.shards = before ++ p :: after) :
    (sm.cut p splitKey newGroupID newReplicas).descriptors =
      before.map sm.heap ++ (sm.heap p).endingAt splitKey :: after.map sm.heap ++
        [sm.newShard (sm.heap p) splitKey newGroupID newReplicas] := by
  have written : (sm.write p ((sm.heap p).endingAt splitKey)).descriptors =
      before.map sm.heap ++ (sm.heap p).endingAt splitKey :: after.map sm.heap := by
    rw [← map_heap_write (shards ▸ wellFormed.nodup), ← shards]
    rfl
  rw [ShardMap.cut, WellFormed.descriptors_add (wellFormed.write (by rfl)), written]

theorem Covers.cut (covers : sm.Covers) (wellFormed : sm.WellFormed) (mem : p ∈ sm.shards)
    (contains : (sm.heap p).containsKey splitKey) (nonempty : splitKey ≠ [])
    (emptyFirst : ((sm.cut p splitKey newGroupID newReplicas).sortShards sorter).EmptyFirst) :
    ((sm.cut p splitKey newGroupID newReplicas).sortShards sorter).Covers := by
  obtain ⟨before, after, shards⟩ := append_of_mem mem
  rw [Covers, descriptors, shards, map_append, map_append] at covers
  have tiles := covers.cut (containsKey_iff.mp contains)
  have ends : ((sm.heap p).endingAt splitKey).range = ⟨(sm.heap p).range.lo, splitKey⟩ := by
    simp [ShardDescriptor.range, ShardDescriptor.endingAt, nonempty]
  have begins : (sm.newShard (sm.heap p) splitKey newGroupID newReplicas).range =
      ⟨splitKey, (sm.heap p).range.hi⟩ := rfl
  rw [← ends, ← begins, ← map_cons, ← map_cons, ← map_append] at tiles
  set sm' := sm.cut p splitKey newGroupID newReplicas with cut
  have sorted : ((sm'.sortShards sorter).descriptors.map ShardDescriptor.range).Pairwise
      Tiling.Before := by
    rw [descriptors, map_map, pairwise_map]
    apply ((sorter.sorted (fun p => (sm'.heap p).startKey) sm'.shards).and emptyFirst).imp
    rintro p q ⟨le, empty⟩
    rcases le.lt_or_eq with less | same
    · exact .inl less
    · exact .inr ⟨same, ShardDescriptor.isEmpty_iff.mp (empty same)⟩
  have perm : ((sm'.sortShards sorter).descriptors.map ShardDescriptor.range).Perm
      ((before.map sm.heap ++ (sm.heap p).endingAt splitKey ::
        sm.newShard (sm.heap p) splitKey newGroupID newReplicas ::
          after.map sm.heap).map ShardDescriptor.range) := by
    apply Perm.map
    apply ((sorter.perm (fun p => (sm'.heap p).startKey) sm'.shards).map sm'.heap).trans
    rw [← descriptors, wellFormed.descriptors_cut shards, append_assoc]
    apply Perm.append_left
    exact (perm_append_singleton _ _).cons _
  rw [Covers, tiles.eq_of_perm perm sorted]
  exact tiles

/-- Two shards that can be merged: the second one does not begin the key space, no other shard
with its ID has any keys, and if it has keys itself, then no other shard that stays stands
between them. -/
@[mk_iff]
structure Mergeable (sm : ShardMap) (p₁ p₂ : Ref) : Prop where
  starts : (sm.heap p₂).startKey ≠ []
  alone : ∀ p ∈ sm.shards, (sm.heap p).shardID = (sm.heap p₂).shardID → p ≠ p₂ →
    (sm.heap p).IsEmpty
  nextTo : (sm.heap p₂).IsEmpty ∨ ∀ p ∈ sm.shards, [p₁, p, p₂].Sublist sm.shards →
    (sm.heap p).shardID = (sm.heap p₂).shardID

variable {p₁ p₂ : Ref}

instance (p₁ p₂ : Ref) : Decidable (sm.Mergeable p₁ p₂) :=
  decidable_of_iff _ (mergeable_iff ..).symm

/-- A removed shard is empty, except the second one of a merge. -/
theorem Mergeable.isEmpty (mergeable : sm.Mergeable p₁ p₂) (mem : p ∈ sm.shards)
    (other : p ≠ p₂) (same : shard.shardID = (sm.heap p₁).shardID)
    (removed : decide (((sm.write p₁ shard).heap p).shardID ≠ (sm.heap p₂).shardID) = false) :
    (sm.heap p).IsEmpty := by
  rw [shardID_write same, decide_eq_false_iff_not, not_not] at removed
  exact mergeable.alone p mem removed other

variable {before between after : List Ref}

theorem Mergeable.shards_merged (mergeable : sm.Mergeable p₁ p₂)
    (nonempty : ¬ (sm.heap p₂).IsEmpty)
    (shards : sm.shards = before ++ p₁ :: (between ++ p₂ :: after)) :
    (sm.merged p₁ p₂ (sm.heap p₂).shardID).shards = (before ++ p₁ :: after).filter fun p =>
      ((sm.write p₁ ((sm.heap p₁).endingAt (sm.heap p₂).endKey)).heap p).shardID ≠
        (sm.heap p₂).shardID := by
  have gone : ∀ q ∈ between, (sm.heap q).shardID = (sm.heap p₂).shardID := by
    intro q mem
    have sublist : [p₁, q, p₂].Sublist sm.shards := by
      rw [shards]
      apply Sublist.trans _ (sublist_append_right before _)
      apply Sublist.cons_cons
      exact (singleton_sublist.mpr mem).append (singleton_sublist.mpr mem_cons_self)
    exact mergeable.nextTo.resolve_left nonempty q (sublist.subset (by simp)) sublist
  have removed : between.filter (fun p => !decide ((sm.heap p).shardID = (sm.heap p₂).shardID)) =
      [] := by
    rw [filter_eq_nil_iff]
    intro q mem
    simp [gone q mem]
  rw [merged]
  simp only [shardID_write (show ((sm.heap p₁).endingAt (sm.heap p₂).endKey).shardID = _ by rfl)]
  rw [show (sm.write p₁ _).shards = _ from shards]
  simp [filter_cons, removed]

/-- The first shard, up to the end of the second one, takes the place of both and of all
between them. -/
theorem Covers.tiles_joined (covers : sm.Covers)
    (shards : sm.shards = before ++ p₁ :: (between ++ p₂ :: after))
    (nodup : (before ++ p₁ :: after).Nodup) :
    Tiles (([] : Key) : WithTop Key) ((before ++ p₁ :: after).map (ShardDescriptor.range ∘
      (sm.write p₁ ((sm.heap p₁).endingAt (sm.heap p₂).endKey)).heap)) ⊤ := by
  rw [← map_map, map_heap_write nodup]
  rw [Covers, descriptors, shards] at covers
  simp only [map_append, map_cons] at covers ⊢
  exact covers.join

section

variable (covers : sm.Covers) (adjacent : (sm.heap p₁).endKey = (sm.heap p₂).startKey)
  (mergeable : sm.Mergeable p₁ p₂)

include covers adjacent mergeable

/-- In a tiling two different shards of which the first ends where the second starts are in
this order, unless the second one is empty. -/
theorem Covers.exists_between (mem₁ : p₁ ∈ sm.shards) (mem₂ : p₂ ∈ sm.shards)
    (nonempty : ¬ (sm.heap p₂).IsEmpty) :
    ∃ before between after, sm.shards = before ++ p₁ :: (between ++ p₂ :: after) := by
  have ends : (sm.heap p₁).range.hi = (sm.heap p₂).range.lo := by
    rw [ShardDescriptor.range, adjacent, if_neg mergeable.starts]
    rfl
  obtain ⟨before, rest, shards⟩ := append_of_mem mem₁
  rw [shards, mem_append, mem_cons] at mem₂
  rcases mem₂ with early | rfl | late
  · rw [Covers, descriptors, map_map] at covers
    have le := (covers.bounds (mem_map_of_mem mem₁)).2
    have pairwise := covers.pairwise
    rw [shards, pairwise_map, pairwise_append] at pairwise
    rw [comp_apply, ends, WithTop.coe_le_coe] at le
    rcases pairwise.2.2 p₂ early p₁ mem_cons_self with less | ⟨-, empty⟩
    · exact absurd less le.not_gt
    · exact absurd (ShardDescriptor.isEmpty_iff.mpr empty) nonempty
  · exact absurd ⟨mergeable.starts, adjacent⟩ nonempty
  · obtain ⟨between, after, rfl⟩ := append_of_mem late
    exact ⟨before, between, after, shards⟩

/-- If the second shard is empty, the range of the first one does not change, and only empty
shards are removed. -/
theorem Covers.merged_of_isEmpty (empty : (sm.heap p₂).IsEmpty) :
    (sm.merged p₁ p₂ (sm.heap p₂).shardID).Covers := by
  have same : ((sm.heap p₁).endingAt (sm.heap p₂).endKey).range = (sm.heap p₁).range := by
    rw [empty.2, ← adjacent]
    rfl
  have covers' := covers.write same
  rw [Covers, descriptors, map_map] at covers' ⊢
  apply covers'.filter
  intro q mem removed
  rw [comp_apply, range_write same, ← ShardDescriptor.isEmpty_iff]
  rcases eq_or_ne q p₂ with rfl | other
  · exact empty
  · exact mergeable.isEmpty mem other (by rfl) removed

theorem Covers.merged (wellFormed : sm.WellFormed) (mem₁ : p₁ ∈ sm.shards) (mem₂ : p₂ ∈ sm.shards)
    (different : p₁ ≠ p₂ → (sm.heap p₁).shardID ≠ (sm.heap p₂).shardID) :
    (sm.merged p₁ p₂ (sm.heap p₂).shardID).Covers := by
  by_cases empty : (sm.heap p₂).IsEmpty
  · exact covers.merged_of_isEmpty adjacent mergeable empty
  · obtain ⟨before, between, after, shards⟩ :=
      covers.exists_between adjacent mergeable mem₁ mem₂ empty
    have rest : (before ++ p₁ :: after).Sublist (before ++ p₁ :: (between ++ after)) :=
      ((sublist_append_right between after).cons_cons p₁).append_left before
    have nodup := wellFormed.nodup
    rw [shards, ← cons_append, ← append_assoc, nodup_middle, nodup_cons,
      append_assoc] at nodup
    rw [Covers, descriptors, map_map, mergeable.shards_merged empty shards]
    apply (covers.tiles_joined shards (nodup.2.sublist rest)).filter
    intro q mem removed
    have apart : q ≠ p₂ := by
      rintro rfl
      exact nodup.1 (rest.subset mem)
    have old : q ∈ sm.shards := by
      rw [shards]
      simp only [mem_append, mem_cons] at mem ⊢
      tauto
    have isEmpty := mergeable.isEmpty old apart (by rfl) removed
    have unwritten : q ≠ p₁ := by
      rintro rfl
      rw [shardID_write (by rfl), decide_eq_false_iff_not, not_not] at removed
      exact different apart removed
    rw [comp_apply, heap_write_of_ne unwritten]
    exact ShardDescriptor.isEmpty_iff.mp isEmpty

end

/-! ## Runs -/

/-- A call that keeps every key in one shard. -/
def Orderly (sorter : Slices.Sorter Ref Key) (sm : ShardMap) : Call → Prop
  | .split shardID splitKey newGroupID newReplicas =>
    splitKey ≠ [] ∧ ∀ p ∈ sm.shardsByID.lookup shardID,
      ((sm.cut p splitKey newGroupID newReplicas).sortShards sorter).EmptyFirst
  | .merge shard1ID shard2ID =>
    ∀ p₁ ∈ sm.shardsByID.lookup shard1ID, ∀ p₂ ∈ sm.shardsByID.lookup shard2ID,
      sm.Mergeable p₁ p₂
  | .updateLeader _ _ => True

instance : DecidablePred (Orderly sorter sm) := by
  rintro ⟨⟩ <;> delta Orderly <;> infer_instance

theorem split_eq_ok {shardID : ShardID} {result : ShardMap × Ref × Ref}
    (ok : sm.split sorter shardID splitKey newGroupID newReplicas = .ok result) :
    ∃ p, sm.shardsByID.lookup shardID = some p ∧ (sm.heap p).containsKey splitKey ∧
      ∃ version, result.1 = { (sm.cut p splitKey newGroupID newReplicas).sortShards sorter with
        version := version } := by
  rw [split] at ok
  cases found : sm.shardsByID.lookup shardID with
  | none =>
    rw [found] at ok
    nomatch ok
  | some p =>
    rw [found] at ok
    dsimp only at ok
    split at ok
    · nomatch ok
    · rename_i contains
      cases ok
      exact ⟨p, rfl, not_not.mp contains, _, rfl⟩

theorem merge_eq_ok {shard1ID shard2ID : ShardID} {result : ShardMap × Ref}
    (ok : sm.merge shard1ID shard2ID = .ok result) :
    ∃ p₁ p₂, sm.shardsByID.lookup shard1ID = some p₁ ∧ sm.shardsByID.lookup shard2ID = some p₂ ∧
      (sm.heap p₁).endKey = (sm.heap p₂).startKey ∧ result.1 = sm.merged p₁ p₂ shard2ID := by
  rw [merge] at ok
  split at ok
  · rename_i p₁ p₂ found₁ found₂
    split at ok
    · nomatch ok
    · rename_i adjacent
      cases ok
      exact ⟨p₁, p₂, found₁, found₂, not_not.mp adjacent, rfl⟩
  · nomatch ok

theorem covers_step {sm' : ShardMap} {call : Call} (inv : sm.WellFormed ∧ sm.Covers)
    (orderly : sm.Orderly sorter call) (happens : step sorter sm call = some sm') :
    sm'.WellFormed ∧ sm'.Covers := by
  obtain ⟨wellFormed, covers⟩ := inv
  cases call with
  | split shardID splitKey newGroupID newReplicas =>
    obtain ⟨⟨_, _⟩, ok, rfl⟩ := Option.map_eq_some_iff.mp happens
    obtain ⟨p, found, contains, version, rfl⟩ := split_eq_ok (toOption_eq_some.mp ok)
    have written : (sm.write p ((sm.heap p).endingAt splitKey)).WellFormed :=
      wellFormed.write rfl
    have sorted := (written.add
      (sm.newShard (sm.heap p) splitKey newGroupID newReplicas)).sortShards sorter
    refine ⟨{ sorted with }, ?_⟩
    exact covers.cut wellFormed (wellFormed.byID found).1 contains orderly.1
      (orderly.2 p found)
  | merge shard1ID shard2ID =>
    obtain ⟨⟨_, _⟩, ok, rfl⟩ := Option.map_eq_some_iff.mp happens
    obtain ⟨p₁, p₂, found₁, found₂, adjacent, rfl⟩ := merge_eq_ok (toOption_eq_some.mp ok)
    refine ⟨wellFormed.merged p₁ p₂ shard2ID, ?_⟩
    obtain ⟨mem₁, id₁⟩ := wellFormed.byID found₁
    obtain ⟨mem₂, rfl⟩ := wellFormed.byID found₂
    apply covers.merged adjacent (orderly p₁ found₁ p₂ found₂) wellFormed mem₁ mem₂
    intro different same
    rw [← id₁, same, found₂] at found₁
    exact different (Option.some.inj found₁).symm
  | updateLeader shardID leaderNodeID =>
    cases happens
    rw [updateLeader]
    split
    · exact ⟨wellFormed, covers⟩
    · rename_i p found
      have written : (sm.write p { sm.heap p with
          leader := leaderNodeID
          version := (sm.heap p).version + 1 }).WellFormed := wellFormed.write rfl
      exact ⟨{ written with }, covers.write (by rfl)⟩

/-- In every run of orderly calls each key is in one shard, which looking it up returns. -/
theorem partitionsKeySpace_of_orderly {sm₀ : ShardMap} {numShards : ℕ} (pos : 1 ≤ numShards)
    {nodes : List String}
    (reachable : Runs.Reachable (step sorter) (fun sm call => sm.Orderly sorter call)
      (sm₀.initializeShards numShards nodes) sm) : sm.PartitionsKeySpace := by
  have inv : sm.WellFormed ∧ sm.Covers := by
    induction reachable with
    | start =>
      exact ⟨(descriptors_initializeShards sm₀ numShards nodes).1,
        covers_initializeShards sm₀ pos nodes⟩
    | next _ orderly happens ih => exact covers_step ih orderly happens
  exact inv.2.partitionsKeySpace

theorem partitionsKeySpace_of_orderly_calls :
    ∃ sm : ShardMap, sm.descriptors.map (fun s => (s.shardID, s.startKey, s.endKey, s.leader)) =
      [(0, [], [40], ""), (3, [40], [95], "b"), (2, [95], [100], ""), (3, [100], [], "")] ∧
      sm.PartitionsKeySpace := by
  obtain ⟨sm, reachable, shards⟩ := Runs.exists_of_exec (step Slices.Sorter.insertion)
    (fun sm call => sm.Orderly Slices.Sorter.insertion call)
    (({} : ShardMap).initializeShards 3 ["a", "b"])
    [.split 0 [40] 3 [], .updateLeader 3 "b", .merge 3 1, .split 2 [100] 4 []]
    (P := fun sm => sm.descriptors.map (fun s => (s.shardID, s.startKey, s.endKey, s.leader)) =
      [(0, [], [40], ""), (3, [40], [95], "b"), (2, [95], [100], ""), (3, [100], [], "")])
    (by decide +kernel)
  exact ⟨sm, shards, partitionsKeySpace_of_orderly (by decide) reachable⟩

/-- Merging the last shard with the first one, which have an empty key in common, leaves every
key without a shard. -/
theorem not_partitionsKeySpace :
    ∃ sm, Runs.Reachable (step Slices.Sorter.insertion) (fun _ _ => True)
      (({} : ShardMap).initializeShards 2 ["a"]) sm ∧ ¬ sm.PartitionsKeySpace := by
  obtain ⟨sm, reachable, nowhere⟩ := Runs.exists_of_exec (step Slices.Sorter.insertion)
    (fun _ _ => True) (({} : ShardMap).initializeShards 2 ["a"]) [.merge 1 0]
    (P := fun sm => sm.shards.filter (fun p => (sm.heap p).containsKey []) = []) (by decide +kernel)
  refine ⟨sm, reachable, fun partitions => ?_⟩
  obtain ⟨p, one, -⟩ := partitions []
  rw [nowhere] at one
  nomatch one

end ShardMap

end Hermes.Partition
