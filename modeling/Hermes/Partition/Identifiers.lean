import Hermes.Partition.Coverage

/-!
# The identifiers of the shards

The new shard of a split gets the number of the shards as its ID.  As long as no shard has
this ID, the map by IDs leads to every shard of the slice, and a call touches only the shards
that it is addressed to.  A merge makes the number smaller than the IDs that are left.
-/

namespace Hermes.Partition.ShardMap

open AList Function List
open scoped ByteOrder

variable {sm sm' : ShardMap} {sorter : Slices.Sorter Ref Key} {p : Ref} {shard : ShardDescriptor}

/-- The IDs of the shards are different, and the map by IDs leads to exactly these shards. -/
def Identified (sm : ShardMap) : Prop :=
  (sm.descriptors.map ShardDescriptor.shardID).Nodup ∧ ∀ shardID p,
    sm.shardsByID.lookup shardID = some p ↔ p ∈ sm.shards ∧ (sm.heap p).shardID = shardID

/-- The shards that a call is addressed to. -/
def Call.addressees : Call → List ShardID
  | .split shardID .. => [shardID]
  | .merge shard1ID shard2ID => [shard1ID, shard2ID]
  | .updateLeader shardID _ => [shardID]

/-- All other shards stay and stay as they are. -/
def Spares (sm sm' : ShardMap) (call : Call) : Prop :=
  ∀ p ∈ sm.shards, (sm.heap p).shardID ∉ call.addressees → p ∈ sm'.shards ∧ sm'.heap p = sm.heap p

/-- The ID of the new shard of a split is not in use. -/
def TakesFreshID (sm : ShardMap) : Call → Prop
  | .split .. => sm.shardsByID.lookup sm.shards.length = none
  | _ => True

instance : DecidablePred sm.TakesFreshID := by
  rintro ⟨⟩ <;> delta TakesFreshID <;> infer_instance

/-- Every shard of the slice is found by its ID. -/
structure Indexed (sm : ShardMap) : Prop extends sm.WellFormed where
  found : ∀ p ∈ sm.shards, sm.shardsByID.lookup (sm.heap p).shardID = some p

namespace Indexed

variable (indexed : sm.Indexed)

include indexed

theorem identified : sm.Identified := by
  constructor
  · rw [descriptors, map_map]
    apply indexed.nodup.map_on
    intro p mem q mem' same
    have found := indexed.found p mem
    rw [show (sm.heap p).shardID = (sm.heap q).shardID from same, indexed.found q mem'] at found
    exact (Option.some.inj found).symm
  · intro shardID p
    constructor
    · exact indexed.byID
    · rintro ⟨mem, rfl⟩
      exact indexed.found p mem

theorem write (same : shard.shardID = (sm.heap p).shardID) : (sm.write p shard).Indexed where
  toWellFormed := indexed.toWellFormed.write same
  found q mem := by
    rw [shardID_write same]
    exact indexed.found q mem

theorem add (fresh : sm.shardsByID.lookup shard.shardID = none) : (sm.add shard).Indexed where
  toWellFormed := indexed.toWellFormed.add shard
  found q mem := by
    rcases mem_append.mp mem with old | new
    · have unwritten : (sm.add shard).heap q = sm.heap q :=
        update_of_ne (indexed.allocated q old).ne _ _
      have other : (sm.heap q).shardID ≠ shard.shardID := by
        intro same
        rw [← same, indexed.found q old] at fresh
        nomatch fresh
      rw [unwritten, ShardMap.add, lookup_insert_ne other]
      exact indexed.found q old
    · rw [mem_singleton.mp new, ShardMap.add]
      dsimp only
      rw [update_self, lookup_insert]

theorem sortShards (sorter : Slices.Sorter Ref Key) : (sm.sortShards sorter).Indexed where
  toWellFormed := indexed.toWellFormed.sortShards sorter
  found q mem := by
    have old := sorter.mem_sort.mp mem
    exact indexed.found q old

theorem merged (p₁ p₂ : Ref) (shard2ID : ShardID) : (sm.merged p₁ p₂ shard2ID).Indexed where
  toWellFormed := indexed.toWellFormed.merged p₁ p₂ shard2ID
  found q mem := by
    obtain ⟨old, other⟩ := mem_filter.mp mem
    have written : (sm.write p₁ ((sm.heap p₁).endingAt (sm.heap p₂).endKey)).Indexed :=
      indexed.write rfl
    rw [ShardMap.merged, lookup_erase_ne (of_decide_eq_true other)]
    exact written.found q old

theorem step {call : Call} (fresh : sm.TakesFreshID call)
    (happens : step sorter sm call = some sm') : sm'.Indexed ∧ sm.Spares sm' call := by
  cases call with
  | split shardID splitKey newGroupID newReplicas =>
    obtain ⟨⟨_, _⟩, ok, rfl⟩ := Option.map_eq_some_iff.mp happens
    obtain ⟨p, found, -, version, rfl⟩ := split_eq_ok (toOption_eq_some.mp ok)
    have written : (sm.write p ((sm.heap p).endingAt splitKey)).Indexed := indexed.write rfl
    have added : (sm.cut p splitKey newGroupID newReplicas).Indexed := written.add fresh
    refine ⟨{ added.sortShards sorter with }, fun q mem other => ?_⟩
    have unwritten : q ≠ p := by
      rintro rfl
      exact other (mem_singleton.mpr (indexed.byID found).2)
    refine ⟨sorter.mem_sort.mpr (mem_append_left _ mem), ?_⟩
    exact (update_of_ne (indexed.allocated q mem).ne _ _).trans
      (heap_write_of_ne unwritten _)
  | merge shard1ID shard2ID =>
    obtain ⟨⟨_, _⟩, ok, rfl⟩ := Option.map_eq_some_iff.mp happens
    obtain ⟨p₁, p₂, found₁, found₂, -, rfl⟩ := merge_eq_ok (toOption_eq_some.mp ok)
    refine ⟨indexed.merged p₁ p₂ shard2ID, fun q mem other => ?_⟩
    rw [Call.addressees, mem_pair, not_or] at other
    have unwritten : q ≠ p₁ := by
      rintro rfl
      exact other.1 (indexed.byID found₁).2
    have kept : (sm.write p₁ ((sm.heap p₁).endingAt (sm.heap p₂).endKey)).heap q = sm.heap q :=
      heap_write_of_ne unwritten _
    refine ⟨mem_filter.mpr ⟨mem, ?_⟩, kept⟩
    rw [kept]
    exact decide_eq_true other.2
  | updateLeader shardID leaderNodeID =>
    cases happens
    rw [updateLeader]
    split
    · exact ⟨indexed, fun q mem _ => ⟨mem, rfl⟩⟩
    · rename_i p found
      have written : (sm.write p { sm.heap p with
          leader := leaderNodeID
          version := (sm.heap p).version + 1 }).Indexed := indexed.write rfl
      refine ⟨{ written with }, fun q mem other => ⟨mem, ?_⟩⟩
      apply heap_write_of_ne
      rintro rfl
      exact other (mem_singleton.mpr (indexed.byID found).2)

end Indexed

theorem indexed_initializeShards (sm : ShardMap) (numShards : ℕ) (nodes : List String) :
    (sm.initializeShards numShards nodes).Indexed := by
  suffices loop : ∀ k sm', sm' = (range k).foldl
      (fun sm i => sm.add (initialShard numShards nodes i))
      { sm with shards := [], shardsByID := ∅ } →
      sm'.Indexed ∧ ∀ i, k ≤ i → sm'.shardsByID.lookup i = none by
    exact { (loop numShards _ rfl).1 with }
  intro k
  induction k with
  | zero =>
    rintro sm' rfl
    exact ⟨⟨⟨nodup_nil, nofun, nofun⟩, nofun⟩, fun _ _ => rfl⟩
  | succ k ih =>
    rintro sm' rfl
    obtain ⟨indexed, unused⟩ := ih _ rfl
    rw [range_succ, foldl_append]
    refine ⟨indexed.add (unused k le_rfl), fun i later => ?_⟩
    exact (lookup_insert_ne (ne_of_gt later)).trans (unused i (le_of_lt later))

/-- In every run whose splits find their new ID unused the IDs stay unique, and no call touches
a shard that it is not addressed to. -/
theorem identified_of_takesFreshID {sm₀ : ShardMap} {numShards : ℕ} {nodes : List String}
    (reachable : Runs.Reachable (step sorter) TakesFreshID
      (sm₀.initializeShards numShards nodes) sm) :
    sm.Identified ∧ ∀ call sm', sm.TakesFreshID call → ShardMap.step sorter sm call = some sm' →
      sm.Spares sm' call := by
  have indexed : sm.Indexed := reachable.invariant (indexed_initializeShards sm₀ numShards nodes)
    fun _ _ _ indexed fresh happens => (indexed.step fresh happens).1
  exact ⟨indexed.identified, fun call sm' fresh happens => (indexed.step fresh happens).2⟩

theorem identified_of_takesFreshID_calls : ∃ sm : ShardMap,
    sm.descriptors.map ShardDescriptor.shardID = [0, 3, 4, 2] ∧ sm.Identified := by
  obtain ⟨sm, reachable, ids⟩ := Runs.exists_of_exec (step Slices.Sorter.insertion) TakesFreshID
    (({} : ShardMap).initializeShards 3 ["a"])
    [.split 0 [40] 3 [], .split 3 [50] 4 [], .merge 4 1]
    (P := fun sm => sm.descriptors.map ShardDescriptor.shardID = [0, 3, 4, 2]) (by decide +kernel)
  exact ⟨sm, ids, (identified_of_takesFreshID reachable).1⟩

/-- A merge leaves two shards of three, and the new shard of a split gets the ID of the last. -/
theorem not_identified : ∃ sm, Runs.Reachable (step Slices.Sorter.insertion) (fun _ _ => True)
    (({} : ShardMap).initializeShards 3 ["a"]) sm ∧
      sm.descriptors.map ShardDescriptor.shardID = [0, 2, 2] ∧ ¬ sm.Identified := by
  refine Runs.exists_of_exec_and (step Slices.Sorter.insertion) (fun _ _ => True)
    (({} : ShardMap).initializeShards 3 ["a"]) [.merge 0 1, .split 0 [40] 3 []] (by decide +kernel)
    fun sm _ ids identified => ?_
  have different := identified.1
  rw [ids] at different
  exact absurd different (by decide)

end Hermes.Partition.ShardMap
