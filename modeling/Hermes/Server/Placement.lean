import Hermes.Partition.Coverage
import Hermes.Server.Startup

/-!
# The replicas of the first shards

`startShardMap` puts the node itself in front of the members that are alive, of which it is one.
The replicas of a shard are the next nodes of that list, so that the node can be taken twice.
-/

open Hermes.Membership (MemberList Member)
open Hermes.Partition (ShardMap assignReplicas ReplicaDescriptor)

namespace Hermes.Server

open List

/-- The nodes that `startShardMap` distributes the shards over. -/
def allNodes (cfg : Config) (view : MemberList) : List String :=
  cfg.nodeID :: view.alive.map Member.nodeID

/-- The map that `startShardMap` makes. -/
def startShardMap (cfg : Config) (view : MemberList) : ShardMap :=
  let numShards := (allNodes cfg view).length
  let numShards := if numShards < 1 then 1 else numShards
  ({} : ShardMap).initializeShards numShards (allNodes cfg view)

/-- Every shard has as many replicas as there are nodes, up to three, all on different nodes. -/
def Replicated (cfg : Config) (view : MemberList) : Prop :=
  ∀ shard ∈ (startShardMap cfg view).descriptors,
    shard.replicas.length = min 3 (view.alive.map Member.nodeID).toFinset.card ∧
      (shard.replicas.map ReplicaDescriptor.nodeID).Nodup

/-- The node at a place of a list that is read in a circle. -/
def nodeAt (nodes : List String) (k : ℕ) : String :=
  (nodes[k % nodes.length]?).getD ""

theorem nodup_assignReplicas_iff {nodes : List String} {i : ℕ} :
    ((assignReplicas nodes i 3).map ReplicaDescriptor.nodeID).Nodup ↔
      ∀ j < min 3 nodes.length, ∀ k < min 3 nodes.length,
        nodeAt nodes (i + j) = nodeAt nodes (i + k) → j = k := by
  have least : (if 3 > nodes.length then nodes.length else 3) = min 3 nodes.length := by
    split <;> omega
  rw [assignReplicas, map_map]
  dsimp only
  rw [least, nodup_map_iff_inj_on nodup_range]
  simp only [mem_range]
  rfl

/-- In a list that begins with one of its later nodes, which are all different, only that node is
at two places. -/
theorem nodeAt_cons_eq_iff {x : String} {others : List String} {p a b : ℕ}
    (distinct : others.Nodup) (again : others[p]? = some x) (insideA : a < others.length + 1)
    (insideB : b < others.length + 1) : nodeAt (x :: others) a = nodeAt (x :: others) b ↔
      (if a = 0 then p + 1 else a) = if b = 0 then p + 1 else b := by
  have found : ∀ c < others.length + 1, ∃ k, others[k]? = some (nodeAt (x :: others) c) ∧
      k + 1 = if c = 0 then p + 1 else c := by
    intro c inside
    rw [nodeAt, length_cons, Nat.mod_eq_of_lt inside]
    cases c with
    | zero => exact ⟨p, again, rfl⟩
    | succ k =>
      refine ⟨k, ?_, rfl⟩
      rw [getElem?_cons_succ, getElem?_eq_getElem (Nat.lt_of_succ_lt_succ inside)]
      rfl
  obtain ⟨k, nodeA, placeA⟩ := found a insideA
  obtain ⟨l, nodeB, placeB⟩ := found b insideB
  rw [← placeA, ← placeB, Nat.add_right_cancel_iff, ← Option.some_inj, ← nodeA, ← nodeB]
  exact List.getElem?_inj (List.getElem?_eq_some_iff.mp nodeA).1 distinct

theorem nodeAt_mod (nodes : List String) (k : ℕ) :
    nodeAt nodes (k % nodes.length) = nodeAt nodes k := by
  rw [nodeAt, Nat.mod_mod, nodeAt]

theorem replicated_iff_of_alive {cfg : Config} {view : MemberList} {before after : List String}
    (alive : view.alive.map Member.nodeID = before ++ cfg.nodeID :: after) :
    Replicated cfg view ↔ 2 ≤ before.length ∧ 2 ≤ after.length := by
  have nodup := view.nodup_alive
  have shards : (startShardMap cfg view).descriptors = (range (allNodes cfg view).length).map
      (ShardMap.initialShard (allNodes cfg view).length (allNodes cfg view)) := by
    rw [startShardMap]
    exact (ShardMap.descriptors_initializeShards _ _ _).2
  have others : (view.alive.map Member.nodeID).length = before.length + after.length + 1 := by
    rw [alive, length_append, length_cons, Nat.add_assoc]
  have length : (allNodes cfg view).length = before.length + after.length + 2 :=
    congrArg (· + 1) others
  have same : ∀ {a b : ℕ}, a < (allNodes cfg view).length → b < (allNodes cfg view).length →
      (nodeAt (allNodes cfg view) a = nodeAt (allNodes cfg view) b ↔
        (if a = 0 then before.length + 1 else a) = if b = 0 then before.length + 1 else b) :=
    nodeAt_cons_eq_iff nodup (by rw [alive]; simp)
  rw [Replicated, shards, forall_mem_map, toFinset_card_of_nodup nodup, others]
  simp only [mem_range, ShardMap.initialShard, nodup_assignReplicas_iff]
  constructor
  · intro replicated
    -- a window that begins at one of the two places ends before the other one
    have early : min 3 (allNodes cfg view).length ≤ before.length + 1 := by
      by_contra short
      have apart := (replicated 0 (by omega)).2 0 (by omega) (before.length + 1) (by omega)
      rw [Nat.zero_add, Nat.zero_add, same (by omega) (by omega)] at apart
      cases apart (by simp)
    have late : min 3 (allNodes cfg view).length ≤ after.length + 1 := by
      by_contra short
      have apart := (replicated (before.length + 1) (by omega)).2 0 (by omega) (after.length + 1)
        (by omega)
      have round : before.length + 1 + (after.length + 1) = (allNodes cfg view).length := by omega
      rw [Nat.add_zero, round, ← nodeAt_mod _ (allNodes cfg view).length, Nat.mod_self,
        same (by omega) (by omega)] at apart
      cases apart (by simp)
    omega
  · rintro ⟨early, late⟩ i inside
    constructor
    · rw [assignReplicas, length_map, length_range]
      split <;> omega
    · intro j first k second equal
      have wrap : ∀ j < 3, (i + j) % (allNodes cfg view).length =
          if i + j < (allNodes cfg view).length then i + j
          else i + j - (allNodes cfg view).length := by
        intro j less
        split
        · rename_i below
          exact Nat.mod_eq_of_lt below
        · rw [Nat.mod_eq_sub_mod (by omega), Nat.mod_eq_of_lt (by omega)]
      rw [← nodeAt_mod _ (i + j), ← nodeAt_mod _ (i + k),
        same (Nat.mod_lt _ (by omega)) (Nat.mod_lt _ (by omega)), wrap j (by omega),
        wrap k (by omega)] at equal
      split_ifs at equal <;> omega

/-- The replicas are as they should be exactly if at least two members that are alive come before
the node itself and two after it. -/
theorem replicated_iff {cfg : Config} {view : MemberList}
    (known : cfg.nodeID ∈ view.alive.map Member.nodeID) :
    Replicated cfg view ↔ ∃ before after,
      view.alive.map Member.nodeID = before ++ cfg.nodeID :: after ∧
        2 ≤ before.length ∧ 2 ≤ after.length := by
  constructor
  · intro replicated
    obtain ⟨before, after, alive⟩ := append_of_mem known
    exact ⟨before, after, alive, (replicated_iff_of_alive alive).mp replicated⟩
  · rintro ⟨before, after, alive, apart⟩
    exact (replicated_iff_of_alive alive).mpr apart

/-- A list that is walked with two others before and two after the node itself. -/
def surrounded : MemberList :=
  ["b", "c", "a", "d", "e"].foldl
    (fun ml id => ml.put { nodeID := id, state := .alive, incarnation := 1, lastSeen := 0 })
    (.new "a" 0)

theorem replicated_surrounded : Replicated { nodeID := "a" } surrounded :=
  (replicated_iff (by decide)).mpr ⟨["e", "d"], ["c", "b"], by decide, by decide, by decide⟩

/-- In a cluster of three nodes a shard gets two replicas on one of them. -/
theorem not_replicated :
    (∃ shard ∈ (startShardMap { nodeID := "a" } (informed "a" ["b", "c"])).descriptors,
      shard.replicas.map ReplicaDescriptor.nodeID = ["a", "a", "c"]) ∧
    ¬ Replicated { nodeID := "a" } (informed "a" ["b", "c"]) := by
  have twice : ∃ shard ∈ (startShardMap { nodeID := "a" } (informed "a" ["b", "c"])).descriptors,
      shard.replicas.map ReplicaDescriptor.nodeID = ["a", "a", "c"] := by
    decide +kernel
  refine ⟨twice, fun replicated => ?_⟩
  obtain ⟨shard, mem, nodes⟩ := twice
  have distinct := (replicated shard mem).2
  rw [nodes] at distinct
  exact absurd distinct (by decide)

end Hermes.Server
