import Hermes.Data.ByteOrder
import Hermes.Data.Runs
import Hermes.Data.Slices

/-!
# The shard map

The key space is cut into shards, each with a range of keys: an empty start key means from
the beginning on and an empty end key means without an end.  The map holds pointers to the
descriptors of the shards in a slice and in a map by their IDs; splitting and merging change
a descriptor in place, so that both see the change.
-/

namespace Hermes.Partition

open scoped ByteOrder

/-- A Go string used as a key. -/
abbrev Key := Bytes

abbrev ShardID := ℕ

abbrev RaftGroupID := ℕ

inductive ReplicaRole where
  | voter
  | learner
  | outgoing
  deriving DecidableEq, Repr

structure ReplicaDescriptor where
  nodeID : String
  address : String
  role : ReplicaRole
  deriving DecidableEq, Repr

structure ShardDescriptor where
  shardID : ShardID
  startKey : Key
  endKey : Key
  raftGroup : RaftGroupID
  replicas : List ReplicaDescriptor
  leader : String := ""
  version : ℕ
  deriving DecidableEq, Repr, Inhabited

def ShardDescriptor.containsKey (s : ShardDescriptor) (key : Key) : Bool :=
  if s.startKey ≠ [] ∧ key < s.startKey then false
  else if s.endKey ≠ [] ∧ s.endKey ≤ key then false
  else true

/-- The shard with another end key. -/
def ShardDescriptor.endingAt (s : ShardDescriptor) (endKey : Key) : ShardDescriptor :=
  { s with endKey := endKey, version := s.version + 1 }

/-- `computeSplitPoints`: single characters between `!` and `~`, each of them one byte. -/
def computeSplitPoints (n : ℕ) : List Key :=
  if n ≤ 1 then []
  else (List.range (n - 1)).map fun i => [UInt8.ofNat (33 + 93 * (i + 1) / n)]

def assignReplicas (nodes : List String) (shardIdx replicationFactor : ℕ) :
    List ReplicaDescriptor :=
  let n := nodes.length
  let replicationFactor := if replicationFactor > n then n else replicationFactor
  (List.range replicationFactor).map fun i =>
    let node := (nodes[(shardIdx + i) % n]?).getD ""
    { nodeID := node, address := node ++ ":7000", role := .voter }

/-- A pointer to a shard descriptor. -/
abbrev Ref := ℕ

structure ShardMap where
  /-- What the pointers below `next` point to. -/
  heap : Ref → ShardDescriptor := fun _ => default
  /-- The next pointer to be given out. -/
  next : Ref := 0
  shards : List Ref := []
  shardsByID : AList fun _ : ShardID => Ref := ∅
  version : ℕ := 0

/-- The errors of the map. -/
inductive Fault where
  /-- `shardmap: no shards configured` -/
  | noShardsConfigured
  /-- `shardmap: no shard for key %q` -/
  | noShardForKey (key : Key)
  /-- `shardmap: shard %d not found` -/
  | shardNotFound (shardID : ShardID)
  /-- `shardmap: split key %q not in shard %s` -/
  | splitKeyNotInShard (splitKey : Key) (shard : ShardDescriptor)
  /-- `shardmap: shard not found` -/
  | shardsNotFound
  /-- `shardmap: shards %d and %d are not adjacent` -/
  | notAdjacent (shard1ID shard2ID : ShardID)
  deriving DecidableEq, Repr

namespace ShardMap

variable (sm : ShardMap)

/-- Write to a descriptor in place. -/
def write (p : Ref) (shard : ShardDescriptor) : ShardMap :=
  { sm with heap := Function.update sm.heap p shard }

/-- Append a new descriptor to the slice and put it into the map. -/
def add (shard : ShardDescriptor) : ShardMap :=
  { sm with
    heap := Function.update sm.heap sm.next shard
    next := sm.next + 1
    shards := sm.shards ++ [sm.next]
    shardsByID := sm.shardsByID.insert shard.shardID sm.next }

/-- A shard that `Initialize` makes. -/
def initialShard (numShards : ℕ) (nodes : List String) (i : ℕ) : ShardDescriptor :=
  let splitPoints := computeSplitPoints numShards
  { shardID := i
    startKey := if i > 0 then (splitPoints[i - 1]?).getD [] else []
    endKey := (splitPoints[i]?).getD []
    raftGroup := i
    replicas := assignReplicas nodes i 3
    version := 1 }

/-- `Initialize`. -/
def initializeShards (numShards : ℕ) (nodes : List String) : ShardMap :=
  let sm := (List.range numShards).foldl (fun sm i => sm.add (initialShard numShards nodes i))
    { sm with shards := [], shardsByID := ∅ }
  { sm with version := sm.version + 1 }

/-- The index both lookups start from: the last shard that starts no later than a key. -/
def indexOf (key : Key) : ℕ :=
  (Slices.search sm.shards.length fun i =>
    (sm.shards[i]?).any fun p => key < (sm.heap p).startKey) - 1

/-- `Lookup`. The index is out of range only if there are no shards. -/
def lookup (key : Key) : Except Fault Ref :=
  match sm.shards[sm.indexOf key]? with
  | none => .error .noShardsConfigured
  | some p =>
    if ¬ (sm.heap p).containsKey key then .error (.noShardForKey key) else .ok p

/-- `LookupRange`. -/
def lookupRange (startKey endKey : Key) : Except Fault (List Ref) :=
  if sm.shards.length = 0 then .error .noShardsConfigured
  else .ok ((sm.shards.drop (sm.indexOf startKey)).takeWhile fun p =>
    ¬ (endKey ≠ [] ∧ endKey ≤ (sm.heap p).startKey))

def updateLeader (shardID : ShardID) (leaderNodeID : String) : ShardMap :=
  match sm.shardsByID.lookup shardID with
  | none => sm
  | some p =>
    let shard := sm.heap p
    let sm := sm.write p { shard with leader := leaderNodeID, version := shard.version + 1 }
    { sm with version := sm.version + 1 }

/-- The new shard of a split, with the number of the shards as its ID. -/
def newShard (original : ShardDescriptor) (splitKey : Key) (newGroupID : RaftGroupID)
    (newReplicas : List ReplicaDescriptor) : ShardDescriptor where
  shardID := sm.shards.length
  startKey := splitKey
  endKey := original.endKey
  raftGroup := newGroupID
  replicas := newReplicas
  version := 1

/-- The map with a shard cut and the new shard at the end of the slice. -/
def cut (p : Ref) (splitKey : Key) (newGroupID : RaftGroupID)
    (newReplicas : List ReplicaDescriptor) : ShardMap :=
  let original := sm.heap p
  (sm.write p (original.endingAt splitKey)).add
    (sm.newShard original splitKey newGroupID newReplicas)

/-- Sort the slice by the start keys. -/
def sortShards (sorter : Slices.Sorter Ref Key) : ShardMap :=
  { sm with shards := sorter.sort (fun p => (sm.heap p).startKey) sm.shards }

/-- `Split`; the results are the original and the new shard. -/
def split (sorter : Slices.Sorter Ref Key) (shardID : ShardID) (splitKey : Key)
    (newGroupID : RaftGroupID) (newReplicas : List ReplicaDescriptor) :
    Except Fault (ShardMap × Ref × Ref) :=
  match sm.shardsByID.lookup shardID with
  | none => .error (.shardNotFound shardID)
  | some p =>
    if ¬ (sm.heap p).containsKey splitKey then
      .error (.splitKeyNotInShard splitKey (sm.heap p))
    else
      let sorted := (sm.cut p splitKey newGroupID newReplicas).sortShards sorter
      .ok ({ sorted with version := sorted.version + 1 }, p, sm.next)

/-- The map with a shard extended over another one, and that one removed by its ID. -/
def merged (p₁ p₂ : Ref) (shard2ID : ShardID) : ShardMap :=
  let sm := sm.write p₁ ((sm.heap p₁).endingAt (sm.heap p₂).endKey)
  { sm with
    version := sm.version + 1
    shardsByID := sm.shardsByID.erase shard2ID
    shards := sm.shards.filter fun p => (sm.heap p).shardID ≠ shard2ID }

/-- `Merge`; the result is the first shard. -/
def merge (shard1ID shard2ID : ShardID) : Except Fault (ShardMap × Ref) :=
  match sm.shardsByID.lookup shard1ID, sm.shardsByID.lookup shard2ID with
  | some p₁, some p₂ =>
    if (sm.heap p₁).endKey ≠ (sm.heap p₂).startKey then .error (.notAdjacent shard1ID shard2ID)
    else .ok (sm.merged p₁ p₂ shard2ID, p₁)
  | _, _ => .error .shardsNotFound

/-- The calls that change a map. -/
inductive Call where
  | split (shardID : ShardID) (splitKey : Key) (newGroupID : RaftGroupID)
    (newReplicas : List ReplicaDescriptor)
  | merge (shard1ID shard2ID : ShardID)
  | updateLeader (shardID : ShardID) (leaderNodeID : String)
  deriving DecidableEq, Repr

/-- A successful call. -/
def step (sorter : Slices.Sorter Ref Key) (sm : ShardMap) : Call → Option ShardMap
  | .split shardID splitKey newGroupID newReplicas =>
    (sm.split sorter shardID splitKey newGroupID newReplicas).toOption.map Prod.fst
  | .merge shard1ID shard2ID => (sm.merge shard1ID shard2ID).toOption.map Prod.fst
  | .updateLeader shardID leaderNodeID => some (sm.updateLeader shardID leaderNodeID)

end ShardMap

end Hermes.Partition
