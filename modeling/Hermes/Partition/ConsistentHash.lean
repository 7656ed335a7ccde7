import Hermes.Data.Circle
import Hermes.Data.Runs

/-!
# The consistent hash ring

A physical node is placed on the ring at the hashes of the labels of its virtual nodes, and a
key belongs to the node of the first virtual node from the hash of the key on.  The hash is
any function; that the ring is sorted by it says nothing about virtual nodes with equal
hashes.
-/

namespace Hermes.Partition

abbrev NodeID := String

def defaultVirtualNodes : ℕ := 150

structure VirtualNode where
  hash : UInt32
  nodeID : NodeID
  vnodeIndex : ℕ
  deriving DecidableEq, Repr

structure ConsistentHashRing where
  vnodes : List VirtualNode := []
  nodeMap : Finset NodeID := ∅
  virtualNodes : ℕ
  deriving DecidableEq

namespace ConsistentHashRing

/-- `NewConsistentHashRing`. -/
def new (virtualNodes : ℤ) : ConsistentHashRing where
  virtualNodes := if virtualNodes ≤ 0 then defaultVirtualNodes else virtualNodes.toNat

variable (hashKey : String → UInt32) (sorter : Slices.Sorter VirtualNode ℕ)
  (r : ConsistentHashRing)

/-- The label of a virtual node. -/
def label (nodeID : NodeID) (i : ℕ) : String :=
  nodeID ++ "-vnode-" ++ toString i

/-- A virtual node of a physical one. -/
def vnode (nodeID : NodeID) (i : ℕ) : VirtualNode where
  hash := hashKey (label nodeID i)
  nodeID := nodeID
  vnodeIndex := i

/-- `AddNode`. -/
def addNode (nodeID : NodeID) : ConsistentHashRing :=
  if nodeID ∈ r.nodeMap then r
  else
    { r with
      nodeMap := insert nodeID r.nodeMap
      vnodes := sorter.sort (fun vn => vn.hash.toNat)
        (r.vnodes ++ (List.range r.virtualNodes).map (vnode hashKey nodeID)) }

/-- `RemoveNode`. -/
def removeNode (nodeID : NodeID) : ConsistentHashRing :=
  if nodeID ∉ r.nodeMap then r
  else
    { r with
      nodeMap := r.nodeMap.erase nodeID
      vnodes := r.vnodes.filter fun vn => vn.nodeID ≠ nodeID }

/-- `GetNode`: the first virtual node from the hash of the key on, or the first one of all.
The index is never out of range. -/
def getNode (key : String) : Except String NodeID :=
  if r.vnodes.length = 0 then .error "consistent hash: ring is empty"
  else
    let hash := hashKey key
    let idx := Slices.search r.vnodes.length fun i =>
      (r.vnodes[i]?).any fun vn => hash.toNat ≤ vn.hash.toNat
    let idx := if idx = r.vnodes.length then 0 else idx
    match r.vnodes[idx]? with
    | some vn => .ok vn.nodeID
    | none => .error "index out of range"

inductive Event where
  | addNode (nodeID : NodeID)
  | removeNode (nodeID : NodeID)
  deriving DecidableEq, Repr

def step (r : ConsistentHashRing) : Event → Option ConsistentHashRing
  | .addNode nodeID => some (r.addNode hashKey sorter nodeID)
  | .removeNode nodeID => some (r.removeNode nodeID)

/-- The rings that adding and removing nodes leads to. -/
abbrev Reachable (virtualNodes : ℤ) : ConsistentHashRing → Prop :=
  Runs.Reachable (step hashKey sorter) (fun _ _ => True) (new virtualNodes)

end ConsistentHashRing

end Hermes.Partition
