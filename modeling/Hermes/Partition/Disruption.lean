import Hermes.Partition.ConsistentHash

/-!
# Minimal disruption

The owner of a key depends only on which virtual nodes are on the ring.  Hence adding a node
moves keys to that node only, and removing one moves only its own keys.
-/

namespace Hermes.Partition.ConsistentHashRing

open List
open Hermes.Circle (IsNext)

variable {hashKey : String → UInt32} {sorter : Slices.Sorter VirtualNode ℕ}
  {r : ConsistentHashRing}

/-- The position of a virtual node. -/
def position (vn : VirtualNode) : ℕ :=
  vn.hash.toNat

/-- The virtual nodes that are on the ring. -/
def points (r : ConsistentHashRing) : Set VirtualNode :=
  { vn | vn ∈ r.vnodes }

/-- The labels of the virtual nodes of some nodes have different hashes. -/
def Distinct (hashKey : String → UInt32) (virtualNodes : ℕ) (nodes : Finset NodeID) : Prop :=
  ∀ n ∈ nodes, ∀ i < virtualNodes, ∀ n' ∈ nodes, ∀ i' < virtualNodes,
    hashKey (label n i) = hashKey (label n' i') → n = n' ∧ i = i'

instance (hashKey : String → UInt32) (virtualNodes : ℕ) (nodes : Finset NodeID) :
    Decidable (Distinct hashKey virtualNodes nodes) :=
  have _inner (n : NodeID) (i : ℕ) : Decidable (∀ n' ∈ nodes, ∀ i' < virtualNodes,
      hashKey (label n i) = hashKey (label n' i') → n = n' ∧ i = i') := inferInstance
  inferInstanceAs (Decidable (∀ n ∈ nodes, ∀ i < virtualNodes, ∀ n' ∈ nodes, ∀ i' < virtualNodes,
    hashKey (label n i) = hashKey (label n' i') → n = n' ∧ i = i'))

/-- The ring is sorted, and holds the virtual nodes of its nodes. -/
structure Placed (hashKey : String → UInt32) (r : ConsistentHashRing) : Prop where
  sorted : r.vnodes.Pairwise fun a b => position a ≤ position b
  mem_iff : ∀ vn, vn ∈ r.vnodes ↔
    vn.nodeID ∈ r.nodeMap ∧ ∃ i < r.virtualNodes, vn = vnode hashKey vn.nodeID i

/-! ## Reachable rings -/

theorem placed_new (hashKey : String → UInt32) (virtualNodes : ℤ) :
    Placed hashKey (new virtualNodes) where
  sorted := Pairwise.nil
  mem_iff vn := by simp [new]

@[simp]
theorem virtualNodes_addNode (x : NodeID) :
    (r.addNode hashKey sorter x).virtualNodes = r.virtualNodes := by
  rw [addNode]
  split <;> rfl

@[simp]
theorem virtualNodes_removeNode (y : NodeID) : (r.removeNode y).virtualNodes = r.virtualNodes := by
  rw [removeNode]
  split <;> rfl

@[simp]
theorem nodeMap_addNode (x : NodeID) :
    (r.addNode hashKey sorter x).nodeMap = insert x r.nodeMap := by
  rw [addNode]
  split
  · rename_i known
    exact (Finset.insert_eq_of_mem known).symm
  · rfl

@[simp]
theorem nodeMap_removeNode (y : NodeID) : (r.removeNode y).nodeMap = r.nodeMap.erase y := by
  rw [removeNode]
  split
  · rename_i unknown
    exact (Finset.erase_eq_of_notMem unknown).symm
  · rfl

variable {vn : VirtualNode} {x : NodeID}

theorem getNode_of_nil (empty : r.vnodes = []) (key : String) :
    r.getNode hashKey key = .error "consistent hash: ring is empty" := by
  rw [getNode, empty]
  rfl

theorem getNode_of_ne_nil (nonempty : r.vnodes ≠ []) (key : String) :
    r.getNode hashKey key =
      match r.vnodes[Circle.nextIndex position r.vnodes (hashKey key).toNat]? with
      | some vn => .ok vn.nodeID
      | none => .error "index out of range" :=
  if_neg (length_pos_of_ne_nil nonempty).ne'

theorem Distinct.mono {count : ℕ} {nodes fewer : Finset NodeID}
    (distinct : Distinct hashKey count nodes) (sub : fewer ⊆ nodes) :
    Distinct hashKey count fewer :=
  fun n mem i less n' mem' i' less' => distinct n (sub mem) i less n' (sub mem') i' less'

theorem mem_map_vnode_iff {count : ℕ} : vn ∈ (List.range count).map (vnode hashKey x) ↔
      vn.nodeID = x ∧ ∃ i < count, vn = vnode hashKey vn.nodeID i := by
  rw [mem_map]
  constructor
  · rintro ⟨i, mem, rfl⟩
    exact ⟨rfl, i, mem_range.mp mem, rfl⟩
  · rintro ⟨rfl, i, less, same⟩
    exact ⟨i, mem_range.mpr less, same.symm⟩

section

variable (placed : Placed hashKey r)

include placed

theorem Placed.addNode (x : NodeID) : Placed hashKey (r.addNode hashKey sorter x) := by
  constructor
  · rw [ConsistentHashRing.addNode]
    split
    · exact placed.sorted
    · exact sorter.sorted _ _
  · intro vn
    rw [nodeMap_addNode, ConsistentHashRing.addNode]
    split
    · rename_i known
      rw [placed.mem_iff, Finset.insert_eq_of_mem known]
    · rw [Slices.Sorter.mem_sort, mem_append, placed.mem_iff, mem_map_vnode_iff,
        Finset.mem_insert, or_and_right, or_comm]

theorem Placed.removeNode (y : NodeID) : Placed hashKey (r.removeNode y) := by
  constructor
  · rw [ConsistentHashRing.removeNode]
    split
    · exact placed.sorted
    · exact placed.sorted.filter _
  · intro vn
    rw [nodeMap_removeNode, ConsistentHashRing.removeNode]
    split
    · rename_i unknown
      rw [placed.mem_iff, Finset.erase_eq_of_notMem unknown]
    · rw [mem_filter, placed.mem_iff, Finset.mem_erase, decide_eq_true_iff, and_comm,
        and_assoc]

theorem mem_points_addNode_iff (other : vn.nodeID ≠ x) :
    vn ∈ (r.addNode hashKey sorter x).points ↔ vn ∈ r.points := by
  refine ((placed.addNode x).mem_iff vn).trans (Iff.trans ?_ (placed.mem_iff vn).symm)
  rw [nodeMap_addNode, virtualNodes_addNode, Finset.mem_insert, or_iff_right other]

theorem mem_points_removeNode_iff {y : NodeID} :
    vn ∈ (r.removeNode y).points ↔ vn.nodeID ≠ y ∧ vn ∈ r.points := by
  refine ((placed.removeNode y).mem_iff vn).trans
    (Iff.trans ?_ (and_congr_right' (placed.mem_iff vn).symm))
  rw [nodeMap_removeNode, virtualNodes_removeNode, Finset.mem_erase, and_assoc]

/-- A virtual node of the ring is not one of a node that is not on it. -/
theorem Placed.nodeID_ne (new : x ∉ r.nodeMap) (mem : vn ∈ r.points) : vn.nodeID ≠ x := by
  rintro rfl
  exact new ((placed.mem_iff vn).mp mem).1

/-! ## Owners -/

/-- On a ring that is not empty the search finds the next virtual node. -/
theorem Placed.exists_isNext (nonempty : r.vnodes ≠ []) (key : String) :
    ∃ vn, IsNext position r.points (hashKey key).toNat vn ∧
      r.getNode hashKey key = .ok vn.nodeID := by
  have inside : Circle.nextIndex position r.vnodes (hashKey key).toNat < r.vnodes.length :=
    Circle.nextIndex_lt nonempty
  have found := getElem?_eq_getElem inside
  refine ⟨_, Circle.isNext_nextIndex placed.sorted found, ?_⟩
  rw [getNode_of_ne_nil nonempty, found]

variable {key : String} (distinct : Distinct hashKey r.virtualNodes r.nodeMap)

include distinct

theorem Placed.injOn : Set.InjOn position r.points := by
  intro a onRing b onRing' same
  obtain ⟨known, i, less, isVnode⟩ := (placed.mem_iff a).mp onRing
  obtain ⟨known', i', less', isVnode'⟩ := (placed.mem_iff b).mp onRing'
  have hashes : hashKey (label a.nodeID i) = hashKey (label b.nodeID i') := by
    rw [isVnode, isVnode'] at same
    exact UInt32.toNat_inj.mp same
  obtain ⟨node, index⟩ := distinct _ known i less _ known' i' less' hashes
  rw [isVnode, isVnode', node, index]

theorem Placed.getNode_eq (next : IsNext position r.points (hashKey key).toNat vn) :
    r.getNode hashKey key = .ok vn.nodeID := by
  have nonempty : r.vnodes ≠ [] := ne_nil_of_mem next.mem
  obtain ⟨vn', next', owner⟩ := placed.exists_isNext nonempty key
  rw [owner, next'.unique (placed.injOn distinct) next]

/-- If all virtual nodes of one ring are on another one, a key whose owner there is the owner
of a virtual node of the first ring has the same owner on both. -/
theorem Placed.getNode_congr {r' : ConsistentHashRing} (placed' : Placed hashKey r')
    (fewer : r.points ⊆ r'.points)
    (stays : ∀ vn ∈ r'.points, r'.getNode hashKey key = .ok vn.nodeID → vn ∈ r.points) :
    r.getNode hashKey key = r'.getNode hashKey key := by
  by_cases empty : r'.vnodes = []
  · have empty' : r.vnodes = [] := by
      apply eq_nil_iff_forall_not_mem.mpr
      intro vn mem
      have := fewer mem
      rw [points, empty] at this
      nomatch this
    rw [getNode_of_nil empty, getNode_of_nil empty']
  · obtain ⟨vn, next, owner⟩ := placed'.exists_isNext empty key
    rw [owner]
    exact placed.getNode_eq distinct (next.anti fewer (stays vn next.mem owner))

theorem Placed.getNode_addNode (new : x ∉ r.nodeMap) (key : String) :
    (r.addNode hashKey sorter x).getNode hashKey key = r.getNode hashKey key ∨
      (r.addNode hashKey sorter x).getNode hashKey key = .ok x := by
  rw [or_iff_not_imp_right]
  intro other
  apply Eq.symm
  apply placed.getNode_congr distinct (placed.addNode x)
  · exact fun vn mem => (mem_points_addNode_iff placed (placed.nodeID_ne new mem)).mpr mem
  · intro vn mem owner
    apply (mem_points_addNode_iff placed _).mp mem
    rintro rfl
    exact other owner

theorem Placed.getNode_removeNode {y : NodeID} (other : r.getNode hashKey key ≠ .ok y) :
    (r.removeNode y).getNode hashKey key = r.getNode hashKey key := by
  refine (placed.removeNode y).getNode_congr ?_ placed ?_ ?_
  · rw [nodeMap_removeNode, virtualNodes_removeNode]
    exact distinct.mono (Finset.erase_subset y _)
  · exact fun vn mem => ((mem_points_removeNode_iff placed).mp mem).2
  · intro vn mem owner
    refine (mem_points_removeNode_iff placed).mpr ⟨?_, mem⟩
    rintro rfl
    exact other owner

theorem Placed.getNode_removeNode_addNode (new : x ∉ r.nodeMap) (key : String) :
    ((r.addNode hashKey sorter x).removeNode x).getNode hashKey key = r.getNode hashKey key := by
  have placed' : Placed hashKey (r.addNode hashKey sorter x) := placed.addNode x
  have same : ((r.addNode hashKey sorter x).removeNode x).points = r.points := by
    ext vn
    rw [mem_points_removeNode_iff placed']
    constructor
    · rintro ⟨other, mem⟩
      exact (mem_points_addNode_iff placed other).mp mem
    · intro mem
      have other := placed.nodeID_ne new mem
      exact ⟨other, (mem_points_addNode_iff placed other).mpr mem⟩
  refine (placed'.removeNode x).getNode_congr ?_ placed ?_ ?_
  · rw [nodeMap_removeNode, virtualNodes_removeNode, nodeMap_addNode, virtualNodes_addNode,
      Finset.erase_insert new]
    exact distinct
  · exact same.subset
  · intro vn mem _
    rw [same]
    exact mem

end

theorem placed_of_reachable {virtualNodes : ℤ}
    (reachable : Reachable hashKey sorter virtualNodes r) : Placed hashKey r := by
  apply reachable.invariant
  · exact placed_new hashKey virtualNodes
  · intro r event r' placed _ happens
    cases event with
    | addNode x =>
      cases happens
      exact placed.addNode x
    | removeNode y =>
      cases happens
      exact placed.removeNode y

/-- Adding a node moves keys to it only and removing it moves them back; removing a node
moves no key that it does not own.  The hashes of the node that is added may be those of
others. -/
theorem minimallyDisruptive {hashKey : String → UInt32} {sorter : Slices.Sorter VirtualNode ℕ}
    {r : ConsistentHashRing} {virtualNodes : ℤ}
    (reachable : Reachable hashKey sorter virtualNodes r)
    (distinct : Distinct hashKey r.virtualNodes r.nodeMap) :
    (∀ x ∉ r.nodeMap, ∀ key,
      ((r.addNode hashKey sorter x).getNode hashKey key = r.getNode hashKey key ∨
        (r.addNode hashKey sorter x).getNode hashKey key = .ok x) ∧
      ((r.addNode hashKey sorter x).removeNode x).getNode hashKey key =
        r.getNode hashKey key) ∧
    ∀ y key, r.getNode hashKey key ≠ .ok y →
      (r.removeNode y).getNode hashKey key = r.getNode hashKey key := by
  have placed := placed_of_reachable reachable
  constructor
  · intro x new key
    exact ⟨placed.getNode_addNode distinct new key,
      placed.getNode_removeNode_addNode distinct new key⟩
  · exact fun y key => placed.getNode_removeNode distinct

/-- The first four bytes of the MD5 sums of some labels and of a key. -/
def md5Table : List (String × UInt32) :=
  [("c-vnode-0", 440496435), ("l-vnode-0", 2015906277), ("m-vnode-0", 3951692800),
    ("p-vnode-0", 2998421030), ("k2", 1633814871)]

def md5Hash (label : String) : UInt32 :=
  (md5Table.lookup label).getD 0

theorem minimallyDisruptive_md5 :
    ∃ r, Reachable md5Hash .insertion 1 r ∧
      r.getNode md5Hash "k2" = .ok "m" ∧
      ((r.addNode md5Hash .insertion "l").getNode md5Hash "k2" = .ok "l") ∧
      ((r.addNode md5Hash .insertion "l").removeNode "l").getNode md5Hash "k2" =
        r.getNode md5Hash "k2" := by
  obtain ⟨r, reachable, nodes, count, before, after⟩ := Runs.exists_of_exec
    (step md5Hash .insertion) (fun _ _ => True) (new 1)
    [.addNode "p", .addNode "m", .addNode "c", .removeNode "p"]
    (P := fun r => r.nodeMap = {"c", "m"} ∧ r.virtualNodes = 1 ∧
      r.getNode md5Hash "k2" = .ok "m" ∧
      (r.addNode md5Hash .insertion "l").getNode md5Hash "k2" = .ok "l")
    (by decide +kernel)
  have distinct : Distinct md5Hash r.virtualNodes r.nodeMap := by
    rw [nodes, count]
    decide +kernel
  have new : "l" ∉ r.nodeMap := by
    rw [nodes]
    decide
  exact ⟨r, reachable, before, after, ((minimallyDisruptive reachable distinct).1 "l" new "k2").2⟩

end Hermes.Partition.ConsistentHashRing
