import Hermes.Data.Causality
import Hermes.Data.Merge

/-!
# Vector clocks

The vector clock of a node and the comparison of two vectors.  A vector is a map; a node
that it does not mention counts as zero.
-/

namespace Hermes.Clock

open AList List

abbrev NodeID := String

abbrev TimeVector := AList fun _ : NodeID => Int64

/-- The number of a node in a vector. -/
def TimeVector.time (vector : TimeVector) (node : NodeID) : Int64 :=
  (vector.lookup node).getD 0

structure VectorClock where
  nodeID : NodeID
  vector : TimeVector

namespace VectorClock

/-- `NewVectorClock`. -/
def new (nodeID : NodeID) (initialPeers : List NodeID) : VectorClock :=
  { nodeID := nodeID
    vector := initialPeers.foldl (fun vector peer => vector.insert peer 0)
      (AList.insert nodeID 0 ∅) }

/-- Increment the number of the node itself. -/
def increment (vc : VectorClock) : VectorClock :=
  { vc with vector := vc.vector.insert vc.nodeID (TimeVector.time vc.vector vc.nodeID + 1) }

def tick (vc : VectorClock) : VectorClock × TimeVector :=
  (vc.increment, vc.increment.vector)

def send (vc : VectorClock) : VectorClock × TimeVector :=
  (vc.increment, vc.increment.vector)

/-- One round of the loop of `Receive`. -/
def mergeEntry (vector : TimeVector) (entry : (_ : NodeID) × Int64) : TimeVector :=
  match vector.lookup entry.1 with
  | none => vector.insert entry.1 entry.2
  | some localTime => if entry.2 > localTime then vector.insert entry.1 entry.2 else vector

/-- The loop of `Receive`. -/
def merge (vc : VectorClock) (received : TimeVector) : VectorClock :=
  { vc with vector := received.entries.foldl mergeEntry vc.vector }

def receive (vc : VectorClock) (received : TimeVector) : VectorClock × TimeVector :=
  ((vc.merge received).increment, (vc.merge received).increment.vector)

end VectorClock

inductive Relation where
  | before
  | after
  | concurrent
  | equal
  deriving DecidableEq, Repr

/-- The loop of `Compare` over the nodes that are left. -/
def compareFrom (a b : TimeVector) : (aLessInSome bLessInSome : Bool) → List NodeID → Relation
  | aLessInSome, bLessInSome, [] =>
    if !aLessInSome && !bLessInSome then .equal
    else if aLessInSome then .before
    else .after
  | aLessInSome, bLessInSome, node :: rest =>
    let aVal := a.time node
    let bVal := b.time node
    let (aLessInSome, bLessInSome) :=
      if aVal < bVal then (true, bLessInSome)
      else if bVal < aVal then (aLessInSome, true)
      else (aLessInSome, bLessInSome)
    if aLessInSome && bLessInSome then .concurrent
    else compareFrom a b aLessInSome bLessInSome rest

/-- `Compare`. -/
def compare (a b : TimeVector) : Relation :=
  compareFrom a b false false (a.keys ∪ b.keys)

/-! ## Comparing -/

/-- The relation of two vectors by where each is less than the other. -/
def verdict (aLess bLess : Bool) : Relation :=
  if aLess && bLess then .concurrent
  else if !aLess && !bLess then .equal
  else if aLess then .before
  else .after

variable {aLess bLess : Bool}

theorem compareFrom_eq {a b : TimeVector} (nodes : List NodeID)
    (undecided : (aLess && bLess) = false) :
    compareFrom a b aLess bLess nodes =
      verdict (aLess || nodes.any fun node => a.time node < b.time node)
        (bLess || nodes.any fun node => b.time node < a.time node) := by
  induction nodes generalizing aLess bLess with
  | nil =>
    rw [compareFrom, verdict]
    simp [undecided]
  | cons node rest ih =>
    rw [compareFrom]
    by_cases less : a.time node < b.time node
    · have notMore : ¬ b.time node < a.time node := Int64.lt_asymm less
      cases bLess with
      | true => simp [verdict, less]
      | false => simp [ih, less, notMore]
    · by_cases more : b.time node < a.time node
      · cases aLess with
        | true => simp [verdict, less, more]
        | false => simp [ih, less, more]
      · simp [ih, less, more, undecided]

theorem compare_eq (a b : TimeVector)
    (a_less : aLess = true ↔ ∃ node, a.time node < b.time node)
    (b_less : bLess = true ↔ ∃ node, b.time node < a.time node) :
    compare a b = verdict aLess bLess := by
  have mentioned : ∀ node, a.time node ≠ b.time node → node ∈ a.keys ∪ b.keys := by
    intro node differ
    rw [mem_union_iff, ← AList.mem_keys, ← AList.mem_keys]
    by_contra absent
    rw [not_or, ← lookup_eq_none, ← lookup_eq_none] at absent
    unfold TimeVector.time at differ
    rw [absent.1, absent.2] at differ
    exact differ rfl
  have any_less : ((a.keys ∪ b.keys).any fun node => a.time node < b.time node) = aLess := by
    rw [Bool.eq_iff_iff, any_eq_true, a_less]
    constructor
    · rintro ⟨node, -, less⟩
      exact ⟨node, of_decide_eq_true less⟩
    · rintro ⟨node, less⟩
      exact ⟨node, mentioned node (Int64.ne_of_lt less), decide_eq_true less⟩
  have any_more : ((a.keys ∪ b.keys).any fun node => b.time node < a.time node) = bLess := by
    rw [Bool.eq_iff_iff, any_eq_true, b_less]
    constructor
    · rintro ⟨node, -, more⟩
      exact ⟨node, of_decide_eq_true more⟩
    · rintro ⟨node, more⟩
      exact ⟨node, mentioned node (Int64.ne_of_lt more).symm, decide_eq_true more⟩
  rw [compare, compareFrom_eq _ rfl, any_less, any_more, Bool.false_or, Bool.false_or]

/-! ## Vectors as functions -/

/-- A vector has the numbers of a function. -/
def TimeVector.Represents (vector : TimeVector) (times : NodeID → ℕ) : Prop :=
  ∀ node, (vector.time node).toInt = times node

open TimeVector

theorem time_insert (vector : TimeVector) (node other : NodeID) (t : Int64) :
    time (vector.insert node t) other = if other = node then t else vector.time other := by
  rw [time, Merge.lookup_insert_ite]
  split <;> rfl

theorem VectorClock.represents_new (nodeID : NodeID) (initialPeers : List NodeID) :
    Represents (new nodeID initialPeers).vector fun _ => 0 := by
  have zero : ∀ (vector : TimeVector), (∀ node, vector.time node = 0) →
      ∀ node, TimeVector.time (initialPeers.foldl (fun vector peer => vector.insert peer 0) vector)
        node = 0 := by
    induction initialPeers with
    | nil => exact fun _ zero => zero
    | cons peer rest ih =>
      intro vector zero
      apply ih
      intro node
      rw [time_insert, zero]
      split <;> rfl
  intro node
  rw [new, zero]
  · rfl
  · intro node
    rw [time_insert]
    split <;> rfl

/-- One round of the loop of `Receive` takes the maximum at one node. -/
theorem toInt_mergeEntry (vector : TimeVector) {entry : (_ : NodeID) × Int64}
    (nonneg : 0 ≤ entry.2.toInt) (node : NodeID) :
    (time (VectorClock.mergeEntry vector entry) node).toInt =
      if node = entry.1 then max (vector.time node).toInt entry.2.toInt
      else (vector.time node).toInt := by
  unfold VectorClock.mergeEntry
  split
  · rename_i absent
    rw [time_insert]
    split
    · rename_i same
      have unset : vector.time node = 0 := by
        rw [same, time, absent]
        rfl
      rw [unset]
      exact (max_eq_right nonneg).symm
    · rfl
  · rename_i localTime present
    have set : vector.time entry.1 = localTime := by
      rw [time, present]
      rfl
    split
    · rename_i later
      rw [gt_iff_lt, Int64.lt_iff_toInt_lt] at later
      rw [time_insert]
      split
      · rename_i same
        rw [same, set]
        omega
      · rfl
    · rename_i earlier
      rw [gt_iff_lt, Int64.lt_iff_toInt_lt] at earlier
      split
      · rename_i same
        rw [same, set]
        omega
      · rfl

theorem toInt_foldl_mergeEntry {entries : List ((_ : NodeID) × Int64)}
    (nodup : entries.NodupKeys) (nonneg : ∀ entry ∈ entries, 0 ≤ entry.2.toInt)
    {vector : TimeVector} {node : NodeID} (current : 0 ≤ (vector.time node).toInt) :
    (time (entries.foldl VectorClock.mergeEntry vector) node).toInt =
      max (vector.time node).toInt ((entries.dlookup node).getD 0).toInt := by
  induction entries generalizing vector with
  | nil => exact (max_eq_left current).symm
  | cons entry rest ih =>
    have merged := toInt_mergeEntry vector (nonneg entry mem_cons_self) node
    rw [nodupKeys_cons] at nodup
    rw [foldl_cons, ih nodup.2 fun entry mem => nonneg entry (mem_cons_of_mem _ mem)]
    · by_cases here : node = entry.1
      · subst here
        rw [merged, if_pos rfl, dlookup_cons_eq, dlookup_eq_none.mpr nodup.1]
        show max (max _ _) 0 = max _ entry.2.toInt
        omega
      · rw [merged, if_neg here, dlookup_cons_ne _ _ here]
    · rw [merged]
      split <;> omega

variable {vc : VectorClock}

/-- `Receive` takes the maximum of the two vectors. -/
theorem represents_merge {received : TimeVector} {times news : NodeID → ℕ}
    (current : vc.vector.Represents times) (arrived : received.Represents news) :
    Represents (vc.merge received).vector (times ⊔ news) := by
  have nonneg : ∀ entry ∈ received.entries, 0 ≤ entry.2.toInt := by
    intro entry mem
    have found : received.lookup entry.1 = some entry.2 := mem_lookup_iff.mpr mem
    have value : received.time entry.1 = entry.2 := by
      rw [time, found]
      rfl
    rw [← value, arrived]
    exact Int.natCast_nonneg _
  intro node
  have value : (received.entries.dlookup node).getD 0 = received.time node := rfl
  unfold VectorClock.merge
  rw [toInt_foldl_mergeEntry received.nodupKeys nonneg
      (by rw [current]; exact Int.natCast_nonneg _),
    value, current, arrived, Pi.sup_apply]
  omega

/-- Incrementing the number of the node, as long as it does not overflow. -/
theorem represents_increment {times : NodeID → ℕ} (current : vc.vector.Represents times)
    (small : times vc.nodeID + 1 < 2 ^ 63) :
    Represents vc.increment.vector (Function.update times vc.nodeID (times vc.nodeID + 1)) := by
  intro node
  unfold VectorClock.increment
  rw [time_insert]
  split
  · rename_i own
    subst own
    rw [Function.update_self, Int64.toInt_add, current]
    show ((times vc.nodeID : ℤ) + 1).bmod (2 ^ 64) = _
    rw [Int.bmod_eq_of_le_mul_two] <;> omega
  · rename_i other
    rw [Function.update_of_ne other]
    exact current node

end Hermes.Clock
