import Hermes.Data.Merge

/-!
# Replicated data types

The counters, the register and the set of `pkg/consistency`.  A replica changes its own
copy and merges the copies of other replicas into it.  Maps are association lists without
repeated keys; two of them are equal as maps if they have the same entry for every key.
-/

namespace Hermes.Consistency

abbrev NodeID := String

/-! ## Counters -/

abbrev Counts := AList fun _ : NodeID => UInt64

structure GCounter where
  nodeID : NodeID
  counts : Counts

namespace GCounter

/-- `NewGCounter`. -/
def new (nodeID : NodeID) : GCounter :=
  { nodeID := nodeID, counts := AList.insert nodeID 0 ∅ }

/-- The count of a node, zero if the map does not have it. -/
def count (c : GCounter) (node : NodeID) : UInt64 :=
  (c.counts.lookup node).getD 0

def increment (c : GCounter) (n : UInt64) : GCounter :=
  { c with counts := c.counts.insert c.nodeID (c.count c.nodeID + n) }

/-- The sum of the counts, with the wrap-around of the type. -/
def value (c : GCounter) : UInt64 :=
  c.counts.entries.foldl (fun total entry => total + entry.2) 0

/-- One round of the loop of `Merge`. -/
def mergeEntry (counts : Counts) (entry : (_ : NodeID) × UInt64) : Counts :=
  match counts.lookup entry.1 with
  | none => counts.insert entry.1 entry.2
  | some existing => if entry.2 > existing then counts.insert entry.1 entry.2 else counts

def merge (c other : GCounter) : GCounter :=
  { c with counts := other.counts.entries.foldl mergeEntry c.counts }

/-- The map that is sent to other replicas. -/
def state (c : GCounter) : NodeID → Option UInt64 :=
  fun node => c.counts.lookup node

end GCounter

structure PNCounter where
  nodeID : NodeID
  positive : GCounter
  negative : GCounter

namespace PNCounter

/-- `NewPNCounter`. -/
def new (nodeID : NodeID) : PNCounter :=
  { nodeID := nodeID, positive := .new nodeID, negative := .new nodeID }

def increment (c : PNCounter) (n : UInt64) : PNCounter :=
  { c with positive := c.positive.increment n }

def decrement (c : PNCounter) (n : UInt64) : PNCounter :=
  { c with negative := c.negative.increment n }

def value (c : PNCounter) : Int64 :=
  c.positive.value.toInt64 - c.negative.value.toInt64

def merge (c other : PNCounter) : PNCounter :=
  { c with
    positive := c.positive.merge other.positive
    negative := c.negative.merge other.negative }

def state (c : PNCounter) : (NodeID → Option UInt64) × (NodeID → Option UInt64) :=
  (c.positive.state, c.negative.state)

end PNCounter

/-! ## Registers -/

/-- A register; a value of the interface type is `none` for nil. -/
structure LWWRegister (V : Type*) where
  nodeID : NodeID
  value : Option V
  timestamp : Int64
  writerID : String

namespace LWWRegister

variable {V : Type*}

/-- `NewLWWRegister`. -/
def new (nodeID : NodeID) : LWWRegister V :=
  { nodeID := nodeID, value := none, timestamp := 0, writerID := "" }

/-- `Set`, at the time that the clock shows. -/
def set (r : LWWRegister V) (value : Option V) (now : Int64) : LWWRegister V :=
  { r with value := value, timestamp := now, writerID := r.nodeID }

def get (r : LWWRegister V) : Option V × Int64 :=
  (r.value, r.timestamp)

def merge (r other : LWWRegister V) : LWWRegister V :=
  if other.timestamp > r.timestamp then
    { r with value := other.value, timestamp := other.timestamp, writerID := other.writerID }
  else if other.timestamp = r.timestamp ∧ other.writerID > r.writerID then
    { r with value := other.value, writerID := other.writerID }
  else r

/-- Everything of a register but the name of the replica that holds it. -/
def state (r : LWWRegister V) : Option V × Int64 × String :=
  (r.value, r.timestamp, r.writerID)

/-- Registers that have been written by one writer at one time have the same value. -/
def Consistent (registers : Set (LWWRegister V)) : Prop :=
  ∀ a ∈ registers, ∀ b ∈ registers, a.timestamp = b.timestamp → a.writerID = b.writerID →
    a.value = b.value

end LWWRegister

/-! ## Sets -/

/-- The tags of an element; a tag that has been removed is kept as `true`. -/
abbrev Tags := AList fun _ : UInt64 => Bool

structure ORSet where
  nodeID : NodeID
  nextTag : UInt64
  elements : AList fun _ : String => Tags

namespace ORSet

/-- `NewORSet`. -/
def new (nodeID : NodeID) : ORSet :=
  { nodeID := nodeID, nextTag := 0, elements := ∅ }

/-- The tags of an element, none if the map does not have it. -/
def tags (s : ORSet) (element : String) : Tags :=
  (s.elements.lookup element).getD ∅

def add (s : ORSet) (element : String) : ORSet :=
  { s with
    nextTag := s.nextTag + 1
    elements := s.elements.insert element ((s.tags element).insert (s.nextTag + 1) false) }

/-- The loop of `Remove` over the tags of the element. -/
def markRemoved (tags : Tags) : Tags :=
  tags.entries.foldl (fun marked entry => marked.insert entry.1 true) tags

def remove (s : ORSet) (element : String) : ORSet :=
  match s.elements.lookup element with
  | none => s
  | some tags => { s with elements := s.elements.insert element (markRemoved tags) }

/-- Some tag has not been removed. -/
def live (tags : Tags) : Bool :=
  tags.entries.any fun entry => !entry.2

def contains (s : ORSet) (element : String) : Bool :=
  match s.elements.lookup element with
  | none => false
  | some tags => live tags

/-- One round of the inner loop of `Merge`. -/
def mergeTag (tags : Tags) (entry : (_ : UInt64) × Bool) : Tags :=
  match tags.lookup entry.1 with
  | some existing => tags.insert entry.1 (existing || entry.2)
  | none => tags.insert entry.1 entry.2

/-- One round of the outer loop of `Merge`. -/
def mergeElement (elements : AList fun _ : String => Tags) (entry : (_ : String) × Tags) :
    AList fun _ : String => Tags :=
  elements.insert entry.1
    (entry.2.entries.foldl mergeTag ((elements.lookup entry.1).getD ∅))

def merge (s other : ORSet) : ORSet :=
  { s with elements := other.elements.entries.foldl mergeElement s.elements }

/-- The elements with their tags, as maps. -/
def state (s : ORSet) : String → Option (UInt64 → Option Bool) :=
  fun element => (s.elements.lookup element).map fun tags tag => tags.lookup tag

end ORSet

end Hermes.Consistency
