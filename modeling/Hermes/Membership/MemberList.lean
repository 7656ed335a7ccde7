import Hermes.Raft.Log

/-!
# The member list of a node

Every node keeps its own view of the cluster, which gossip updates change one
member at a time.  A member is filed under its own identifier, and the node itself
is never removed from its list.  Times are counted in nanoseconds.
-/

namespace Hermes.Membership

open Raft (NodeID)

inductive MemberState where
  | alive
  | suspected
  | dead
  | left
  deriving DecidableEq, Repr

structure Member where
  nodeID : NodeID
  address : String := ""
  state : MemberState
  incarnation : UInt64
  lastSeen : Int
  deriving DecidableEq, Repr

/-- The table `statePriority` of `Supersedes`. -/
def MemberState.priority : MemberState → Nat
  | .alive => 0
  | .suspected => 1
  | .dead => 2
  | .left => 3

/-- `Supersedes`: the higher incarnation wins, then the more severe state. -/
def Member.supersedes (m other : Member) : Bool :=
  if m.nodeID ≠ other.nodeID then false
  else if m.incarnation > other.incarnation then true
  else if m.incarnation < other.incarnation then false
  else decide (m.state.priority > other.state.priority)

structure GossipUpdate where
  nodeID : NodeID
  state : MemberState
  incarnation : UInt64
  address : String := ""
  deriving DecidableEq, Repr

/-- The callbacks that a change of the list starts. -/
inductive Notification where
  | join (m : Member)
  | leave (m : Member)
  | suspect (m : Member)
  | dead (m : Member)
  deriving DecidableEq, Repr

structure MemberList where
  localID : NodeID
  members : AList fun _ : NodeID => Member
  recentUpdates : List GossipUpdate := []
  nodeID_eq : ∀ {id member}, members.lookup id = some member → member.nodeID = id
  localID_mem : localID ∈ members

namespace MemberList

/-- `NewMemberList`. -/
def new (localID : NodeID) (now : Int) : MemberList where
  localID := localID
  members := (∅ : AList fun _ : NodeID => Member).insert localID
    { nodeID := localID, state := .alive, incarnation := 1, lastSeen := now }
  nodeID_eq {id member} known := by
    by_cases self : id = localID
    · subst self
      rw [AList.lookup_insert] at known
      cases known
      rfl
    · rw [AList.lookup_insert_ne self] at known
      nomatch known
  localID_mem := AList.mem_insert _ |>.mpr (.inl rfl)

variable (ml : MemberList)

/-- File a member under its identifier. -/
def put (m : Member) : MemberList where
  localID := ml.localID
  members := ml.members.insert m.nodeID m
  recentUpdates := ml.recentUpdates
  nodeID_eq {id member} known := by
    by_cases same : id = m.nodeID
    · subst same
      rw [AList.lookup_insert] at known
      cases known
      rfl
    · rw [AList.lookup_insert_ne same] at known
      exact ml.nodeID_eq known
  localID_mem := by simp [ml.localID_mem]

/-- `queueUpdate` keeps the last 64 updates. -/
def queueUpdate (update : GossipUpdate) : MemberList :=
  let recent := ml.recentUpdates ++ [update]
  { ml with recentUpdates := if recent.length > 64 then recent.tail else recent }

/-- `RecentUpdates`, which reads the queue from its old end. -/
def recentUpdatesUpTo (max : ℕ) : List GossipUpdate :=
  ml.recentUpdates.take max

/-- `ApplyUpdate`, with the callback that it starts. -/
def applyUpdate (update : GossipUpdate) (now : Int) :
    MemberList × Bool × Option Notification :=
  let newMember : Member :=
    { nodeID := update.nodeID
      address := update.address
      state := update.state
      incarnation := update.incarnation
      lastSeen := now }
  match ml.members.lookup update.nodeID with
  | none => ((ml.put newMember).queueUpdate update, true, some (.join newMember))
  | some existing =>
    if !newMember.supersedes existing then (ml, false, none)
    else if existing.state = newMember.state then (ml.put newMember, true, none)
    else
      let notification :=
        match newMember.state with
        | .suspected => some (.suspect newMember)
        | .dead => some (.dead newMember)
        | .left => some (.leave newMember)
        | .alive =>
          if existing.state = .suspected ∨ existing.state = .dead then
            some (.join newMember)
          else none
      ((ml.put newMember).queueUpdate update, true, notification)

/-- `SuspectNode` changes the state before it applies the update, which is
therefore never news. -/
def suspectNode (nodeID : NodeID) (now : Int) : MemberList × Bool × Option Notification :=
  match ml.members.lookup nodeID with
  | none => (ml, false, none)
  | some member =>
    if member.state ≠ .alive then (ml, false, none)
    else
      (ml.put { member with state := .suspected }).applyUpdate
        { nodeID := nodeID
          state := .suspected
          incarnation := member.incarnation
          address := member.address } now

/-- `ConfirmDead`, which does the same for the state `dead`. -/
def confirmDead (nodeID : NodeID) (now : Int) : MemberList × Bool × Option Notification :=
  match ml.members.lookup nodeID with
  | none => (ml, false, none)
  | some member =>
    if member.state = .dead then (ml, false, none)
    else
      (ml.put { member with state := .dead }).applyUpdate
        { nodeID := nodeID, state := .dead, incarnation := member.incarnation } now

/-- The node's own record. -/
def self : Member :=
  (ml.members.lookup ml.localID).get (AList.lookup_isSome.mpr ml.localID_mem)

theorem lookup_localID : ml.members.lookup ml.localID = some ml.self :=
  (Option.some_get _).symm

@[simp]
theorem self_nodeID : ml.self.nodeID = ml.localID :=
  ml.nodeID_eq ml.lookup_localID

/-- `RefuteSuspicion`. -/
def refuteSuspicion : GossipUpdate × MemberList :=
  let self := { ml.self with incarnation := ml.self.incarnation + 1, state := .alive }
  ({ nodeID := ml.localID
     state := .alive
     incarnation := self.incarnation
     address := self.address }, ml.put self)

/-- `Alive`, in the order in which the map is walked. -/
def alive : List Member :=
  (ml.members.entries.map Sigma.snd).filter fun m => decide (m.state = .alive)

/-! ## Views -/

theorem nodup_alive : (ml.alive.map Member.nodeID).Nodup := by
  have filed : ml.members.entries.map (fun entry => entry.2.nodeID) = ml.members.keys := by
    apply List.map_congr_left
    rintro ⟨id, member⟩ mem
    exact ml.nodeID_eq (AList.mem_lookup_iff.mpr mem)
  have sub : (ml.alive.map Member.nodeID).Sublist
      (ml.members.entries.map fun entry => entry.2.nodeID) := by
    rw [← Function.comp_def Member.nodeID, ← List.map_map]
    exact List.filter_sublist.map _
  rw [filed] at sub
  exact sub.nodup ml.members.keys_nodup

end MemberList

end Hermes.Membership
