import Hermes.Membership.Convergence

/-!
# Handling SWIM messages

A node handles the messages that it receives one by one: it first applies the updates that
came along, except those about itself, and then does what the message asks for.  Suspicion
levels are real numbers computed from past heartbeats; what matters here is only whether a
heartbeat takes the level of its sender below the threshold again.
-/

namespace Hermes.Membership

open Raft (NodeID)

structure SWIMConfig where
  nodeID : NodeID
  gossipFanout : ℕ := 8
  deriving DecidableEq, Repr

inductive SWIMMessageType where
  | ping
  | pingAck
  | pingReq
  | pingReqAck
  deriving DecidableEq, Repr

structure SWIMMessage where
  type : SWIMMessageType
  fromID : NodeID
  toID : NodeID
  /-- Whom to ping on behalf of the sender. -/
  target : NodeID := ""
  seqNum : UInt64 := 0
  updates : List GossipUpdate := []
  deriving DecidableEq, Repr

/-- The node keeps the member list of its own name. -/
structure SWIM where
  config : SWIMConfig
  memberList : MemberList
  seqNum : UInt64 := 0
  pendingPings : Finset UInt64 := ∅
  localID_eq : memberList.localID = config.nodeID

/-- What a handler does besides changing the node: it sends messages and tells the probe that
waits for an answer about it. -/
inductive Effect where
  | send (msg : SWIMMessage)
  | answer (seqNum : UInt64) (acked : Bool)
  deriving DecidableEq, Repr

/-- What decides how a message is handled besides the node and the message. -/
structure Surroundings where
  now : Int
  /-- The heartbeat takes the suspicion level of the sender below the threshold. -/
  revived : Bool := false
  /-- A ping on behalf of another node is sent and answered in time. -/
  reached : Bool := false
  deriving DecidableEq, Repr

namespace MemberList

variable (ml : MemberList)

@[simp]
theorem localID_applyUpdate (update : GossipUpdate) (now : Int) :
    (ml.applyUpdate update now).1.localID = ml.localID := by
  have applies := applyUpdate_applies ml update now
  generalize (ml.applyUpdate update now).1 = ml' at applies
  cases applies <;> rfl

@[simp]
theorem localID_applyUpdates (updates : List (GossipUpdate × Int)) :
    (ml.applyUpdates updates).localID = ml.localID := by
  induction updates generalizing ml with
  | nil => rfl
  | cons update rest ih => exact (ih _).trans (localID_applyUpdate ml update.1 update.2)

/-- One round of the loop over the updates of a message: a node that takes itself for
suspected refutes, whatever the update about it says. -/
def receive (nodeID : NodeID) (now : Int) (update : GossipUpdate) : MemberList :=
  if update.nodeID = nodeID then
    match ml.members.lookup nodeID with
    | some m =>
      if m.state = .suspected then
        let (refutation, ml) := ml.refuteSuspicion
        (ml.applyUpdate refutation now).1
      else ml
    | none => ml
  else (ml.applyUpdate update now).1

@[simp]
theorem localID_receive (nodeID : NodeID) (now : Int) (update : GossipUpdate) :
    (ml.receive nodeID now update).localID = ml.localID := by
  unfold receive
  split
  · split
    · split
      · exact localID_applyUpdate _ _ _
      · rfl
    · rfl
  · exact localID_applyUpdate _ _ _

@[simp]
theorem localID_foldl_receive (nodeID : NodeID) (now : Int) (updates : List GossipUpdate) :
    (updates.foldl (receive · nodeID now) ml).localID = ml.localID := by
  induction updates generalizing ml with
  | nil => rfl
  | cons update rest ih => rw [List.foldl_cons, ih, localID_receive]

end MemberList

namespace SWIM

variable (s : SWIM) (around : Surroundings) (msg : SWIMMessage)

/-- The updates of a message are applied first. -/
def applyGossip : SWIM :=
  { s with
    memberList := msg.updates.foldl (MemberList.receive · s.config.nodeID around.now) s.memberList
    localID_eq := (MemberList.localID_foldl_receive _ _ _ _).trans s.localID_eq }

/-- `Heartbeat` with the callback `OnAlive`, whose update has incarnation zero. -/
def heartbeat (nodeID : NodeID) : SWIM :=
  if around.revived then
    { s with
      memberList := (s.memberList.applyUpdate
        { nodeID := nodeID, state := .alive, incarnation := 0 } around.now).1
      localID_eq := (MemberList.localID_applyUpdate _ _ _).trans s.localID_eq }
  else s

def handlePing : SWIM × List Effect :=
  let s := s.heartbeat around msg.fromID
  (s, [.send
    { type := .pingAck
      fromID := s.config.nodeID
      toID := msg.fromID
      seqNum := msg.seqNum
      updates := s.memberList.recentUpdatesUpTo s.config.gossipFanout }])

/-- The part that `handlePingAck` and `handlePingReqAck` share: the waiting probe, if there
is one, gets its answer. -/
def answerPending (acked : Bool) : SWIM × List Effect :=
  if msg.seqNum ∈ s.pendingPings then
    ({ s with pendingPings := s.pendingPings.erase msg.seqNum }, [.answer msg.seqNum acked])
  else (s, [])

def handlePingAck : SWIM × List Effect :=
  let (s, effects) := s.answerPending msg true
  (s.heartbeat around msg.fromID, effects)

/-- `handlePingReq` pings the target and reports back; that the target was not reached is
told by an update that suspects it. -/
def handlePingReq : SWIM × List Effect :=
  if msg.target = "" then (s, [])
  else
    let seq := s.seqNum + 1
    let updates := s.memberList.recentUpdatesUpTo s.config.gossipFanout
    let failure : List GossipUpdate :=
      if around.reached then []
      else [{ nodeID := msg.target, state := .suspected, incarnation := 0 }]
    ({ s with seqNum := seq, pendingPings := s.pendingPings.erase seq },
      [.send
        { type := .ping
          fromID := s.config.nodeID
          toID := msg.target
          seqNum := seq
          updates := updates },
      .send
        { type := .pingReqAck
          fromID := s.config.nodeID
          toID := msg.fromID
          target := msg.target
          seqNum := msg.seqNum
          updates := updates ++ failure }])

def handlePingReqAck : SWIM × List Effect :=
  let reached := !msg.updates.any fun update =>
    update.nodeID = msg.target ∧ update.state = .suspected
  s.answerPending msg reached

def handleMessage : SWIM × List Effect :=
  let s := s.applyGossip around msg
  match msg.type with
  | .ping => s.handlePing around msg
  | .pingAck => s.handlePingAck around msg
  | .pingReq => s.handlePingReq around msg
  | .pingReqAck => s.handlePingReqAck msg

end SWIM

end Hermes.Membership
