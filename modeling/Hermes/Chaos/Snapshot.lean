import Hermes.Data.Runs

/-!
# Global snapshots

Each node has a coordinator that records the state of the node and of its incoming channels
and exchanges markers with the others.  The nodes are connected by channels that keep the
order of their messages; markers and messages of the application share them.
-/

namespace Hermes.Chaos

abbrev NodeID := String

structure SnapshotState (σ : Type) where
  nodeID : NodeID
  state : σ

/-- The messages on their way between two nodes. -/
structure ChannelState (μ : Type) where
  fromNode : NodeID
  toNode : NodeID
  messages : List μ

structure GlobalSnapshot (σ μ : Type) where
  snapshotID : String
  initiator : NodeID
  nodeStates : AList fun _ : NodeID => SnapshotState σ := ∅
  channelStates : AList fun _ : String => ChannelState μ := ∅

structure SnapshotCoordinator (σ μ : Type) where
  nodeID : NodeID
  nodes : List NodeID
  currentSnapshot : Option (GlobalSnapshot σ μ) := none
  stateRecorded : Bool := false
  markerReceived : AList fun _ : NodeID => Bool := ∅
  recordingFor : AList fun _ : NodeID => List μ := ∅

variable {σ μ : Type}

namespace SnapshotCoordinator

variable (c : SnapshotCoordinator σ μ)

/-- Whether a marker has come from a node. -/
def hasMarker (node : NodeID) : Bool :=
  (c.markerReceived.lookup node).getD false

/-- The messages that have been recorded for a channel. -/
def recorded (node : NodeID) : List μ :=
  (c.recordingFor.lookup node).getD []

def recordLocalState (state : σ) : SnapshotCoordinator σ μ :=
  { c with
    currentSnapshot := c.currentSnapshot.map fun snapshot =>
      { snapshot with nodeStates := snapshot.nodeStates.insert c.nodeID ⟨c.nodeID, state⟩ }
    stateRecorded := true }

/-- Begin a snapshot and record the state of the node. -/
def begin (snapshotID : String) (initiator : NodeID) (state : σ) : SnapshotCoordinator σ μ :=
  { c with
    currentSnapshot := some { snapshotID := snapshotID, initiator := initiator }
    markerReceived := ∅
    recordingFor := ∅ }.recordLocalState state

/-- `InitiateSnapshot`, with the nodes that a marker is sent to. -/
def initiateSnapshot (snapshotID : String) (state : σ) : SnapshotCoordinator σ μ × List NodeID :=
  (c.begin snapshotID c.nodeID state, c.nodes.filter fun node => node ≠ c.nodeID)

/-- Record that a marker has come and the messages that have come before it. -/
def recordChannel (sender : NodeID) : SnapshotCoordinator σ μ :=
  { c with
    markerReceived := c.markerReceived.insert sender true
    currentSnapshot := c.currentSnapshot.map fun snapshot =>
      { snapshot with
        channelStates := snapshot.channelStates.insert (sender ++ "→" ++ c.nodeID)
          ⟨sender, c.nodeID, c.recorded sender⟩ } }

/-- `checkCompletion`, with the snapshot that `onComplete` is called with. -/
def checkCompletion : SnapshotCoordinator σ μ × Option (GlobalSnapshot σ μ) :=
  if c.nodes.any fun node => node ≠ c.nodeID ∧ ¬ c.hasMarker node then (c, none)
  else
    ({ c with
      currentSnapshot := none
      stateRecorded := false
      markerReceived := ∅
      recordingFor := ∅ }, c.currentSnapshot)

/-- The part of `ReceiveMarker` that begins a snapshot with the first marker, with the nodes
that a marker is sent to. -/
def join (sender : NodeID) (snapshotID : String) (state : σ) :
    SnapshotCoordinator σ μ × List NodeID :=
  if c.currentSnapshot.any fun snapshot => snapshot.snapshotID = snapshotID then (c, [])
  else
    (c.begin snapshotID sender state,
      c.nodes.filter fun node => node ≠ c.nodeID ∧ node ≠ sender)

/-- `ReceiveMarker`, with the nodes that a marker is sent to and the snapshot that
`onComplete` is called with. -/
def receiveMarker (sender : NodeID) (snapshotID : String) (state : σ) :
    SnapshotCoordinator σ μ × List NodeID × Option (GlobalSnapshot σ μ) :=
  let (c, markers) := c.join sender snapshotID state
  let (c, complete) := (c.recordChannel sender).checkCompletion
  (c, markers, complete)

/-- `RecordMessage`. -/
def recordMessage (sender : NodeID) (msg : μ) : SnapshotCoordinator σ μ :=
  if c.currentSnapshot.isNone then c
  else if c.stateRecorded ∧ ¬ c.hasMarker sender then
    { c with recordingFor := c.recordingFor.insert sender (c.recorded sender ++ [msg]) }
  else c

end SnapshotCoordinator

/-! ## The nodes together -/

inductive Message (μ : Type) where
  | marker (snapshotID : String)
  | application (msg : μ)
  deriving DecidableEq, Repr

structure System (σ μ : Type) where
  coordinators : NodeID → SnapshotCoordinator σ μ
  /-- What is on its way from one node to another, the oldest first. -/
  channels : NodeID → NodeID → List (Message μ) := fun _ _ => []
  /-- The node that has initiated the snapshot. -/
  initiator : Option NodeID := none
  /-- The senders and receivers of the markers that have been received. -/
  received : List (NodeID × NodeID) := []
  /-- The calls of `onComplete`, with the nodes that have made them. -/
  completed : List (NodeID × GlobalSnapshot σ μ) := []

namespace System

variable (s : System σ μ)

/-- The nodes with their new coordinators. -/
def new (nodes : List NodeID) : System σ μ where
  coordinators node := { nodeID := node, nodes := nodes }

/-- Put a message at the end of a channel. -/
def enqueue (a b : NodeID) (message : Message μ) : System σ μ :=
  { s with
    channels := Function.update s.channels a
      (Function.update (s.channels a) b (s.channels a b ++ [message])) }

/-- Take the oldest message out of a channel. -/
def dequeue (a b : NodeID) : System σ μ :=
  { s with
    channels := Function.update s.channels a
      (Function.update (s.channels a) b (s.channels a b).tail) }

/-- Send a marker to some nodes. -/
def sendMarkers (a : NodeID) (nodes : List NodeID) (snapshotID : String) : System σ μ :=
  nodes.foldl (fun s b => s.enqueue a b (.marker snapshotID)) s

def setCoordinator (node : NodeID) (c : SnapshotCoordinator σ μ) : System σ μ :=
  { s with coordinators := Function.update s.coordinators node c }

inductive Event (σ μ : Type) where
  /-- A node initiates the snapshot in some state of the application. -/
  | initiate (node : NodeID) (snapshotID : String) (state : σ)
  /-- The application sends a message. -/
  | send (a b : NodeID) (msg : μ)
  /-- The oldest message of a channel is delivered. -/
  | deliver (a b : NodeID) (state : σ)

def initiate (node : NodeID) (snapshotID : String) (state : σ) : System σ μ :=
  let (c, markers) := (s.coordinators node).initiateSnapshot snapshotID state
  { s.setCoordinator node c with initiator := some node }.sendMarkers node markers snapshotID

/-- A marker is delivered. -/
def deliverMarker (a b : NodeID) (snapshotID : String) (state : σ) : System σ μ :=
  let (c, markers, complete) := (s.coordinators b).receiveMarker a snapshotID state
  let s := { (s.dequeue a b).setCoordinator b c with
    received := s.received ++ [(a, b)]
    completed := s.completed ++ (complete.map fun snapshot => (b, snapshot)).toList }
  s.sendMarkers b markers snapshotID

/-- A message of the application is delivered. -/
def deliverMessage (a b : NodeID) (msg : μ) : System σ μ :=
  (s.dequeue a b).setCoordinator b ((s.coordinators b).recordMessage a msg)

/-- An event among some nodes; the snapshot is initiated once. -/
def step (nodes : List NodeID) (s : System σ μ) : Event σ μ → Option (System σ μ)
  | .initiate node snapshotID state =>
    if node ∈ nodes ∧ s.initiator = none then some (s.initiate node snapshotID state) else none
  | .send a b msg =>
    if a ∈ nodes ∧ b ∈ nodes ∧ a ≠ b then some (s.enqueue a b (.application msg)) else none
  | .deliver a b state =>
    match s.channels a b with
    | [] => none
    | .marker snapshotID :: _ => some (s.deliverMarker a b snapshotID state)
    | .application msg :: _ => some (s.deliverMessage a b msg)

end System

end Hermes.Chaos
