import Hermes.Server.Wire

/-!
# Remote calls of one node

The handlers of the Raft calls of a node run next to each other and next to the loop of
its `RaftNode`.  A handler puts a channel of its own into the map `pending`, under the name
of the calling peer, steps the message of its call into the node and waits.  The loop hands
the messages that the state machine emits to `Send`, which takes the channel of the peer
out of the map and sends an answer to it.

The state also records, for every message, which call it belongs to: the number of the
call, or nothing for messages that no call stepped in.  The code does not have these
numbers.  `Send` goes through the messages of a round one by one; the entries that the
round commits are applied before that instead of after it.
-/

open Hermes.Raft (NodeID Message LogEntry RaftNode StateMachine Panic)

namespace Hermes.Server

variable {σ : Type} (sm : StateMachine σ)

/-! ## Rounds of the loop -/

/-- What the loop of `run` receives. -/
inductive Input where
  | tick
  | step (m : Message)
  | propose (entries : List LogEntry)

/-- Receive something and take what is ready then: the messages to send. -/
def round (n : RaftNode σ) (input : Input) : Except Panic (List Message × RaftNode σ) := do
  let n ← (match input with
    | .tick => n.tick
    | .step m => n.step m
    | .propose entries => n.step (n.proposal entries))
  let (ready, n) ← n.ready sm
  return (ready.messages, n)

/-! ## Calls -/

/-- A message and the call it belongs to. -/
abbrev Tagged := Message × Option ℕ

/-- How far the handler of a call is. -/
inductive Phase where
  /-- The channel is in the map, the message is not stepped in. -/
  | registered
  | waiting
  /-- With an answer, or with an error. -/
  | returned (answer : Option Tagged)
  deriving DecidableEq, Repr

def Phase.isOpen : Phase → Bool
  | .registered | .waiting => true
  | .returned _ => false

/-- One run of a handler. -/
structure Call where
  req : Request
  phase : Phase := .registered
  channel : Option Tagged := none
  deriving DecidableEq, Repr

/-- The name under which a handler registers its channel. -/
def Request.peer : Request → NodeID
  | .appendEntries req => req.leaderId
  | .requestVote req => req.candidateId

/-- A node with its handlers and its transport. -/
structure Endpoint (σ : Type) where
  nodeID : NodeID
  node : RaftNode σ
  /-- The peers that the connection pool has a client for. -/
  pool : NodeID → Bool
  calls : List Call := []
  pending : NodeID → Option ℕ := fun _ => none
  stepCh : List Tagged := []
  /-- The messages that `Send` has yet to go through. -/
  outbox : List Tagged := []
  /-- The calls that were open when `Send` was done with an answer to them, and did not get
  it. -/
  lost : List ℕ := []

namespace Endpoint

inductive Event where
  /-- A handler starts. -/
  | register (req : Request)
  /-- A handler steps its message in. -/
  | submit (call : ℕ)
  /-- A handler returns the error of its context or of the node. -/
  | giveUp (call : ℕ)
  /-- A handler returns what its channel holds. -/
  | receive (call : ℕ)
  /-- Something else than a handler steps a message in. -/
  | enqueue (m : Message)
  | tick
  | propose (entries : List LogEntry)
  /-- The loop receives the next message that was stepped in. -/
  | stepNext
  /-- `Send` gets to its next message. -/
  | sendNext
  | addPeer (peer : NodeID)
  | removePeer (peer : NodeID)

/-- The capacity of `stepCh`. -/
def stepChCap : ℕ := 256

/-- `Step` of the node blocks while the channel is full. -/
def pushStep (s : Endpoint σ) (m : Tagged) : Option (Endpoint σ) :=
  if s.stepCh.length < stepChCap then some { s with stepCh := s.stepCh ++ [m] } else none

/-- The messages of a round are to be sent. -/
def emitting (s : Endpoint σ) (node : RaftNode σ) (messages : List Message) (tag : Option ℕ) :
    Endpoint σ :=
  { s with node := node, outbox := messages.map fun x => (x, tag) }

/-- A round of the loop, which has to be done with the messages of the last one.  What it
sends belongs to the call of what it received. -/
def loop (s : Endpoint σ) (input : Input) (tag : Option ℕ) : Option (Endpoint σ) :=
  if s.outbox = [] then
    (round sm s.node input).toOption.map fun (messages, node) => s.emitting node messages tag
  else none

/-- A handler puts a new channel into the map, over the one that is there. -/
def registering (s : Endpoint σ) (req : Request) : Endpoint σ :=
  { s with
    calls := s.calls ++ [{ req := req }]
    pending := Function.update s.pending req.peer (some s.calls.length) }

def setPhase (s : Endpoint σ) (i : ℕ) (phase : Phase) : Endpoint σ :=
  { s with calls := s.calls.modify i fun call => { call with phase := phase } }

def isOpen (s : Endpoint σ) (i : ℕ) : Bool :=
  (s.calls[i]?).any fun call => call.phase.isOpen

/-- The call whose channel `Send` finds for an answer. -/
def target (s : Endpoint σ) (x : Message) : Option ℕ :=
  if s.pool x.toID then s.pending x.toID else none

/-- Record that an answer did not reach the call that it belongs to. -/
def account (s : Endpoint σ) (answer : Tagged) : List ℕ :=
  match answer.2 with
  | some i => if s.isOpen i ∧ s.target answer.1 ≠ some i then s.lost ++ [i] else s.lost
  | none => s.lost

/-- The channel of the call `j` leaves the map and gets the answer. -/
def handOver (s : Endpoint σ) (answer : Tagged) (j : ℕ) : Endpoint σ :=
  { s with
    pending := Function.update s.pending answer.1.toID none
    calls := s.calls.modify j fun call => { call with channel := some answer } }

/-- `Send` with an answer. -/
def deliver (s : Endpoint σ) (answer : Tagged) : Endpoint σ :=
  let lost := s.account answer
  match s.target answer.1 with
  | none => { s with lost := lost }
  | some j => { s.handOver answer j with lost := lost }

/-- What an event does, if it can happen.  What `Send` does with other messages than
answers does not concern the handlers. -/
def step (s : Endpoint σ) : Event → Option (Endpoint σ)
  | .register req => some (s.registering req)
  | .submit i => do
    let call ← s.calls[i]?
    if call.phase = .registered then
      (s.setPhase i .waiting).pushStep (call.req.message s.nodeID, some i)
    else none
  | .giveUp i => do
    let call ← s.calls[i]?
    if call.phase.isOpen then
      some (s.setPhase i (.returned none))
    else none
  | .receive i => do
    let call ← s.calls[i]?
    let answer ← call.channel
    if call.phase = .waiting then
      some (s.setPhase i (.returned (some answer)))
    else none
  | .enqueue m => if m.type.isRequest then none else s.pushStep (m, none)
  | .tick => s.loop sm .tick none
  | .propose entries => s.loop sm (.propose entries) none
  | .stepNext =>
    match s.stepCh with
    | [] => none
    | (m, tag) :: rest => { s with stepCh := rest }.loop sm (.step m) tag
  | .sendNext =>
    match s.outbox with
    | [] => none
    | (x, tag) :: rest =>
      let s := { s with outbox := rest }
      some (if x.type.isResponse then s.deliver (x, tag) else s)
  | .addPeer peer => some { s with pool := Function.update s.pool peer true }
  | .removePeer peer => some { s with pool := Function.update s.pool peer false }

/-- A node that was just created. -/
def start (nodeID : NodeID) (node : RaftNode σ) (pool : NodeID → Bool) : Endpoint σ where
  nodeID := nodeID
  node := node
  pool := pool

end Endpoint

end Hermes.Server
