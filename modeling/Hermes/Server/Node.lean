import Hermes.Raft.Cluster
import Hermes.Server.Wire
import Hermes.Storage.Command
import Hermes.Storage.LastWrite

/-!
# Nodes that serve clients

A node applies the committed commands of the replicated log to its storage engine.
Writes are proposed to the log; reads are answered from the node's own engine, after
checks that are meant to make sure that the node is still the leader.

The nodes talk to each other through the transport and the handlers of `Server.Wire`.  As
handlers tell the answers of their node apart by the peer only, a call may return any of
those that the node has sent to the peer.

Calls take several steps, between which anything may happen.  A call that the rate
limiter or the circuit breaker turns away does nothing and is left out.  Which leader
changes a node gets to hear of is left open.  A batch of committed entries is applied in
one step.  The calls that have returned are recorded.
-/

open Hermes.Raft (NodeID Message LogEntry Membership Cluster RaftNode StateMachine Action)
open Hermes.Storage (newPutCommand newDeleteCommand decodeCommand validateCommand)
open Hermes.Storage.Memtable (Key)

namespace Hermes.Server

/-! ## The state machine -/

/-- What the write-ahead log and the random source give to a write. -/
structure Draw where
  coins : List Bool
  ts : Clock.HLCTimestamp
  seq : ℕ
  deriving DecidableEq, Repr

/-- The storage of a node: its engine, and what the writes to come will meet.  The
log may fail to take a write. -/
structure Store where
  system : Storage.System
  draws : ℕ → Option Draw
  /-- Whether the engine has failed to take a write. -/
  failed : Bool := false

/-- `Put` or `Delete` of the engine. -/
def Store.write (store : Store) (key : Key) (value : Bytes) (deleted : Bool) :
    Store × Option String :=
  let failed := { store with draws := fun i => store.draws (i + 1), failed := true }
  match store.draws 0 with
  | none => (failed, some "storage: WAL write failed")
  | some d =>
    match store.system.engine.putWithTimestamp key value deleted d.coins d.ts d.seq with
    | .error _ => (failed, some "storage: engine is closed")
    | .ok e =>
      ({ store with
          system := { store.system with engine := e }
          draws := fun i => store.draws (i + 1) }, none)

/-- `hermesStateMachine`; a snapshot is not restored from. -/
def hermesStateMachine : StateMachine Store where
  apply store entry :=
    if entry.type = .noop ∨ entry.data = [] then (store, none)
    else
      match validateCommand entry.data with
      | some text =>
        (store, some ("invalid command at index " ++ toString entry.index ++ ": " ++ text))
      | none =>
        let (key, value, deleted) := decodeCommand entry.data
        if deleted then store.write key [] true else store.write key value false
  restore store _ := store

/-! ## Leases and read indices -/

/-- A lease of the leader, with times in nanoseconds. -/
structure LeaderLease where
  electionTimeout : ℤ := 150000000
  maxClockDrift : ℤ := 5000000
  /-- When the lease ends; a node that has none is not valid. -/
  leaseExpiry : Option ℤ := none
  deriving DecidableEq, Repr

namespace LeaderLease

def leaseDuration (l : LeaderLease) : ℤ :=
  l.electionTimeout - 2 * l.maxClockDrift

def renew (l : LeaderLease) (now : ℤ) : LeaderLease :=
  { l with leaseExpiry := some (now + l.leaseDuration) }

def expire (l : LeaderLease) : LeaderLease :=
  { l with leaseExpiry := none }

def isValid (l : LeaderLease) (now : ℤ) : Bool :=
  l.leaseExpiry.any fun expiry => now < expiry

end LeaderLease

structure ReadIndexRequest where
  requestID : ℕ
  readIndex : ℕ
  deriving DecidableEq, Repr

structure ReadIndexTracker where
  pending : List ReadIndexRequest := []
  nextRequestID : ℕ := 0
  deriving DecidableEq, Repr

namespace ReadIndexTracker

/-- The first half of `RequestRead`: register a request; the first one that is pending
starts a heartbeat. -/
def request (t : ReadIndexTracker) (commitIndex : ℕ) : ReadIndexTracker × ℕ × Bool :=
  let id := t.nextRequestID + 1
  let pending := t.pending ++ [{ requestID := id, readIndex := commitIndex }]
  ({ pending := pending, nextRequestID := id }, id, pending.length = 1)

/-- `ConfirmLeadership` releases the requests up to a commit index. -/
def confirmLeadership (t : ReadIndexTracker) (maxCommitIndex : ℕ) :
    ReadIndexTracker × List ReadIndexRequest :=
  ({ t with pending := t.pending.filter fun req => ¬ req.readIndex ≤ maxCommitIndex },
    t.pending.filter fun req => req.readIndex ≤ maxCommitIndex)

/-- A caller whose context ends takes its request back. -/
def cancel (t : ReadIndexTracker) (requestID : ℕ) : ReadIndexTracker :=
  { t with pending := t.pending.eraseP fun req => req.requestID = requestID }

end ReadIndexTracker

/-! ## Calls -/

/-- A `Put`, or a `Delete` if there is no value, that has found its node leading. -/
structure WriteCall where
  id : NodeID
  key : Key
  value : Option Bytes
  deriving DecidableEq, Repr

/-- The command that a write proposes. -/
def WriteCall.command (call : WriteCall) : Bytes :=
  match call.value with
  | some value => newPutCommand call.key value
  | none => newDeleteCommand call.key

/-- A `Put` that has returned `nil`, and the entry that its node has appended for it;
a node that no longer leads appends none. -/
structure PutRecord where
  id : NodeID
  key : Key
  value : Bytes
  entry : Option LogEntry
  deriving DecidableEq, Repr

/-- How far a `Get` has come. -/
inductive GetPhase where
  /-- It has found that the node leads or has a lease. -/
  | admitted
  /-- It has found, for the second time, that the node leads. -/
  | leading
  /-- It waits for its read index to be confirmed. -/
  | waiting (requestID : ℕ)
  /-- It may wait a little if the read index has not been applied, and reads then. -/
  | confirmed (readIndex : ℕ)
  /-- The node leads no more, and the read relies on the lease. -/
  | leased
  deriving DecidableEq, Repr

structure GetCall where
  id : NodeID
  key : Key
  phase : GetPhase
  /-- The puts that had returned when the call was made. -/
  before : List PutRecord
  deriving DecidableEq, Repr

/-- A `Get` that has returned without an error. -/
structure Answer where
  id : NodeID
  key : Key
  before : List PutRecord
  result : Option Bytes
  deriving DecidableEq, Repr

/-! ## The service -/

structure Service where
  cluster : Cluster Store
  leases : NodeID → LeaderLease := fun _ => {}
  trackers : NodeID → ReadIndexTracker := fun _ => {}
  /-- How many heartbeats the trackers have started that have not confirmed yet. -/
  heartbeats : NodeID → ℕ := fun _ => 0
  writeCalls : List WriteCall := []
  getCalls : List GetCall := []
  puts : List PutRecord := []
  answers : List Answer := []

namespace Service

inductive Event where
  | tick (id : NodeID)
  /-- The head of a node's loop. -/
  | ready (id : NodeID)
  /-- The call that the transport makes for a message reaches the handler of the peer. -/
  | request (m : Message)
  /-- That call returns with an answer of the peer. -/
  | response (m answer : Message)
  /-- A flush or a compaction of a node's engine. -/
  | engine (id : NodeID) (event : Storage.Event)
  /-- `onLeaderChange`. -/
  | leaderChange (id newLeader : NodeID) (now : ℤ)
  | beginWrite (call : WriteCall)
  /-- A write proposes its command.  It returns what the loop answers, unless its context
  ends before. -/
  | propose (call : ℕ) (answered : Bool)
  | beginGet (id : NodeID) (key : Key) (now : ℤ)
  /-- The second test whether the node leads. -/
  | recheck (call : ℕ)
  | requestRead (call : ℕ)
  /-- The callback that `startConsistency` has given to the tracker. -/
  | confirm (id : NodeID)
  /-- The context of a waiting read ends. -/
  | cancel (call : ℕ)
  /-- The engine is read. -/
  | read (call : ℕ)
  deriving DecidableEq, Repr

def isLeader (w : Service) (id : NodeID) : Bool :=
  (w.cluster.nodes id).raft.state = .leader

def store (w : Service) (id : NodeID) : Store :=
  (w.cluster.nodes id).storage

def setStore (w : Service) (id : NodeID) (store : Store) : Service :=
  let nodes := Function.update w.cluster.nodes id { w.cluster.nodes id with storage := store }
  { w with cluster := { w.cluster with nodes := nodes } }

def raft (w : Service) (action : Action) : Option Service :=
  (w.cluster.step hermesStateMachine action).toOption.map fun c => { w with cluster := c }

def request (ms : Membership) (w : Service) (m : Message) : Option Service :=
  if m ∈ w.cluster.sent ∧ m.toID ∈ ms.ids then
    (Request.ofMessage m).bind fun req => w.raft (.deliver (req.message m.toID))
  else none

def response (ms : Membership) (w : Service) (m answer : Message) : Option Service :=
  if m ∈ w.cluster.sent ∧ m.fromID ∈ ms.ids ∧ answer ∈ w.cluster.sent ∧
      answer.type.isResponse ∧ answer.fromID = m.toID ∧ answer.toID = m.fromID then
    (Request.ofMessage m).bind fun req =>
      w.raft (.deliver ((req.response m.toID answer).message m))
  else none

/-- A step of the workers of an engine, which write nothing by themselves. -/
def engine (sizing : Storage.Bloom.Sizing) (w : Service) (id : NodeID) (event : Storage.Event) :
    Option Service :=
  match event with
  | .put .. | .delete .. => none
  | event =>
    ((w.store id).system.step sizing event).map fun system =>
      w.setStore id { w.store id with system := system }

def leaderChange (w : Service) (id newLeader : NodeID) (now : ℤ) : Service :=
  let lease := if newLeader = id then (w.leases id).renew now else (w.leases id).expire
  { w with leases := Function.update w.leases id lease }

def beginWrite (w : Service) (call : WriteCall) : Option Service :=
  if w.isLeader call.id then some { w with writeCalls := w.writeCalls ++ [call] } else none

/-- The record of a write that has returned `nil`. -/
def recordPut (w : Service) (call : WriteCall) : List PutRecord :=
  match call.value with
  | none => []
  | some value =>
    let r := (w.cluster.nodes call.id).raft
    [{ id := call.id
       key := call.key
       value := value
       entry :=
        if r.state = .leader then
          some { index := r.log.lastIndex + 1, term := r.term, data := call.command }
        else none }]

def propose (w : Service) (i : ℕ) (answered : Bool) : Option Service :=
  match w.writeCalls[i]? with
  | none => none
  | some call =>
    match (w.cluster.nodes call.id).propose hermesStateMachine call.command with
    | .error _ => none
    | .ok (n, ready, err) =>
      some { w with
        cluster := w.cluster.observe call.id n ready
        writeCalls := w.writeCalls.eraseIdx i
        puts := if answered ∧ err = none then w.puts ++ w.recordPut call else w.puts }

def beginGet (w : Service) (id : NodeID) (key : Key) (now : ℤ) : Option Service :=
  if w.isLeader id ∨ (w.leases id).isValid now then
    let call := { id := id, key := key, phase := .admitted, before := w.puts }
    some { w with getCalls := w.getCalls ++ [call] }
  else none

def recheck (w : Service) (i : ℕ) : Option Service :=
  match w.getCalls[i]? with
  | some call =>
    if call.phase = .admitted then
      let phase := if w.isLeader call.id then .leading else .leased
      some { w with getCalls := w.getCalls.set i { call with phase := phase } }
    else none
  | none => none

def requestRead (w : Service) (i : ℕ) : Option Service :=
  match w.getCalls[i]? with
  | some call =>
    if call.phase = .leading then
      let (tracker, requestID, first) :=
        (w.trackers call.id).request (w.cluster.nodes call.id).raft.log.stats.commitIndex
      some { w with
        trackers := Function.update w.trackers call.id tracker
        heartbeats := Function.update w.heartbeats call.id
          (w.heartbeats call.id + if first then 1 else 0)
        getCalls := w.getCalls.set i { call with phase := .waiting requestID } }
    else none
  | none => none

/-- A waiting call of a node whose request has been released. -/
def release (id : NodeID) (released : List ReadIndexRequest) (call : GetCall) : GetCall :=
  match call.phase with
  | .waiting requestID =>
    if call.id = id then
      match released.find? fun req => req.requestID = requestID with
      | some req => { call with phase := .confirmed req.readIndex }
      | none => call
    else call
  | _ => call

/-- The callback confirms leadership with the commit index of its own node, without
asking any other. -/
def confirm (w : Service) (id : NodeID) : Option Service :=
  if w.heartbeats id = 0 then none
  else
    let commitIndex := (w.cluster.nodes id).raft.log.stats.commitIndex
    let (tracker, released) := (w.trackers id).confirmLeadership commitIndex
    some { w with
      trackers := Function.update w.trackers id tracker
      heartbeats := Function.update w.heartbeats id (w.heartbeats id - 1)
      getCalls := w.getCalls.map (release id released) }

def cancel (w : Service) (i : ℕ) : Option Service :=
  match w.getCalls[i]? with
  | some { id, phase := .waiting requestID, .. } =>
    some { w with
      trackers := Function.update w.trackers id ((w.trackers id).cancel requestID)
      getCalls := w.getCalls.eraseIdx i }
  | _ => none

/-- The read itself.  A confirmed call has waited for at most five milliseconds, so it
reads whether or not its read index has been applied. -/
def read (w : Service) (i : ℕ) : Option Service :=
  match w.getCalls[i]? with
  | none => none
  | some call =>
    match call.phase with
    | .confirmed _ | .leased =>
      let w' := { w with getCalls := w.getCalls.eraseIdx i }
      match (w.store call.id).system.get call.key with
      | .error _ => some w'
      | .ok result =>
        let answer :=
          { id := call.id, key := call.key, before := call.before, result := result }
        some { w' with answers := w.answers ++ [answer] }
    | _ => none

def step (ms : Membership) (sizing : Storage.Bloom.Sizing) (w : Service) :
    Event → Option Service
  | .tick id => if id ∈ ms.ids then w.raft (.tick id) else none
  | .ready id => if id ∈ ms.ids then w.raft (.ready id) else none
  | .request m => w.request ms m
  | .response m answer => w.response ms m answer
  | .engine id event => if id ∈ ms.ids then w.engine sizing id event else none
  | .leaderChange id newLeader now =>
    if id ∈ ms.ids then some (w.leaderChange id newLeader now) else none
  | .beginWrite call => if call.id ∈ ms.ids then w.beginWrite call else none
  | .propose i answered => w.propose i answered
  | .beginGet id key now => if id ∈ ms.ids then w.beginGet id key now else none
  | .recheck i => w.recheck i
  | .requestRead i => w.requestRead i
  | .confirm id => if id ∈ ms.ids then w.confirm id else none
  | .cancel i => w.cancel i
  | .read i => w.read i

/-- Every node has just been started, with an engine on an empty directory. -/
structure Initial (ms : Membership) (w : Service) : Prop where
  cluster : w.cluster.Initial ms
  engines : ∀ id ∈ ms.ids, ∃ config, (w.store id).system = Storage.System.start config
  writeCalls : w.writeCalls = []
  getCalls : w.getCalls = []
  puts : w.puts = []
  answers : w.answers = []

/-- The states that runs reach whose steps are all allowed. -/
def Reachable (ms : Membership) (sizing : Storage.Bloom.Sizing)
    (allowed : Service → Event → Prop) (w : Service) : Prop :=
  ∃ w₀, Initial ms w₀ ∧ Runs.Reachable (step ms sizing) allowed w₀ w

end Service

end Hermes.Server
