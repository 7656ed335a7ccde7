import Hermes.Raft.Core

/-!
# The node around the Raft state machine

`RaftNode` owns a `Raft`, hands its outgoing messages to a transport and its
committed entries to a state machine.  The state machine is an interface in the
source, so it is a parameter here.  The messages given to the transport and the
entries that pass through `applyEntries` are returned next to the new node.
-/

namespace Hermes.Raft

structure HardState where
  term : Nat := 0
  vote : NodeID := ""
  commit : Nat := 0
  deriving DecidableEq, Repr

structure SoftState where
  lead : NodeID
  raftState : NodeState
  deriving DecidableEq, Repr

structure ReadState where
  index : Nat
  requestCtx : Bytes
  deriving DecidableEq, Repr

/-- What `TakeReady` hands to the node. -/
structure Ready where
  entries : List LogEntry := []
  messages : List Message := []
  committedEntries : List LogEntry := []
  snapshot : Option Snapshot := none
  softState : Option SoftState := none
  hardState : Option HardState := none
  readStates : List ReadState := []
  deriving DecidableEq, Repr

def Ready.isEmpty (ready : Ready) : Bool :=
  decide (ready.entries.length = 0) && decide (ready.messages.length = 0) &&
    decide (ready.committedEntries.length = 0) && ready.snapshot.isNone &&
    ready.softState.isNone && ready.hardState.isNone &&
    decide (ready.readStates.length = 0)

/-- `TakeReady` fills only the entries, the messages and the committed entries:
the read states of the source are always empty, the other fields are not set. -/
def takeReady (r : Raft) : Except Panic (Ready × Raft) := do
  let stats := r.log.stats
  let entries ←
    (if stats.lastIndex > stats.appliedIndex then
      r.log.slice (stats.appliedIndex + 1) (stats.lastIndex + 1)
    else pure [])
  let committedEntries ←
    (if stats.commitIndex > stats.appliedIndex then
      r.log.slice (stats.appliedIndex + 1) (stats.commitIndex + 1)
    else pure [])
  return ({ entries := entries, messages := r.msgs, committedEntries := committedEntries },
    { r with msgs := [] })

/-- The interface `StateMachine`, over a type of storage states.  An error text
of `apply` is only printed by the caller. -/
structure StateMachine (σ : Type) where
  apply : σ → LogEntry → σ × Option String
  restore : σ → Bytes → σ

/-- A state machine without a state. -/
def idle : StateMachine Unit where
  apply _ _ := ((), none)
  restore _ _ := ()

/-- The state of a `RaftNode`, with the channels left out. -/
structure RaftNode (σ : Type) where
  raft : Raft
  storage : σ
  wal : List LogEntry := []
  hardState : HardState := {}
  appliedIndex : Nat := 0

namespace RaftNode

variable {σ : Type} (sm : StateMachine σ)

/-- `NewRaftNode`. -/
def new (config : Config) (storage : σ) (rng : Rng) : Except Panic (RaftNode σ) := do
  let raft ← Raft.new config rng
  return { raft := raft, storage := storage }

/-- One round of the loop of `applyEntries`. -/
def applyEntry (n : RaftNode σ) (entry : LogEntry) : RaftNode σ :=
  if entry.type = .noop then { n with appliedIndex := entry.index }
  else
    { n with
      storage := (sm.apply n.storage entry).1
      appliedIndex := entry.index }

def applyEntries (n : RaftNode σ) (entries : List LogEntry) :
    Except Panic (RaftNode σ) := do
  let n := entries.foldl (applyEntry sm) n
  let log ← n.raft.log.appliedTo n.appliedIndex
  return { n with raft := { n.raft with log := log } }

def processReady (n : RaftNode σ) (ready : Ready) : Except Panic (RaftNode σ) :=
  let n := { n with wal := n.wal ++ ready.entries }
  let n :=
    match ready.hardState with
    | some hs => { n with hardState := hs }
    | none => n
  let n :=
    match ready.snapshot with
    | some snap => { n with storage := sm.restore n.storage snap.data }
    | none => n
  if ready.committedEntries.length > 0 then n.applyEntries sm ready.committedEntries
  else .ok n

/-- The head of the loop of `run`: take what is ready, and process it unless it
is empty. -/
def ready (n : RaftNode σ) : Except Panic (Ready × RaftNode σ) := do
  let (ready, raft) ← n.raft.takeReady
  let n := { n with raft := raft }
  if ready.isEmpty then return (ready, n)
  else
    let n ← n.processReady sm ready
    return (ready, n)

/-- The loop of `run` receiving a tick. -/
def tick (n : RaftNode σ) : Except Panic (RaftNode σ) := do
  let raft ← n.raft.tick
  return { n with raft := raft }

/-- The loop of `run` receiving a message. -/
def step (n : RaftNode σ) (m : Message) : Except Panic (RaftNode σ) := do
  let (raft, _) ← n.raft.step m
  return { n with raft := raft }

/-- The message that `run` makes of a `proposeRequest`. -/
def proposal (n : RaftNode σ) (entries : List LogEntry) : Message where
  type := .propose
  fromID := n.raft.config.nodeID
  entries := entries

/-- The loop of `run` receiving a `proposeRequest`: step it, process what is
ready when that succeeded, and only then answer with the result. -/
def proposeEntries (n : RaftNode σ) (entries : List LogEntry) :
    Except Panic (RaftNode σ × Ready × Option String) := do
  let (raft, err) ← n.raft.step (n.proposal entries)
  let n := { n with raft := raft }
  match err with
  | some text => return (n, {}, some text)
  | none =>
    let (ready, n) ← n.ready sm
    return (n, ready, none)

/-- `Propose` sends one normal entry to the loop and returns the loop's answer. -/
def propose (n : RaftNode σ) (data : Bytes) :
    Except Panic (RaftNode σ × Ready × Option String) :=
  n.proposeEntries sm [{ type := .normal, data := data }]

end RaftNode

end Hermes.Raft
