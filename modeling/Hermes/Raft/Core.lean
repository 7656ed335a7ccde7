import Hermes.Raft.Log

/-!
# The Raft state machine of one node

The Go type `Raft` is a record that its methods update in place; here every
method returns the updated record.  The two function fields `tick` and `step`
are always assigned together with `state`, so they are read off from it.  A
method that can panic returns in `Except Panic`, and `Step` also returns the
text of the Go error, if any.
-/

namespace Hermes

namespace Raft

structure Config where
  nodeID : NodeID
  peers : List NodeID
  heartbeatTick : Int := 5
  electionTick : Int := 10
  maxEntriesToSend : Int := 100
  maxInflight : Int := 16
  deriving DecidableEq, Repr

/-- `DefaultConfig`. -/
def defaultConfig (nodeID : NodeID) (peers : List NodeID) : Config where
  nodeID := nodeID
  peers := peers

inductive MsgType where
  | heartbeat
  | heartbeatRsp
  | append
  | appendRsp
  | vote
  | voteRsp
  | preVote
  | preVoteRsp
  | propose
  | snapshot
  | snapshotRsp
  | timeoutNow
  | readIndex
  | readIndexRsp
  | tick
  | unreachable
  deriving DecidableEq, Repr

structure Snapshot where
  index : Nat
  term : Nat
  data : Bytes
  deriving DecidableEq, Repr

/-- A message between nodes.  Fields a sender leaves out are zero, as in Go;
`toID` and `fromID` are the Go fields `To` and `From`. -/
structure Message where
  type : MsgType
  toID : NodeID := ""
  fromID : NodeID := ""
  term : Nat := 0
  index : Nat := 0
  logTerm : Nat := 0
  logIndex : Nat := 0
  entries : List LogEntry := []
  commitIndex : Nat := 0
  success : Bool := false
  conflictIndex : Nat := 0
  conflictTerm : Nat := 0
  lastLogIndex : Nat := 0
  lastLogTerm : Nat := 0
  voteGranted : Bool := false
  preVote : Bool := false
  snapshot : Option Snapshot := none
  reject : Bool := false
  rejectHint : Nat := 0
  deriving DecidableEq, Repr

inductive NodeState where
  | follower
  | candidate
  | leader
  deriving DecidableEq, Repr

inductive ProgressState where
  | probe
  | replicate
  | snapshot
  deriving DecidableEq, Repr

/-- What a leader knows about the log of one member. -/
structure Progress where
  nextIndex : Nat
  matchIndex : Nat
  state : ProgressState
  inflight : Int := 0
  recentActive : Bool := false
  deriving DecidableEq, Repr

namespace Progress

def maybeUpdate (p : Progress) (newIndex : Nat) : Progress × Bool :=
  if newIndex ≤ p.matchIndex then (p, false)
  else
    ({ p with
        matchIndex := newIndex
        nextIndex := if p.nextIndex ≤ newIndex then newIndex + 1 else p.nextIndex },
      true)

def maybeDecrTo (p : Progress) (rejected conflictIndex : Nat) : Progress × Bool :=
  if p.state = .replicate then
    ({ p with state := .probe, nextIndex := p.matchIndex + 1 }, true)
  else if rejected ≠ p.nextIndex - 1 then (p, false)
  else
    let newNext := if conflictIndex < 1 then 1 else conflictIndex
    if newNext < p.nextIndex then ({ p with nextIndex := newNext }, true)
    else (p, false)

def becomeReplicate (p : Progress) : Progress :=
  { p with state := .replicate, nextIndex := p.matchIndex + 1, inflight := 0 }

/-- The inner test reads the state that was just overwritten, so it never holds. -/
def becomeProbe (p : Progress) : Progress :=
  let p := { p with state := .probe }
  if p.state = .snapshot then { p with nextIndex := p.matchIndex + 1 } else p

end Progress

/-- The draws that `rand.Rand` will make, first one first. -/
abbrev Rng := Nat → Nat

/-- `rand.Intn`: the next draw, reduced below `n`. -/
def Rng.intn (rng : Rng) (n : Int) : Except Panic (Int × Rng) :=
  if n ≤ 0 then .error .invalidIntn
  else .ok ((rng 0 : Int) % n, fun k => rng (k + 1))

structure ReadIndexState where
  index : Nat
  fromID : NodeID
  ctx : Bytes
  acks : AList (fun _ : NodeID => Bool)

structure ReadOnly where
  pendingReadIndex : AList (fun _ : Bytes => ReadIndexState)
  readIndexQueue : List Bytes

namespace ReadOnly

def new : ReadOnly where
  pendingReadIndex := ∅
  readIndexQueue := []

def addRequest (ro : ReadOnly) (index : Nat) (fromID : NodeID) (ctx : Bytes) : ReadOnly :=
  match ro.pendingReadIndex.lookup ctx with
  | some _ => ro
  | none =>
    { pendingReadIndex := ro.pendingReadIndex.insert ctx
        { index := index, fromID := fromID, ctx := ctx, acks := ∅ }
      readIndexQueue := ro.readIndexQueue ++ [ctx] }

end ReadOnly

end Raft

open Raft in
/-- The state of one Raft node. -/
structure Raft where
  config : Config
  id : NodeID
  term : Nat := 0
  vote : NodeID := ""
  log : RaftLog := .new
  state : NodeState := .follower
  lead : NodeID := ""
  electionElapsed : Int := 0
  electionTimeout : Int := 0
  heartbeatElapsed : Int := 0
  progress : AList (fun _ : NodeID => Progress) := ∅
  votes : AList (fun _ : NodeID => Bool) := ∅
  msgs : List Message := []
  readOnly : ReadOnly := .new
  rng : Rng

namespace Raft

/-- Queue a message, filling in the sender and the term where they are zero. -/
def send (r : Raft) (m : Message) : Raft :=
  let m := if m.fromID = "" then { m with fromID := r.id } else m
  let m := if m.term = 0 then { m with term := r.term } else m
  { r with msgs := r.msgs ++ [m] }

def resetElectionTimeout (r : Raft) : Except Panic Raft := do
  let (n, rng) ← r.rng.intn r.config.electionTick
  return { r with
    electionElapsed := 0
    electionTimeout := r.config.electionTick + n
    rng := rng }

def becomeFollower (r : Raft) (term : Nat) (lead : NodeID) : Except Panic Raft :=
  let r := if term > r.term then { r with term := term, vote := "" } else r
  { r with state := .follower, lead := lead }.resetElectionTimeout

/-- `NewRaft`; the draws of its random source are an argument. -/
def new (config : Config) (rng : Rng) : Except Panic Raft :=
  { config := config, id := config.nodeID, rng := rng : Raft }.becomeFollower 0 ""

def becomeCandidate (r : Raft) : Except Panic Raft :=
  if r.state = .leader then .error .leaderCannotBecomeCandidate
  else
    { r with
      term := r.term + 1
      vote := r.id
      state := .candidate
      lead := ""
      votes := AList.insert r.id true ∅ }.resetElectionTimeout

def sendHeartbeat (r : Raft) (peer : NodeID) : Raft :=
  r.send
    { type := .heartbeat
      toID := peer
      term := r.term
      commitIndex := r.log.stats.commitIndex }

/-- The upper end of a batch.  The limit is converted to an unsigned 64-bit
number, so a negative one wraps around. -/
def batchEnd (r : Raft) (nextIndex : Nat) : Nat :=
  if 0 ≤ r.config.maxEntriesToSend then nextIndex + r.config.maxEntriesToSend.toNat
  else (nextIndex + (r.config.maxEntriesToSend % 2 ^ 64).toNat) % 2 ^ 64

def sendAppendEntries (r : Raft) (peer : NodeID) : Except Panic Raft :=
  match r.progress.lookup peer with
  | none => .ok r
  | some prog =>
    if prog.state = .snapshot then .ok r
    else do
      let nextIndex := prog.nextIndex
      let prevIndex := nextIndex - 1
      let prevTerm := r.log.termOf prevIndex
      let entries ← r.log.slice nextIndex (r.batchEnd nextIndex)
      return r.send
        { type := .append
          toID := peer
          term := r.term
          logIndex := prevIndex
          logTerm := prevTerm
          entries := entries
          commitIndex := r.log.stats.commitIndex }

def broadcastAppendEntries (r : Raft) (heartbeat : Bool) : Except Panic Raft :=
  r.config.peers.foldlM
    (fun r peer =>
      if heartbeat then .ok (r.sendHeartbeat peer) else r.sendAppendEntries peer) r

def broadcastHeartbeat (r : Raft) : Raft :=
  r.config.peers.foldl (fun r peer => r.sendHeartbeat peer) r

def appendEntry (r : Raft) (entry : LogEntry) : Except Panic Raft := do
  let entry := { entry with index := r.log.lastIndex + 1, term := r.term }
  let log ← r.log.appendOne entry
  return { r with log := log }

/-- The match indices of all members, in the order the map is walked. -/
def matchIndexes (r : Raft) : List Nat :=
  r.progress.entries.map fun prog => prog.2.matchIndex

def maybeCommit (r : Raft) : Raft :=
  { r with log := (r.log.maybeCommit r.matchIndexes r.log.lastTerm r.term).1 }

/-- The progress map a new leader starts from: itself at its last entry, every
peer probed from there. -/
def leaderProgress (r : Raft) : AList (fun _ : NodeID => Progress) :=
  let lastIndex := r.log.lastIndex
  r.config.peers.foldl
    (fun progress peer => progress.insert peer
      { nextIndex := lastIndex + 1, matchIndex := 0, state := .probe })
    (r.progress.insert r.id
      { nextIndex := lastIndex + 1
        matchIndex := lastIndex
        state := .replicate
        recentActive := true })

def becomeLeader (r : Raft) : Except Panic Raft :=
  if r.state ≠ .candidate then .error .onlyCandidateCanBecomeLeader
  else do
    let r := { r with
      state := .leader
      lead := r.id
      heartbeatElapsed := 0
      progress := r.leaderProgress }
    let r ← r.appendEntry { type := .noop }
    r.broadcastAppendEntries true

def campaign (r : Raft) : Except Panic Raft := do
  let r ← r.becomeCandidate
  if r.config.peers.length = 0 then r.becomeLeader
  else
    let lastIndex := r.log.lastIndex
    let lastTerm := r.log.lastTerm
    return r.config.peers.foldl
      (fun r peer => r.send
        { type := .vote
          toID := peer
          term := r.term
          logIndex := lastIndex
          logTerm := lastTerm
          lastLogIndex := lastIndex
          lastLogTerm := lastTerm }) r

def tickElection (r : Raft) : Except Panic Raft :=
  let r := { r with electionElapsed := r.electionElapsed + 1 }
  if r.electionElapsed ≥ r.electionTimeout then
    { r with electionElapsed := 0 }.campaign
  else .ok r

def tickHeartbeat (r : Raft) : Except Panic Raft :=
  let r := { r with heartbeatElapsed := r.heartbeatElapsed + 1 }
  if r.heartbeatElapsed ≥ r.config.heartbeatTick then
    { r with heartbeatElapsed := 0 }.broadcastAppendEntries true
  else .ok r

/-- `Tick` runs the function that the last role change installed. -/
def tick (r : Raft) : Except Panic Raft :=
  match r.state with
  | .follower | .candidate => r.tickElection
  | .leader => r.tickHeartbeat

/-- `hasQuorum` counts granted votes against the configured cluster size. -/
def hasQuorum (r : Raft) (votes : AList (fun _ : NodeID => Bool)) : Bool :=
  let granted := votes.entries.countP fun v => v.2
  let total := 1 + r.config.peers.length
  decide (granted * 2 > total)

def logConsistencyCheck (r : Raft) (prevIndex prevTerm : Nat) : Bool :=
  if prevIndex = 0 then true else decide (r.log.termOf prevIndex = prevTerm)

/-- The loop of `findConflict`: walk back while the term stays the same. -/
def findConflictFrom (r : Raft) (conflictTerm : Nat) : Nat → Nat
  | 0 => 0
  | index + 1 =>
    if index + 1 > r.log.stats.snapshotIndex ∧ r.log.termOf index = conflictTerm then
      r.findConflictFrom conflictTerm index
    else index + 1

def findConflict (r : Raft) (rejectedIndex : Nat) : Nat × Nat :=
  let conflictTerm := r.log.termOf rejectedIndex
  if conflictTerm = 0 then (r.log.lastIndex, 0)
  else (r.findConflictFrom conflictTerm rejectedIndex, conflictTerm)

def handleProposal (r : Raft) (m : Message) : Except Panic Raft := do
  let entries := m.entries.mapIdx fun i entry =>
    { entry with index := r.log.lastIndex + 1 + i, term := r.term }
  let log ← entries.foldlM RaftLog.appendOne r.log
  let r := { r with log := log }
  let r :=
    match r.progress.lookup r.id with
    | some prog =>
      { r with progress := r.progress.insert r.id (prog.maybeUpdate r.log.lastIndex).1 }
    | none => r
  let r ← r.broadcastAppendEntries false
  return r.maybeCommit

def handleAppendEntries (r : Raft) (m : Message) : Except Panic Raft :=
  if m.logIndex < r.log.stats.commitIndex then
    .ok (r.send
      { type := .appendRsp
        toID := m.fromID
        term := r.term
        index := r.log.stats.commitIndex })
  else if !r.logConsistencyCheck m.logIndex m.logTerm then
    let (conflictIndex, conflictTerm) := r.findConflict m.logIndex
    .ok (r.send
      { type := .appendRsp
        toID := m.fromID
        term := r.term
        reject := true
        conflictIndex := conflictIndex
        conflictTerm := conflictTerm })
  else do
    let log ← (if m.entries.length > 0 then r.log.append m.entries else .ok r.log)
    let log ←
      (if m.commitIndex > log.stats.commitIndex then do
        let newCommit :=
          if log.lastIndex < m.commitIndex then log.lastIndex else m.commitIndex
        let (log, _) ← log.commitTo newCommit
        pure log
      else pure log)
    let r := { r with log := log }
    return r.send
      { type := .appendRsp
        toID := m.fromID
        term := r.term
        index := r.log.lastIndex }

def handleAppendResponse (r : Raft) (m : Message) : Except Panic Raft :=
  match r.progress.lookup m.fromID with
  | none => .ok r
  | some prog =>
    let prog := { prog with recentActive := true }
    if m.reject then
      let (prog, decremented) := prog.maybeDecrTo m.index m.conflictIndex
      let r := { r with progress := r.progress.insert m.fromID prog }
      if decremented then r.sendAppendEntries m.fromID else .ok r
    else
      let (prog, updated) := prog.maybeUpdate m.index
      if updated then
        let prog := if prog.state ≠ .replicate then prog.becomeReplicate else prog
        let r := { r with progress := r.progress.insert m.fromID prog }
        let r := r.maybeCommit
        if prog.matchIndex < r.log.lastIndex then r.sendAppendEntries m.fromID
        else .ok r
      else .ok { r with progress := r.progress.insert m.fromID prog }

def handleHeartbeat (r : Raft) (m : Message) : Except Panic Raft := do
  let log ←
    (if m.commitIndex > r.log.stats.commitIndex then do
      let (log, _) ← r.log.commitTo m.commitIndex
      pure log
    else pure r.log)
  let r := { r with log := log }
  return r.send
    { type := .heartbeatRsp
      toID := m.fromID
      term := r.term
      commitIndex := r.log.stats.commitIndex }

/-- Whether the voter is free to vote for the sender of `m`. -/
def canVote (r : Raft) (m : Message) : Bool :=
  (decide (r.vote = "") && decide (r.lead = "")) || decide (r.vote = m.fromID) ||
    (m.preVote && decide (m.term > r.term))

def handleVoteRequest (r : Raft) (m : Message) : Raft :=
  let logOK := r.log.isUpToDate m.lastLogIndex m.lastLogTerm
  if r.canVote m && logOK then
    let r := if !m.preVote then { r with vote := m.fromID, term := m.term } else r
    let r := { r with electionElapsed := 0 }
    r.send
      { type := .voteRsp
        toID := m.fromID
        term := m.term
        voteGranted := true
        preVote := m.preVote }
  else
    r.send
      { type := .voteRsp
        toID := m.fromID
        term := r.term
        voteGranted := false
        preVote := m.preVote }

def handleVoteResponse (r : Raft) (m : Message) : Except Panic Raft :=
  if m.voteGranted then
    let r := { r with votes := r.votes.insert m.fromID true }
    if r.hasQuorum r.votes then
      if m.preVote then r.campaign else r.becomeLeader
    else .ok r
  else .ok { r with votes := r.votes.insert m.fromID false }

def handleInstallSnapshot (r : Raft) (m : Message) : Raft :=
  match m.snapshot with
  | none => r
  | some snapshot =>
    let r := { r with log := r.log.compact snapshot.index snapshot.term }
    r.send
      { type := .snapshotRsp
        toID := m.fromID
        term := r.term
        index := snapshot.index }

def handleReadIndex (r : Raft) (m : Message) : Except Panic Raft :=
  match m.entries with
  | [] => .error .outOfRange
  | entry :: _ =>
    .ok { r with
      readOnly := r.readOnly.addRequest r.log.stats.commitIndex m.fromID entry.data
      }.broadcastHeartbeat

def stepFollower (r : Raft) (m : Message) : Except Panic (Raft × Option String) :=
  match m.type with
  | .heartbeat => do
    let r ← { r with electionElapsed := 0, lead := m.fromID }.handleHeartbeat m
    return (r, none)
  | .append => do
    let r ← { r with electionElapsed := 0, lead := m.fromID }.handleAppendEntries m
    return (r, none)
  | .snapshot =>
    .ok ({ r with electionElapsed := 0, lead := m.fromID }.handleInstallSnapshot m, none)
  | .vote | .preVote => .ok (r.handleVoteRequest m, none)
  | .timeoutNow => do
    let r ← r.campaign
    return (r, none)
  | .propose =>
    if r.lead = "" then .ok (r, some "raft: no leader known, cannot propose")
    else .ok (r.send { m with toID := r.lead }, none)
  | _ => .ok (r, none)

def stepCandidate (r : Raft) (m : Message) : Except Panic (Raft × Option String) :=
  match m.type with
  | .voteRsp | .preVoteRsp => do
    let r ← r.handleVoteResponse m
    return (r, none)
  | .append => do
    let r ← r.becomeFollower m.term m.fromID
    let r ← r.handleAppendEntries m
    return (r, none)
  | .heartbeat => do
    let r ← r.becomeFollower m.term m.fromID
    let r ← r.handleHeartbeat m
    return (r, none)
  | .propose => .ok (r, some "raft: cannot propose during election")
  | .vote => .ok (r.handleVoteRequest m, none)
  | _ => .ok (r, none)

def stepLeader (r : Raft) (m : Message) : Except Panic (Raft × Option String) :=
  match m.type with
  | .propose =>
    if m.entries.length = 0 then .ok (r, some "raft: empty proposal")
    else do
      let r ← r.handleProposal m
      return (r, none)
  | .appendRsp => do
    let r ← r.handleAppendResponse m
    return (r, none)
  | .heartbeatRsp =>
    match r.progress.lookup m.fromID with
    | none => .ok (r, none)
    | some prog => do
      let r := { r with
        progress := r.progress.insert m.fromID { prog with recentActive := true } }
      let r ←
        (if prog.matchIndex < r.log.lastIndex then r.sendAppendEntries m.fromID
        else .ok r)
      return (r, none)
  | .vote | .preVote => .ok (r.handleVoteRequest m, none)
  | .unreachable =>
    match r.progress.lookup m.fromID with
    | none => .ok (r, none)
    | some prog =>
      if prog.state = .replicate then
        .ok ({ r with progress := r.progress.insert m.fromID prog.becomeProbe }, none)
      else .ok (r, none)
  | .readIndex => do
    let r ← r.handleReadIndex m
    return (r, none)
  | _ => .ok (r, none)

/-- Hand a message to the function that the last role change installed. -/
def stepRole (r : Raft) (m : Message) : Except Panic (Raft × Option String) :=
  match r.state with
  | .follower => r.stepFollower m
  | .candidate => r.stepCandidate m
  | .leader => r.stepLeader m

/-- `Step`: vote requests of a higher term leave the role and the term alone,
every other message of a higher term turns the node into a follower first. -/
def step (r : Raft) (m : Message) : Except Panic (Raft × Option String) :=
  if m.term = 0 then r.stepRole m
  else if m.term > r.term then
    if m.type = .vote ∨ m.type = .preVote then r.stepRole m
    else do
      let lead :=
        if m.type = .voteRsp ∨ m.type = .preVoteRsp then "" else m.fromID
      let r ← r.becomeFollower m.term lead
      r.stepRole m
  else if m.term < r.term then .ok (r, none)
  else r.stepRole m

end Raft

end Hermes
