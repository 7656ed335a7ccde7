import Hermes.Raft.Emission

/-!
# Raft messages on the wire

Between two nodes a Raft message travels as the request or the response of a remote
call.  `Send` of the transport turns a message into a request and the response of the call
back into a message; the handlers of the other node turn the request into a message and
the answer of their own node into a response.  The calls carry all fields unchanged.
-/

open Hermes.Raft (NodeID Message LogEntry EntryType Emitted)

namespace Hermes.Server

open List

/-! ## The records of the calls -/

namespace Pb

inductive EntryType where
  | normal
  | configuration
  | barrier
  | noop
  deriving DecidableEq, Repr

structure LogEntry where
  index : Nat
  term : Nat
  type : EntryType
  data : Bytes
  deriving DecidableEq, Repr

structure AppendEntriesRequest where
  term : Nat
  leaderId : NodeID
  prevLogIndex : Nat
  prevLogTerm : Nat
  entries : List LogEntry
  leaderCommit : Nat
  deriving DecidableEq, Repr

structure AppendEntriesResponse where
  term : Nat
  success : Bool
  conflictIndex : Nat
  conflictTerm : Nat
  followerId : NodeID
  deriving DecidableEq, Repr

structure RequestVoteRequest where
  term : Nat
  candidateId : NodeID
  lastLogIndex : Nat
  lastLogTerm : Nat
  preVote : Bool
  deriving DecidableEq, Repr

structure RequestVoteResponse where
  term : Nat
  voteGranted : Bool
  voterId : NodeID
  deriving DecidableEq, Repr

end Pb

/-- The conversion between the two numberings, which agree. -/
def toPbType : EntryType → Pb.EntryType
  | .normal => .normal
  | .config => .configuration
  | .barrier => .barrier
  | .noop => .noop

def ofPbType : Pb.EntryType → EntryType
  | .normal => .normal
  | .configuration => .config
  | .barrier => .barrier
  | .noop => .noop

def toPbEntry (e : LogEntry) : Pb.LogEntry where
  index := e.index
  term := e.term
  type := toPbType e.type
  data := e.data

def ofPbEntry (e : Pb.LogEntry) : LogEntry where
  index := e.index
  term := e.term
  type := ofPbType e.type
  data := e.data

@[simp]
theorem ofPbEntry_toPbEntry (e : LogEntry) : ofPbEntry (toPbEntry e) = e := by
  obtain ⟨index, term, type, data⟩ := e
  cases type <;> rfl

@[simp]
theorem map_ofPbEntry_map_toPbEntry (entries : List LogEntry) :
    (entries.map toPbEntry).map ofPbEntry = entries := by
  induction entries with
  | nil => rfl
  | cons e rest ih => rw [map_cons, map_cons, ih, ofPbEntry_toPbEntry]

/-! ## Conversions -/

/-- A remote call between two nodes. -/
inductive Request where
  | appendEntries (req : Pb.AppendEntriesRequest)
  | requestVote (req : Pb.RequestVoteRequest)
  deriving DecidableEq, Repr

inductive Response where
  | appendEntries (resp : Pb.AppendEntriesResponse)
  | requestVote (resp : Pb.RequestVoteResponse)
  deriving DecidableEq, Repr

/-- The call that `Send` makes for a message to a peer that it has a connection to, if any. -/
def Request.ofMessage (msg : Message) : Option Request :=
  match msg.type with
  | .append | .heartbeat => some <| .appendEntries
    { term := msg.term
      leaderId := msg.fromID
      prevLogIndex := msg.logIndex
      prevLogTerm := msg.logTerm
      entries := msg.entries.map toPbEntry
      leaderCommit := msg.commitIndex }
  | .vote | .preVote => some <| .requestVote
    { term := msg.term
      candidateId := msg.fromID
      lastLogIndex := msg.logIndex
      lastLogTerm := msg.logTerm
      preVote := msg.preVote }
  | _ => none

/-- The message that the handler of a call steps into the node `nodeID`. -/
def Request.message (nodeID : NodeID) : Request → Message
  | .appendEntries req =>
    { type := .append
      fromID := req.leaderId
      toID := nodeID
      term := req.term
      logIndex := req.prevLogIndex
      logTerm := req.prevLogTerm
      entries := req.entries.map ofPbEntry
      commitIndex := req.leaderCommit }
  | .requestVote req =>
    { type := if req.preVote then .preVote else .vote
      fromID := req.candidateId
      toID := nodeID
      term := req.term
      logIndex := req.lastLogIndex
      logTerm := req.lastLogTerm
      preVote := req.preVote }

/-- What the handler of a call returns once its node has answered with `respMsg`. -/
def Request.response (nodeID : NodeID) (respMsg : Message) : Request → Response
  | .appendEntries _ => .appendEntries
    { term := respMsg.term
      success := respMsg.success
      conflictIndex := respMsg.conflictIndex
      conflictTerm := respMsg.conflictTerm
      followerId := nodeID }
  | .requestVote _ => .requestVote
    { term := respMsg.term
      voteGranted := respMsg.voteGranted
      voterId := nodeID }

/-- The message that `Send` steps into its own node when the call for `m` has returned. -/
def Response.message (m : Message) : Response → Message
  | .appendEntries resp =>
    { type := .appendRsp
      toID := m.fromID
      fromID := m.toID
      term := resp.term
      success := resp.success
      conflictIndex := resp.conflictIndex
      conflictTerm := resp.conflictTerm }
  | .requestVote resp =>
    { type := if m.preVote then .preVoteRsp else .voteRsp
      toID := m.fromID
      fromID := m.toID
      term := resp.term
      voteGranted := resp.voteGranted }

/-! ## Requests -/

/-- The fields of a request that the other node acts on. -/
structure SameRequest (m arrived : Message) : Prop where
  type : arrived.type = m.type
  fromID : arrived.fromID = m.fromID
  term : arrived.term = m.term
  logIndex : arrived.logIndex = m.logIndex
  logTerm : arrived.logTerm = m.logTerm
  entries : arrived.entries = m.entries
  commitIndex : arrived.commitIndex = m.commitIndex
  lastLogIndex : arrived.lastLogIndex = m.lastLogIndex
  lastLogTerm : arrived.lastLogTerm = m.lastLogTerm

/-- `m` reaches the handlers of the node `nodeID` as it was sent. -/
def Arrives (nodeID : NodeID) (m : Message) : Prop :=
  ∃ req, Request.ofMessage m = some req ∧ SameRequest m (req.message nodeID)

variable {nodeID : NodeID} {m : Message}

theorem arrives_of_append (type : m.type = .append) (noIndex : m.lastLogIndex = 0)
    (noTerm : m.lastLogTerm = 0) : Arrives nodeID m := by
  unfold Arrives Request.ofMessage
  rw [type]
  refine ⟨_, rfl, ?_⟩
  exact ⟨type.symm, rfl, rfl, rfl, rfl, map_ofPbEntry_map_toPbEntry m.entries, rfl,
    noIndex.symm, noTerm.symm⟩

/-- The handler has one kind of message for both calls of a leader. -/
theorem not_arrives_of_heartbeat (type : m.type = .heartbeat) : ¬ Arrives nodeID m := by
  rintro ⟨req, sent, same⟩
  unfold Request.ofMessage at sent
  rw [type] at sent
  cases sent
  have kind := same.type
  rw [type] at kind
  nomatch kind

/-- The end of a candidate's log travels in the fields of a leader's previous entry only. -/
theorem arrives_iff_of_vote (type : m.type = .vote) (noEntries : m.entries = [])
    (noCommit : m.commitIndex = 0) (real : m.preVote = false) :
    Arrives nodeID m ↔ m.lastLogIndex = 0 ∧ m.lastLogTerm = 0 := by
  unfold Arrives Request.ofMessage
  rw [type]
  constructor
  · rintro ⟨req, sent, same⟩
    cases sent
    exact ⟨same.lastLogIndex.symm, same.lastLogTerm.symm⟩
  · rintro ⟨noIndex, noTerm⟩
    refine ⟨_, rfl, ?_⟩
    refine ⟨?_, rfl, rfl, rfl, rfl, noEntries.symm, noCommit.symm, noIndex.symm, noTerm.symm⟩
    rw [type, real]
    rfl

/-- Of the requests a node emits, those for entries arrive as they were sent, those for
votes if they tell of an empty log, and heartbeats never. -/
theorem emitted_arrives_iff {r : Raft} (emitted : Emitted r m)
    (kind : m.type = .append ∨ m.type = .heartbeat ∨ m.type = .vote) :
    Arrives nodeID m ↔
      m.type = .append ∨ m.type = .vote ∧ m.lastLogIndex = 0 ∧ m.lastLogTerm = 0 := by
  rcases emitted.outgoing_or_response with outgoing | response
  · cases outgoing with
    | append type noIndex noTerm =>
      exact iff_of_true (arrives_of_append type noIndex noTerm) (.inl type)
    | vote type noEntries noCommit real =>
      rw [arrives_iff_of_vote type noEntries noCommit real, type]
      simp
    | heartbeat type =>
      refine iff_of_false (not_arrives_of_heartbeat type) ?_
      rw [type]
      simp
    | other type =>
      rcases kind with kind | kind | kind <;> rw [kind] at type <;> simp at type
  · rcases kind with kind | kind | kind <;> rw [kind] at response <;> nomatch response

/-- A follower with the given log, just before it calls an election. -/
def expiringFollower (log : Raft.RaftLog) : Raft where
  config := Raft.defaultConfig "a" ["b"]
  id := "a"
  term := 1
  log := log
  electionElapsed := 9
  electionTimeout := 10
  rng := fun _ => 0

/-- A log with one entry. -/
def oneEntry : Raft.RaftLog where
  entries := [{}, { index := 1, term := 1, type := .noop }]

/-- The request for a vote of a node whose log ends in `index` with `term`. -/
def voteRequest (index term : ℕ) : Message where
  type := .vote
  toID := "b"
  fromID := "a"
  term := 2
  logIndex := index
  logTerm := term
  lastLogIndex := index
  lastLogTerm := term

theorem emitted_arrives_fresh : Arrives "b" (voteRequest 0 0) :=
  have emitted : Emitted (expiringFollower .new) (voteRequest 0 0) :=
    .tick rfl (show _ = [] ++ [voteRequest 0 0] from rfl) (mem_singleton.mpr rfl)
  (emitted_arrives_iff emitted (.inr (.inr rfl))).mpr (.inr ⟨rfl, rfl, rfl⟩)

/-- A heartbeat of a leader. -/
def heartbeatMessage : Message where
  type := .heartbeat
  toID := "b"
  fromID := "a"
  term := 1

/-- A candidate with an entry and a leader emit requests that arrive altered. -/
theorem emitted_not_arrives :
    (Emitted (expiringFollower oneEntry) (voteRequest 1 1) ∧ ¬ Arrives "b" (voteRequest 1 1)) ∧
      Emitted { expiringFollower oneEntry with state := .leader, heartbeatElapsed := 4 }
        heartbeatMessage ∧ ¬ Arrives "b" heartbeatMessage := by
  refine ⟨⟨?_, ?_⟩, ?_, not_arrives_of_heartbeat rfl⟩
  · exact .tick rfl (show _ = [] ++ [voteRequest 1 1] from rfl) (mem_singleton.mpr rfl)
  · rw [arrives_iff_of_vote rfl rfl rfl rfl]
    decide
  · exact .tick rfl (show _ = [] ++ [heartbeatMessage] from rfl) (mem_singleton.mpr rfl)

/-! ## Responses -/

/-- The fields of a response that the requesting node acts on. -/
structure SameResponse (x arrived : Message) : Prop where
  term : arrived.term = x.term
  fromID : arrived.fromID = x.fromID
  index : arrived.index = x.index
  reject : arrived.reject = x.reject
  conflictIndex : arrived.conflictIndex = x.conflictIndex
  conflictTerm : arrived.conflictTerm = x.conflictTerm
  voteGranted : arrived.voteGranted = x.voteGranted

/-- What a handler steps into its node is a request. -/
theorem Request.message_isRequest (nodeID : NodeID) (req : Request) :
    (req.message nodeID).type.isRequest = true := by
  cases req with
  | appendEntries req => rfl
  | requestVote req =>
    unfold Request.message
    dsimp only
    split <;> rfl

theorem Request.message_type_ne_append (nodeID : NodeID) (req : Pb.RequestVoteRequest) :
    (Request.message nodeID (.requestVote req)).type ≠ .append := by
  unfold Request.message
  dsimp only
  split <;> simp

/-- `Send` makes the call for entries for the messages of a leader only. -/
theorem Request.ofMessage_eq_appendEntries {req : Pb.AppendEntriesRequest}
    (sent : Request.ofMessage m = some (.appendEntries req)) :
    m.type ≠ .vote ∧ m.type ≠ .preVote := by
  unfold Request.ofMessage at sent
  constructor
  · intro type
    rw [type] at sent
    nomatch sent
  · intro type
    rw [type] at sent
    nomatch sent

theorem Request.ofMessage_eq_requestVote {req : Pb.RequestVoteRequest}
    (sent : Request.ofMessage m = some (.requestVote req)) :
    m.type = .vote ∨ m.type = .preVote := by
  unfold Request.ofMessage at sent
  split at sent <;> first | (left; assumption) | (right; assumption) | nomatch sent

theorem answer_of_step {r r' : Raft} {req : Request} {err : Option String} {x : Message}
    (stepped : r.step (req.message nodeID) = .ok (r', err)) (msgs : r'.msgs = r.msgs ++ [x]) :
    r.Answer (req.message nodeID) x := by
  have sends := Raft.step_sends stepped
  rw [Raft.Sends, if_pos (req.message_isRequest nodeID)] at sends
  cases sends with
  | silent quiet =>
    rw [quiet.msgs] at msgs
    simp at msgs
  | answered _ msgs' answer =>
    rw [msgs'] at msgs
    cases append_cancel_left msgs
    exact answer

/-- The answers to requests for votes come back as they were emitted; of the answers to a
leader, only the acknowledgement of a log without an entry does. -/
theorem answer_returns_iff {r r' : Raft} {req : Request} {err : Option String} {x : Message}
    (sent : Request.ofMessage m = some req) (addressed : m.toID = r.id)
    (stepped : r.step (req.message nodeID) = .ok (r', err)) (msgs : r'.msgs = r.msgs ++ [x]) :
    SameResponse x ((req.response nodeID x).message m) ↔
      m.type = .vote ∨ m.type = .preVote ∨ r.StaysEmpty (req.message nodeID) := by
  have answer := answer_of_step stepped msgs
  have sender : m.toID = x.fromID := addressed.trans answer.fromID.symm
  cases req with
  | appendEntries req =>
    have empty := answer.empty rfl
    obtain ⟨notVote, notPreVote⟩ := Request.ofMessage_eq_appendEntries sent
    simp only [notVote, notPreVote, false_or]
    constructor
    · intro same
      exact empty.mp ⟨same.index.symm, same.reject.symm⟩
    · intro stays
      obtain ⟨index, reject⟩ := empty.mpr stays
      exact ⟨rfl, sender, index.symm, reject.symm, rfl, rfl, (answer.votes rfl).symm⟩
  | requestVote req =>
    obtain ⟨index, reject, conflictIndex, conflictTerm⟩ :=
      answer.plain (Request.message_type_ne_append nodeID req)
    have asked := Request.ofMessage_eq_requestVote sent
    refine iff_of_true ?_ (by tauto)
    exact ⟨rfl, sender, index.symm, reject.symm, conflictIndex.symm, conflictTerm.symm, rfl⟩

/-- A follower that has no entry yet. -/
def emptyFollower : Raft where
  config := Raft.defaultConfig "b" ["a"]
  id := "b"
  term := 1
  rng := fun _ => 0

/-- Its answer to the request for a vote of a node without entries. -/
def grantedVote : Message where
  type := .voteRsp
  toID := "a"
  fromID := "b"
  term := 2
  voteGranted := true

theorem answer_returns_vote :
    ∃ req, Request.ofMessage (voteRequest 0 0) = some req ∧
      SameResponse grantedVote ((req.response "b" grantedVote).message (voteRequest 0 0)) :=
  ⟨_, rfl, (answer_returns_iff (r := emptyFollower) rfl rfl rfl
    (show _ = [] ++ [grantedVote] from rfl)).mpr (.inl rfl)⟩

/-- The leader of that follower, which has one entry to replicate. -/
def oneEntryLeader : Raft :=
  { expiringFollower oneEntry with
    state := .leader
    lead := "a"
    progress := (expiringFollower oneEntry).leaderProgress }

/-- Up to where that leader believes the follower to match after a message. -/
def matchedAfter (m : Message) : Option ℕ :=
  (oneEntryLeader.step m).toOption.bind fun stepped =>
    (stepped.1.progress.lookup "b").map (·.matchIndex)

/-- A request for entries after the entry at `index`. -/
def appendRequest (index term : ℕ) (entries : List LogEntry) : Message where
  type := .append
  toID := "b"
  fromID := "a"
  term := 1
  logIndex := index
  logTerm := term
  entries := entries

/-- The answer of the empty follower to a message. -/
def answerTo (m : Message) : Option Message :=
  (Request.ofMessage m).bind fun req =>
    (emptyFollower.step (req.message "b")).toOption.bind fun stepped => stepped.1.msgs.head?

/-- What the leader gets of that answer. -/
def returnedTo (m : Message) : Option Message :=
  (Request.ofMessage m).bind fun req =>
    (answerTo m).map fun x => (req.response "b" x).message m

/-- An acknowledged entry does not raise what the leader believes, and a rejection is
none when it comes back. -/
theorem answer_not_returns :
    (answerTo (appendRequest 0 0 [{ index := 1, term := 1, type := .noop }])).map
        (fun x => (x.index, matchedAfter x)) = some (1, some 1) ∧
      (returnedTo (appendRequest 0 0 [{ index := 1, term := 1, type := .noop }])).map
        (fun x => (x.index, matchedAfter x)) = some (0, some 0) ∧
      (answerTo (appendRequest 1 1 [])).map (·.reject) = some true ∧
      (returnedTo (appendRequest 1 1 [])).map (·.reject) = some false := by
  decide +kernel

end Hermes.Server
