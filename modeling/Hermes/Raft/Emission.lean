import Hermes.Raft.Stability

/-!
# The messages a node emits

Every function of the state machine only adds messages to the queue.  A request of another
node is answered at most once, to its sender; everything else that a node does adds
messages that are no answers.
-/

namespace Hermes.Raft

open List

/-- The messages that the handlers of the server step into a node. -/
def MsgType.isRequest : MsgType → Bool
  | .append | .vote | .preVote => true
  | _ => false

/-- The messages that the transport hands to a waiting handler. -/
def MsgType.isResponse : MsgType → Bool
  | .appendRsp | .voteRsp | .preVoteRsp => true
  | _ => false

/-- The messages a node sends of its own accord. -/
inductive Outgoing (m : Message) : Prop where
  | append (type : m.type = .append) (noIndex : m.lastLogIndex = 0) (noTerm : m.lastLogTerm = 0)
  | vote (type : m.type = .vote) (noEntries : m.entries = []) (noCommit : m.commitIndex = 0)
    (real : m.preVote = false)
  | heartbeat (type : m.type = .heartbeat)
  | other (type : m.type = .heartbeatRsp ∨ m.type = .snapshotRsp ∨ m.type = .propose)

theorem Outgoing.not_isResponse {m : Message} (outgoing : Outgoing m) :
    m.type.isResponse = false := by
  cases outgoing with
  | append type => rw [type]; rfl
  | vote type => rw [type]; rfl
  | heartbeat type => rw [type]; rfl
  | other type => rcases type with type | type | type <;> rw [type] <;> rfl

/-- `r'` is `r` with some more messages of its own accord in the queue. -/
structure Emits (r r' : Raft) : Prop where
  id : r'.id = r.id
  msgs : ∃ new, r'.msgs = r.msgs ++ new ∧ ∀ m ∈ new, Outgoing m

/-- Nothing is queued. -/
structure Quiet (r r' : Raft) : Prop where
  id : r'.id = r.id
  msgs : r'.msgs = r.msgs

/-- The messages that are queued are not about votes, and the node keeps its term and its
vote. -/
structure Posts (r r' : Raft) : Prop where
  id : r'.id = r.id
  config : r'.config = r.config
  term : r'.term = r.term
  vote : r'.vote = r.vote
  msgs : ∃ new, r'.msgs = r.msgs ++ new ∧ ∀ m ∈ new, Outgoing m ∧ m.type ≠ .vote

variable {r r' r'' : Raft} {m : Message}

theorem Quiet.emits (quiet : Quiet r r') : Emits r r' where
  id := quiet.id
  msgs := ⟨[], by rw [quiet.msgs, append_nil], by simp⟩

theorem Emits.refl (r : Raft) : Emits r r :=
  Quiet.emits ⟨rfl, rfl⟩

/-- Messages are queued one after the other. -/
theorem queued_trans {P : Message → Prop} {old middle last : List Message}
    (first : ∃ new, middle = old ++ new ∧ ∀ m ∈ new, P m)
    (second : ∃ new, last = middle ++ new ∧ ∀ m ∈ new, P m) :
    ∃ new, last = old ++ new ∧ ∀ m ∈ new, P m := by
  obtain ⟨new, rfl, all⟩ := first
  obtain ⟨new', rfl, all'⟩ := second
  exact ⟨new ++ new', append_assoc _ _ _, forall_mem_append.mpr ⟨all, all'⟩⟩

theorem Emits.trans (first : Emits r r') (second : Emits r' r'') : Emits r r'' where
  id := second.id.trans first.id
  msgs := queued_trans first.msgs second.msgs

theorem Posts.silent (id : r'.id = r.id) (config : r'.config = r.config) (term : r'.term = r.term)
    (vote : r'.vote = r.vote) (msgs : r'.msgs = r.msgs) : Posts r r' :=
  ⟨id, config, term, vote, [], by rw [msgs, append_nil], by simp⟩

theorem Posts.trans (first : Posts r r') (second : Posts r' r'') : Posts r r'' where
  id := second.id.trans first.id
  config := second.config.trans first.config
  term := second.term.trans first.term
  vote := second.vote.trans first.vote
  msgs := queued_trans first.msgs second.msgs

/-- A node that differs in other fields only. -/
theorem Posts.after {r₀ : Raft} (posts : Posts r r') (id : r.id = r₀.id)
    (config : r.config = r₀.config) (term : r.term = r₀.term) (vote : r.vote = r₀.vote)
    (msgs : r.msgs = r₀.msgs) : Posts r₀ r' :=
  Posts.trans (.silent id config term vote msgs) posts

theorem Posts.emits (posts : Posts r r') : Emits r r' where
  id := posts.id
  msgs := by
    obtain ⟨new, eq, outgoing⟩ := posts.msgs
    exact ⟨new, eq, fun m mem => (outgoing m mem).1⟩

/-- Queueing a message changes its sender and its term at most. -/
theorem exists_stamp_eq (r : Raft) (m : Message) :
    ∃ fromID term, r.stamp m = { m with fromID := fromID, term := term } := by
  unfold stamp
  dsimp only
  split
  · split
    · exact ⟨_, _, rfl⟩
    · exact ⟨_, m.term, rfl⟩
  · split
    · exact ⟨m.fromID, _, rfl⟩
    · exact ⟨m.fromID, m.term, rfl⟩

theorem stamp_fromID (anonymous : m.fromID = "") : (r.stamp m).fromID = r.id := by
  unfold stamp
  dsimp only
  rw [if_pos anonymous]
  split <;> rfl

theorem Outgoing.stamp (outgoing : Outgoing m) (r : Raft) : Outgoing (r.stamp m) := by
  obtain ⟨fromID, term, eq⟩ := exists_stamp_eq r m
  rw [eq]
  cases outgoing with
  | append type noIndex noTerm => exact .append type noIndex noTerm
  | vote type noEntries noCommit real => exact .vote type noEntries noCommit real
  | heartbeat type => exact .heartbeat type
  | other type => exact .other type

theorem Emits.send (outgoing : Outgoing m) : Emits r (r.send m) where
  id := rfl
  msgs := ⟨[r.stamp m], rfl, forall_mem_singleton.mpr (outgoing.stamp r)⟩

theorem Posts.send (outgoing : Outgoing m) (other : m.type ≠ .vote) : Posts r (r.send m) where
  id := rfl
  config := rfl
  term := rfl
  vote := rfl
  msgs := by
    refine ⟨[r.stamp m], rfl, forall_mem_singleton.mpr ⟨outgoing.stamp r, ?_⟩⟩
    obtain ⟨fromID, term, eq⟩ := exists_stamp_eq r m
    rw [eq]
    exact other

/-! ## Functions that queue nothing -/

theorem resetElectionTimeout_quiet (eq : r.resetElectionTimeout = .ok r') : Quiet r r' where
  id := (SameView.resetElectionTimeout eq).id
  msgs := (SameView.resetElectionTimeout eq).msgs

theorem becomeFollower_quiet {term : ℕ} {lead : NodeID}
    (eq : r.becomeFollower term lead = .ok r') : Quiet r r' := by
  have quiet := resetElectionTimeout_quiet eq
  constructor
  · rw [quiet.id]
    split <;> rfl
  · rw [quiet.msgs]
    split <;> rfl

theorem becomeCandidate_quiet (eq : r.becomeCandidate = .ok r') : Quiet r r' := by
  unfold becomeCandidate at eq
  split at eq
  · nomatch eq
  · have quiet := resetElectionTimeout_quiet eq
    exact ⟨quiet.id, quiet.msgs⟩

/-! ## Functions that send of their own accord -/

theorem sendHeartbeat_posts (r : Raft) (peer : NodeID) : Posts r (r.sendHeartbeat peer) :=
  .send (.heartbeat rfl) nofun

theorem sendAppendEntries_posts {peer : NodeID} (eq : r.sendAppendEntries peer = .ok r') :
    Posts r r' := by
  unfold sendAppendEntries at eq
  split at eq
  · cases eq
    exact .silent rfl rfl rfl rfl rfl
  · split at eq
    · cases eq
      exact .silent rfl rfl rfl rfl rfl
    · obtain ⟨entries, _, same⟩ := bind_eq_ok.mp eq
      cases same
      exact .send (.append rfl rfl rfl) nofun

theorem broadcastAppendEntries_posts {heartbeat : Bool}
    (eq : r.broadcastAppendEntries heartbeat = .ok r') : Posts r r' := by
  refine foldlM_induction (P := Posts r) (.silent rfl rfl rfl rfl rfl)
    (fun r₁ peer r₂ posts _ round => ?_) eq
  split at round
  · cases round
    exact posts.trans (sendHeartbeat_posts r₁ peer)
  · exact posts.trans (sendAppendEntries_posts round)

theorem broadcastHeartbeat_posts (r : Raft) : Posts r r.broadcastHeartbeat :=
  foldlRecOn (motive := Posts r) _ _ (.silent rfl rfl rfl rfl rfl) fun r₁ posts peer _ =>
    posts.trans (sendHeartbeat_posts r₁ peer)

theorem becomeLeader_posts (eq : r.becomeLeader = .ok r') : Posts r r' := by
  unfold becomeLeader at eq
  split at eq
  · nomatch eq
  · obtain ⟨r₁, appended, broadcast⟩ := bind_eq_ok.mp eq
    obtain ⟨log, _, same⟩ := bind_eq_ok.mp appended
    cases same
    have posts := broadcastAppendEntries_posts broadcast
    exact posts.after rfl rfl rfl rfl rfl

theorem handleProposal_posts (eq : r.handleProposal m = .ok r') : Posts r r' := by
  obtain ⟨log, _, rest⟩ := bind_eq_ok.mp eq
  obtain ⟨r₁, broadcast, commits⟩ := bind_eq_ok.mp rest
  cases commits
  have posts : Posts r r₁ := by
    refine (broadcastAppendEntries_posts broadcast).after ?_ ?_ ?_ ?_ ?_
    all_goals split <;> rfl
  exact posts.trans (.silent rfl rfl rfl rfl rfl)

theorem handleAppendResponse_posts (eq : r.handleAppendResponse m = .ok r') : Posts r r' := by
  obtain ⟨progress, r₁, known, sent⟩ := handleAppendResponse_cases eq
  have posts : Posts r r₁ := by
    rcases known with rfl | rfl
    · exact .silent rfl rfl rfl rfl rfl
    · exact .silent rfl rfl rfl rfl rfl
  rcases sent with rfl | sent
  · exact posts
  · exact posts.trans (sendAppendEntries_posts sent)

theorem handleHeartbeat_posts (eq : r.handleHeartbeat m = .ok r') : Posts r r' := by
  obtain ⟨log, _, same⟩ := bind_eq_ok.mp eq
  cases same
  refine Posts.after (r := { r with log := log }) (.send ?_ nofun) rfl rfl rfl rfl rfl
  exact .other (.inl rfl)

theorem handleInstallSnapshot_posts (r : Raft) (m : Message) :
    Posts r (r.handleInstallSnapshot m) := by
  unfold handleInstallSnapshot
  split
  · exact .silent rfl rfl rfl rfl rfl
  · rename_i snapshot _
    refine Posts.after (r := { r with log := r.log.compact snapshot.index snapshot.term })
      (.send ?_ nofun) rfl rfl rfl rfl rfl
    exact .other (.inr (.inl rfl))

theorem handleReadIndex_posts (eq : r.handleReadIndex m = .ok r') : Posts r r' := by
  unfold handleReadIndex at eq
  split at eq
  · nomatch eq
  · rename_i entry _ _
    cases eq
    have posts := broadcastHeartbeat_posts
      { r with readOnly := r.readOnly.addRequest r.log.stats.commitIndex m.fromID entry.data }
    exact posts.after rfl rfl rfl rfl rfl

theorem campaign_emits (eq : r.campaign = .ok r') : Emits r r' := by
  obtain ⟨r₁, candidate, rest⟩ := bind_eq_ok.mp eq
  have quiet := (becomeCandidate_quiet candidate).emits
  split at rest
  · exact quiet.trans (becomeLeader_posts rest).emits
  · cases rest
    refine quiet.trans (foldlRecOn (motive := Emits r₁) _ _ (.refl r₁) ?_)
    intro r₂ emits peer _
    exact emits.trans (.send (.vote rfl rfl rfl rfl))

theorem tick_emits (eq : r.tick = .ok r') : Emits r r' := by
  cases tick_ticks eq with
  | waits => exact ⟨rfl, (Emits.refl r).msgs⟩
  | campaigns ran =>
    have emits := campaign_emits ran
    exact ⟨emits.id, emits.msgs⟩
  | beats _ ran =>
    have emits := (broadcastAppendEntries_posts ran).emits
    exact ⟨emits.id, emits.msgs⟩

theorem handleVoteResponse_emits (eq : r.handleVoteResponse m = .ok r') : Emits r r' := by
  unfold handleVoteResponse at eq
  split at eq
  · dsimp only at eq
    split at eq
    · split at eq
      · have emits := campaign_emits eq
        exact ⟨emits.id, emits.msgs⟩
      · have emits := (becomeLeader_posts eq).emits
        exact ⟨emits.id, emits.msgs⟩
    · cases eq
      exact ⟨rfl, (Emits.refl r).msgs⟩
  · cases eq
    exact ⟨rfl, (Emits.refl r).msgs⟩

/-! ## Answers -/

/-- An append request that passes the checks of a log and leaves it without an entry. -/
def StaysEmpty (r : Raft) (m : Message) : Prop :=
  r.log.committed ≤ m.logIndex ∧ r.logConsistencyCheck m.logIndex m.logTerm = true ∧
    ∃ log, r.log.append m.entries = .ok log ∧ log.lastIndex = 0

/-- The answer of `r` to a request. -/
structure Answer (r : Raft) (m x : Message) : Prop where
  type : x.type = if m.type = .append then .appendRsp else .voteRsp
  toID : x.toID = m.fromID
  fromID : x.fromID = r.id
  votes : m.type = .append → x.voteGranted = false
  plain : m.type ≠ .append →
    x.index = 0 ∧ x.reject = false ∧ x.conflictIndex = 0 ∧ x.conflictTerm = 0
  /-- Only a log without an entry is acknowledged up to index zero. -/
  empty : m.type = .append → (x.index = 0 ∧ x.reject = false ↔ r.StaysEmpty m)

/-- A request is answered at most once, and nothing else is sent. -/
inductive Replies (r : Raft) (m : Message) (r' : Raft) : Prop where
  | silent (quiet : Quiet r r')
  | answered {x : Message} (id : r'.id = r.id) (msgs : r'.msgs = r.msgs ++ [x])
    (answer : Answer r m x)

theorem Replies.congr {r₀ : Raft} (replies : Replies r m r') (id : r.id = r₀.id)
    (log : r.log = r₀.log) (msgs : r.msgs = r₀.msgs) : Replies r₀ m r' := by
  cases replies with
  | silent quiet => exact .silent ⟨quiet.id.trans id, quiet.msgs.trans msgs⟩
  | answered id' msgs' answer =>
    refine .answered (id'.trans id) (msgs ▸ msgs') ?_
    have same : r.StaysEmpty m ↔ r₀.StaysEmpty m := by
      unfold StaysEmpty logConsistencyCheck
      rw [log]
    exact ⟨answer.type, answer.toID, answer.fromID.trans id, answer.votes, answer.plain,
      fun append => (answer.empty append).trans same⟩

variable {r₁ : Raft}

/-- A message without a sender is the answer once it is queued. -/
theorem Replies.of_send {x : Message} (id : r₁.id = r.id) (msgs : r₁.msgs = r.msgs)
    (anonymous : x.fromID = "")
    (answer : ∀ term, Answer r m { x with fromID := r.id, term := term }) :
    Replies r m (r₁.send x) := by
  refine .answered (x := r₁.stamp x) id (by rw [send_eq, msgs]) ?_
  have sender := stamp_fromID (r := r₁) anonymous
  obtain ⟨fromID, term, eq⟩ := exists_stamp_eq r₁ x
  rw [eq] at sender ⊢
  have same : fromID = r.id := sender.trans id
  rw [same]
  exact answer term

theorem handleVoteRequest_replies (r : Raft) (vote : m.type ≠ .append) :
    Replies r m (r.handleVoteRequest m) := by
  have answer : ∀ x : Message, x.type = .voteRsp → x.toID = m.fromID → x.fromID = r.id →
      (x.index = 0 ∧ x.reject = false ∧ x.conflictIndex = 0 ∧ x.conflictTerm = 0) →
      Answer r m x := by
    intro x type toID sender plain
    exact ⟨by rw [if_neg vote, type], toID, sender, fun append => absurd append vote,
      fun _ => plain, fun append => absurd append vote⟩
  unfold handleVoteRequest
  dsimp only
  split
  · refine .of_send ?_ ?_ rfl fun _ => answer _ rfl rfl rfl ⟨rfl, rfl, rfl, rfl⟩
    · split <;> rfl
    · split <;> rfl
  · exact .of_send rfl rfl rfl fun _ => answer _ rfl rfl rfl ⟨rfl, rfl, rfl, rfl⟩

theorem RaftLog.commitTo_lastIndex {l l' : RaftLog} {n : ℕ} {entries : List LogEntry}
    (eq : l.commitTo n = .ok (l', entries)) : l'.lastIndex = l.lastIndex := by
  rcases commitTo_cases eq with rfl | ⟨_, rfl⟩
  · rfl
  · rfl

theorem handleAppendEntries_replies (append : m.type = .append)
    (eq : r.handleAppendEntries m = .ok r') : Replies r m r' := by
  have answer : ∀ x : Message, x.type = .appendRsp → x.toID = m.fromID → x.fromID = r.id →
      x.voteGranted = false → (x.index = 0 ∧ x.reject = false ↔ r.StaysEmpty m) →
      Answer r m x := by
    intro x type toID sender votes empty
    exact ⟨by rw [if_pos append, type], toID, sender, fun _ => votes,
      fun vote => absurd append vote, fun _ => empty⟩
  unfold handleAppendEntries at eq
  split at eq
  · rename_i behind
    change m.logIndex < r.log.committed at behind
    cases eq
    refine .of_send rfl rfl rfl fun _ => answer _ rfl rfl rfl rfl ⟨?_, ?_⟩
    · rintro ⟨zero, _⟩
      change r.log.committed = 0 at zero
      omega
    · rintro ⟨ahead, _, _⟩
      omega
  · rename_i ahead
    split at eq
    · rename_i conflict
      cases eq
      refine .of_send rfl rfl rfl fun _ => answer _ rfl rfl rfl rfl ⟨?_, ?_⟩
      · rintro ⟨_, accepted⟩
        nomatch accepted
      · rintro ⟨_, consistent, _⟩
        rw [consistent] at conflict
        nomatch conflict
    · rename_i consistent
      obtain ⟨log, appended, rest⟩ := bind_eq_ok.mp eq
      obtain ⟨log', commits, same⟩ := bind_eq_ok.mp rest
      cases same
      have last : log'.lastIndex = log.lastIndex := by
        split at commits
        · obtain ⟨⟨log₁, _⟩, moved, same⟩ := bind_eq_ok.mp commits
          cases same
          exact RaftLog.commitTo_lastIndex moved
        · cases commits
          rfl
      have appended : r.log.append m.entries = .ok log := by
        split at appended
        · exact appended
        · rename_i none
          rw [length_eq_zero_iff.mp (Nat.eq_zero_of_not_pos none)]
          exact appended
      refine .of_send rfl rfl rfl fun _ => answer _ rfl rfl rfl rfl ⟨?_, ?_⟩
      · rintro ⟨zero, _⟩
        exact ⟨not_lt.mp ahead, by simpa using consistent, log, appended, last ▸ zero⟩
      · rintro ⟨_, _, log₁, appended₁, zero⟩
        rw [appended] at appended₁
        cases appended₁
        exact ⟨last.trans zero, rfl⟩

/-! ## Steps -/

/-- What a step does to the queue, by the kind of the message. -/
def Sends (r : Raft) (m : Message) (r' : Raft) : Prop :=
  if m.type.isRequest then Replies r m r' else Emits r r'

theorem Sends.replies (request : m.type.isRequest = true) (replies : Replies r m r') :
    Sends r m r' := by
  rw [Sends, if_pos request]
  exact replies

theorem Sends.emits (type : m.type.isRequest = false) (emits : Emits r r') : Sends r m r' := by
  rw [Sends, type]
  exact emits

theorem Sends.quiet (quiet : Quiet r r') : Sends r m r' := by
  unfold Sends
  split
  · exact .silent quiet
  · exact quiet.emits

theorem Sends.after (sends : Sends r₁ m r') (quiet : Quiet r r₁) (log : r₁.log = r.log) :
    Sends r m r' := by
  unfold Sends at sends
  split at sends
  · rename_i request
    exact .replies request (sends.congr quiet.id log quiet.msgs)
  · rename_i other
    exact .emits (Bool.eq_false_of_not_eq_true other) (quiet.emits.trans sends)

theorem Follows.quiet (follows : Follows r m r₁) : Quiet r r₁ := by
  cases follows with
  | stays => exact ⟨rfl, rfl⟩
  | becomes ran => exact becomeFollower_quiet ran

theorem Handles.sends (handles : Handles r m r') : Sends r m r' := by
  cases handles with
  | ignored | noted => exact .quiet ⟨rfl, rfl⟩
  | heartbeat type follows ran =>
    exact .emits (type ▸ rfl) (follows.quiet.emits.trans (handleHeartbeat_posts ran).emits)
  | append type follows ran =>
    have replies := handleAppendEntries_replies type ran
    exact (Sends.replies (type ▸ rfl) replies).after follows.quiet follows.log
  | @snapshot r₁ type follows =>
    exact .emits (type ▸ rfl) (follows.quiet.emits.trans (handleInstallSnapshot_posts r₁ m).emits)
  | vote type =>
    rcases type with type | type
    · exact .replies (type ▸ rfl) (handleVoteRequest_replies r (by simp [type]))
    · exact .replies (type ▸ rfl) (handleVoteRequest_replies r (by simp [type]))
  | timeoutNow type ran => exact .emits (type ▸ rfl) (campaign_emits ran)
  | forward type => exact .emits (type ▸ rfl) (.send (.other (.inr (.inr type))))
  | voteRsp type ran =>
    rcases type with type | type
    · exact .emits (type ▸ rfl) (handleVoteResponse_emits ran)
    · exact .emits (type ▸ rfl) (handleVoteResponse_emits ran)
  | propose type ran => exact .emits (type ▸ rfl) (handleProposal_posts ran).emits
  | appendRsp type ran => exact .emits (type ▸ rfl) (handleAppendResponse_posts ran).emits
  | heartbeatRsp type _ ran =>
    have emits := (sendAppendEntries_posts ran).emits
    exact .emits (type ▸ rfl) ⟨emits.id, emits.msgs⟩
  | readIndex type ran => exact .emits (type ▸ rfl) (handleReadIndex_posts ran).emits

/-- A step answers a request at most once, and every other message not at all. -/
theorem step_sends {err : Option String} (eq : r.step m = .ok (r', err)) : Sends r m r' := by
  rcases step_handles eq with handles | ⟨lead, r₁, follows, handles⟩
  · exact handles.sends
  · exact handles.sends.after (becomeFollower_quiet follows) (becomeFollower_log follows)

/-- A message that a node adds to its queue, in a tick or in a step. -/
inductive Emitted (r : Raft) (x : Message) : Prop where
  | tick {r' : Raft} {new : List Message} (eq : r.tick = .ok r')
    (msgs : r'.msgs = r.msgs ++ new) (mem : x ∈ new)
  | step {m : Message} {r' : Raft} {err : Option String} {new : List Message}
    (eq : r.step m = .ok (r', err)) (msgs : r'.msgs = r.msgs ++ new) (mem : x ∈ new)

theorem Emits.outgoing (emits : Emits r r') {new : List Message}
    (msgs : r'.msgs = r.msgs ++ new) : ∀ x ∈ new, Outgoing x := by
  obtain ⟨new', msgs', outgoing⟩ := emits.msgs
  rw [msgs] at msgs'
  rw [append_cancel_left msgs']
  exact outgoing

/-- A message is sent of a node's own accord, or it is an answer. -/
theorem Emitted.outgoing_or_response {x : Message} (emitted : Emitted r x) :
    Outgoing x ∨ x.type.isResponse = true := by
  cases emitted with
  | tick eq msgs mem => exact .inl ((tick_emits eq).outgoing msgs x mem)
  | @step m r' err new eq msgs mem =>
    have sends := step_sends eq
    unfold Sends at sends
    split at sends
    · right
      cases sends with
      | silent quiet =>
        rw [quiet.msgs, self_eq_append_right] at msgs
        rw [msgs] at mem
        nomatch mem
      | answered _ msgs' answer =>
        rw [msgs'] at msgs
        rw [← append_cancel_left msgs, mem_singleton] at mem
        rw [mem, answer.type]
        split <;> rfl
    · exact .inl (sends.outgoing msgs x mem)

end Hermes.Raft
