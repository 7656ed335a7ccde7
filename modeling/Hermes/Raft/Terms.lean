import Hermes.Raft.Emission

/-!
# Terms and votes of one node

A node enters a higher term when it follows, stands for election or grants a vote, and
only then its vote changes.  The messages that show its votes are queued in the same step.
A vote request is exempt from the rule that a higher term is adopted: a node that rejects
it stays in its term.
-/

namespace Hermes.Raft

open Bool List

/-- A message that shows a vote: one that was granted, or a request of a candidate, which
votes for itself. -/
def Ballot (x : Message) (voter candidate : NodeID) (term : ℕ) : Prop :=
  candidate ≠ "" ∧ x.fromID = voter ∧ x.term = term ∧ x.preVote = false ∧
    (x.type = .voteRsp ∧ x.voteGranted = true ∧ x.toID = candidate ∨
      x.type = .vote ∧ candidate = voter)

variable {r r' r'' : Raft} {m : Message}

/-! ## Functions that keep the term and the vote -/

/-- Nothing changes in the term and the vote, and no message about votes is queued. -/
structure Calm (r r' : Raft) : Prop where
  id : r'.id = r.id
  config : r'.config = r.config
  term : r'.term = r.term
  vote : r'.vote = r.vote
  msgs : ∃ new, r'.msgs = r.msgs ++ new ∧ ∀ x ∈ new, x.type ≠ .vote ∧ x.type ≠ .voteRsp

theorem Calm.silent (id : r'.id = r.id) (config : r'.config = r.config) (term : r'.term = r.term)
    (vote : r'.vote = r.vote) (msgs : r'.msgs = r.msgs) : Calm r r' :=
  ⟨id, config, term, vote, [], by rw [msgs, append_nil], fun _ mem => nomatch mem⟩

theorem Calm.refl (r : Raft) : Calm r r :=
  .silent rfl rfl rfl rfl rfl

theorem Calm.send {log : RaftLog} (plain : m.type ≠ .vote ∧ m.type ≠ .voteRsp) :
    Calm r ({ r with log := log }.send m) where
  id := rfl
  config := rfl
  term := rfl
  vote := rfl
  msgs := by
    refine ⟨[{ r with log := log }.stamp m], rfl, forall_mem_singleton.mpr ?_⟩
    obtain ⟨fromID, term, eq⟩ := exists_stamp_eq { r with log := log } m
    rw [eq]
    exact plain

theorem Posts.calm (posts : Posts r r') : Calm r r' where
  __ := posts
  msgs := by
    obtain ⟨new, eq, outgoing⟩ := posts.msgs
    refine ⟨new, eq, fun x mem => ⟨(outgoing x mem).2, fun answer => ?_⟩⟩
    have other := (outgoing x mem).1.not_isResponse
    rw [answer] at other
    nomatch other

theorem handleAppendEntries_calm (eq : r.handleAppendEntries m = .ok r') : Calm r r' := by
  unfold handleAppendEntries at eq
  split at eq
  · cases eq
    exact .send ⟨nofun, nofun⟩
  · split at eq
    · cases eq
      exact .send ⟨nofun, nofun⟩
    · obtain ⟨_, _, rest⟩ := bind_eq_ok.mp eq
      obtain ⟨log, _, same⟩ := bind_eq_ok.mp rest
      cases same
      exact .send ⟨nofun, nofun⟩

/-! ## Functions that may change them -/

/-- The messages that show votes of node `p` agree with its term and its vote. -/
structure VotesOK (sent : List Message) (p : NodeID) (r : Raft) : Prop where
  id : r.id = p
  own : ∀ x ∈ r.msgs, ∀ voter candidate term, Ballot x voter candidate term → voter = p
  agrees : ∀ x ∈ sent ++ r.msgs, ∀ candidate term, Ballot x p candidate term →
    term ≤ r.term ∧ (term = r.term → candidate = r.vote)
  shown : r.vote = "" ∨ r.config.peers = [] ∨ ∃ x ∈ sent ++ r.msgs, Ballot x p r.vote r.term

/-- A node goes on, and the messages still agree with its vote. -/
def Turn (r r' : Raft) : Prop :=
  ∀ sent p, VotesOK sent p r → VotesOK sent p r'

/-- The term of the node does not fall, it keeps its vote as long as it stays in its term, and
the messages that it queues about votes agree with its vote. -/
theorem Turn.of (new : List Message) (id : r'.id = r.id) (config : r'.config = r.config)
    (term_le : r.term ≤ r'.term) (kept : r'.term = r.term → r.vote ≠ "" → r'.vote = r.vote)
    (msgs : r'.msgs = r.msgs ++ new)
    (shows : ∀ x ∈ new, ∀ voter candidate term, Ballot x voter candidate term →
      voter = r.id ∧ term ≤ r'.term ∧ (term = r'.term → candidate = r'.vote))
    (shown : r'.vote = "" ∨ r'.term = r.term ∧ r'.vote = r.vote ∨ r.config.peers = [] ∨
      ∃ x ∈ new, Ballot x r.id r'.vote r'.term) : Turn r r' := by
  intro sent p ok
  obtain rfl := ok.id
  refine ⟨id, ?own, ?agrees, ?shown⟩
  case own =>
    intro x mem voter candidate term ballot
    rw [msgs] at mem
    rcases mem_append.mp mem with old | fresh
    · exact ok.own x old voter candidate term ballot
    · exact (shows x fresh voter candidate term ballot).1
  case agrees =>
    intro x mem candidate term ballot
    rw [msgs, ← append_assoc] at mem
    rcases mem_append.mp mem with old | fresh
    · obtain ⟨before, vote⟩ := ok.agrees x old candidate term ballot
      refine ⟨before.trans term_le, fun same => ?_⟩
      have vote := vote (by omega)
      rw [kept (by omega) (vote ▸ ballot.1), vote]
    · exact (shows x fresh r.id candidate term ballot).2
  case shown =>
    rw [msgs, ← append_assoc, config]
    rcases shown with none | ⟨term, vote⟩ | alone | ⟨x, mem, ballot⟩
    · exact .inl none
    · rw [term, vote]
      rcases ok.shown with none | alone | ⟨x, mem, ballot⟩
      · exact .inl none
      · exact .inr (.inl alone)
      · exact .inr (.inr ⟨x, mem_append_left _ mem, ballot⟩)
    · exact .inr (.inl alone)
    · exact .inr (.inr ⟨x, mem_append_right _ mem, ballot⟩)

theorem Turn.trans (first : Turn r r') (second : Turn r' r'') : Turn r r'' :=
  fun sent p ok => second sent p (first sent p ok)

theorem Calm.turn (calm : Calm r r') : Turn r r' := by
  obtain ⟨new, msgs, plain⟩ := calm.msgs
  refine .of new calm.id calm.config calm.term.ge (fun _ _ => calm.vote) msgs ?_
    (.inr (.inl ⟨calm.term, calm.vote⟩))
  rintro x mem voter candidate term ⟨-, -, -, -, granted | asked⟩
  · exact absurd granted.1 (plain x mem).2
  · exact absurd asked.1 (plain x mem).1

variable {term : ℕ} {lead : NodeID}

theorem becomeFollower_turn (eq : r.becomeFollower term lead = .ok r') : Turn r r' := by
  have view := SameView.resetElectionTimeout eq
  have quiet : r'.msgs = r.msgs := (becomeFollower_quiet eq).msgs
  by_cases higher : term > r.term
  · rw [if_pos higher] at view
    refine .of [] view.id view.config (view.term ▸ higher.le) (fun same => ?_)
      (quiet.trans (append_nil _).symm) (fun x mem => nomatch mem) (.inl view.vote)
    exact absurd (view.term.symm.trans same) (ne_of_gt higher)
  · rw [if_neg higher] at view
    have calm : Calm r r' := .silent view.id view.config view.term view.vote quiet
    exact calm.turn

theorem becomeFollower_term (reached : r.term ≤ term) (eq : r.becomeFollower term lead = .ok r') :
    r'.term = term := by
  rw [(SameView.resetElectionTimeout eq).term]
  split
  · rfl
  · rename_i notHigher
    exact le_antisymm reached (not_lt.mp notHigher)

theorem foldl_send_eq (r : Raft) (peers : List NodeID) (message : ℕ → NodeID → Message) :
    peers.foldl (fun r peer => r.send (message r.term peer)) r =
      { r with msgs := r.msgs ++ peers.map fun peer => r.stamp (message r.term peer) } := by
  induction peers generalizing r with
  | nil => rw [foldl_nil, map_nil, append_nil]
  | cons peer rest ih =>
    rw [foldl_cons, ih]
    simp only [send_eq, append_assoc]
    rfl

/-- The request for votes that a candidate sends to a peer. -/
def voteRequest (log : RaftLog) (term : ℕ) (peer : NodeID) : Message where
  type := .vote
  toID := peer
  term := term
  logIndex := log.lastIndex
  logTerm := log.lastTerm
  lastLogIndex := log.lastIndex
  lastLogTerm := log.lastTerm

/-- What standing for election does, apart from timers and roles. -/
theorem campaign_cases (eq : r.campaign = .ok r') :
    ∃ r₁, r₁.id = r.id ∧ r₁.config = r.config ∧ r₁.term = r.term + 1 ∧ r₁.vote = r.id ∧
      r₁.msgs = r.msgs ∧ (r.config.peers = [] ∧ Calm r₁ r' ∨
        r' = { r₁ with
          msgs := r.msgs ++
            r.config.peers.map (fun peer => r₁.stamp (voteRequest r₁.log r₁.term peer)) }) := by
  obtain ⟨r₁, candidate, rest⟩ := bind_eq_ok.mp eq
  unfold becomeCandidate at candidate
  split at candidate
  · nomatch candidate
  have view := SameView.resetElectionTimeout candidate
  have same : r₁.config = r.config := view.config
  have queue : r₁.msgs = r.msgs := view.msgs
  refine ⟨r₁, view.id, same, view.term, view.vote, queue, ?_⟩
  split at rest
  · rename_i alone
    rw [same] at alone
    exact .inl ⟨length_eq_zero_iff.mp alone, (becomeLeader_posts rest).calm⟩
  · cases rest
    right
    rw [← same, ← queue]
    exact foldl_send_eq r₁ r₁.config.peers (voteRequest r₁.log)

/-- A candidate votes for itself and tells its peers. -/
theorem campaign_turn (eq : r.campaign = .ok r') : Turn r r' := by
  obtain ⟨r₁, id, config, higher, self, queue, rest⟩ := campaign_cases eq
  have later : r.term ≤ r₁.term := higher ▸ Nat.le_succ _
  have kept : r₁.term = r.term → r.vote ≠ "" → r₁.vote = r.vote :=
    fun same => absurd (higher.symm.trans same) (Nat.succ_ne_self _)
  rcases rest with ⟨alone, calm⟩ | rfl
  · refine Turn.trans (.of [] id config later kept ?_ (fun x mem => nomatch mem) ?_) calm.turn
    · rw [queue, append_nil]
    · exact .inr (.inr (.inl alone))
  · have asks : ∀ peer, r₁.stamp (voteRequest r₁.log r₁.term peer) =
        { voteRequest r₁.log r₁.term peer with fromID := r₁.id } := fun peer => stamp_eq rfl rfl
    refine .of _ id config later kept rfl ?_ ?_
    · intro x mem
      obtain ⟨peer, -, rfl⟩ := mem_map.mp mem
      rintro voter candidate term ⟨-, sender, current, -, granted | asked⟩
      · rw [asks] at granted
        nomatch granted.1
      · rw [asks] at sender current
        have own : r₁.id = voter := sender
        refine ⟨own ▸ id, current.ge, fun _ => ?_⟩
        rw [asked.2, ← own, id]
        exact self.symm
    · by_cases named : r₁.vote = ""
      · exact .inl named
      · cases peers : r.config.peers with
        | nil => exact .inr (.inr (.inl rfl))
        | cons peer rest =>
          refine .inr (.inr (.inr ⟨_, mem_cons_self, named, ?_⟩))
          dsimp only
          rw [asks]
          exact ⟨id, rfl, rfl, .inr ⟨rfl, self⟩⟩

theorem Turn.of_hidden {x : Message} (id : r'.id = r.id) (config : r'.config = r.config)
    (term : r'.term = r.term) (vote : r'.vote = r.vote) (msgs : r'.msgs = r.msgs ++ [x])
    (hidden : ∀ voter candidate term, ¬ Ballot x voter candidate term) : Turn r r' := by
  refine .of [x] id config term.ge (fun _ _ => vote) msgs ?_ (.inr (.inl ⟨term, vote⟩))
  rw [forall_mem_singleton]
  exact fun voter candidate term ballot => absurd ballot (hidden voter candidate term)

theorem not_ballot_of_preVote (r : Raft) (pre : m.preVote = true) (voter candidate : NodeID)
    (term : ℕ) : ¬ Ballot (r.stamp m) voter candidate term := by
  obtain ⟨fromID, term', eq⟩ := exists_stamp_eq r m
  rw [eq]
  rintro ⟨-, -, -, real, -⟩
  exact absurd pre (eq_false_iff.mp real)

/-- The voter is free to vote for the sender: it has voted for nobody and knows no leader, or
it has voted for the sender. -/
def Free (r : Raft) (m : Message) : Prop :=
  r.vote = "" ∧ r.lead = "" ∨ r.vote = m.fromID

theorem canVote_iff_free (real : m.preVote = false) : r.canVote m = true ↔ r.Free m := by
  simp [canVote, Free, real]

/-- The answer to a vote request that is granted. -/
theorem handleVoteRequest_of_grant (real : m.preVote = false) (free : r.Free m)
    (upToDate : r.log.isUpToDate m.lastLogIndex m.lastLogTerm = true) :
    r.handleVoteRequest m =
      { r with
        vote := m.fromID
        term := m.term
        electionElapsed := 0
        msgs := r.msgs ++ [{
          type := .voteRsp
          toID := m.fromID
          fromID := r.id
          term := m.term
          voteGranted := true }] } := by
  have granted : (r.canVote m && r.log.isUpToDate m.lastLogIndex m.lastLogTerm) = true := by
    rw [upToDate, (canVote_iff_free real).mpr free]
    rfl
  unfold handleVoteRequest
  simp only [granted, real, Bool.not_false, if_true, send_eq]
  rw [stamp_eq rfl rfl]

/-- The answer to a vote request that is not granted. -/
theorem handleVoteRequest_of_reject (real : m.preVote = false)
    (rejects : ¬ (r.Free m ∧ r.log.isUpToDate m.lastLogIndex m.lastLogTerm = true)) :
    r.handleVoteRequest m =
      { r with
        msgs := r.msgs ++ [{
          type := .voteRsp
          toID := m.fromID
          fromID := r.id
          term := r.term }] } := by
  have rejected : (r.canVote m && r.log.isUpToDate m.lastLogIndex m.lastLogTerm) = false := by
    rw [← not_eq_true, and_eq_true, canVote_iff_free real]
    exact rejects
  unfold handleVoteRequest
  simp only [rejected, real, false_eq_true, if_false, send_eq]
  rw [stamp_eq rfl rfl]

theorem handleVoteRequest_turn (reached : r.term ≤ m.term) : Turn r (r.handleVoteRequest m) := by
  cases real : m.preVote with
  | true =>
    unfold handleVoteRequest
    simp only [real]
    split
    · exact .of_hidden rfl rfl rfl rfl rfl (not_ballot_of_preVote _ rfl)
    · exact .of_hidden rfl rfl rfl rfl rfl (not_ballot_of_preVote _ rfl)
  | false =>
    by_cases grants : r.Free m ∧ r.log.isUpToDate m.lastLogIndex m.lastLogTerm = true
    · obtain ⟨free, upToDate⟩ := grants
      rw [handleVoteRequest_of_grant real free upToDate]
      refine .of _ rfl rfl reached (fun _ voted => ?_) rfl (forall_mem_singleton.mpr ?_) ?_
      · rcases free with ⟨none, -⟩ | same
        · exact absurd none voted
        · exact same.symm
      · rintro voter candidate term ⟨-, sender, current, -, granted | asked⟩
        · exact ⟨sender.symm, current.ge, fun _ => granted.2.2.symm⟩
        · nomatch asked.1
      · by_cases named : m.fromID = ""
        · exact .inl named
        · refine .inr (.inr (.inr ⟨_, mem_singleton_self _, named, ?_⟩))
          exact ⟨rfl, rfl, rfl, .inl ⟨rfl, rfl, rfl⟩⟩
    · rw [handleVoteRequest_of_reject real grants]
      refine .of_hidden rfl rfl rfl rfl rfl ?_
      rintro voter candidate term ⟨-, -, -, -, granted | asked⟩
      · nomatch granted.2.1
      · nomatch asked.1

/-! ## Ticks and messages -/

theorem handleVoteResponse_turn (eq : r.handleVoteResponse m = .ok r') : Turn r r' := by
  unfold handleVoteResponse at eq
  have counted : ∀ vote : Bool, Calm r { r with votes := r.votes.insert m.fromID vote } :=
    fun _ => .silent rfl rfl rfl rfl rfl
  split at eq
  · dsimp only at eq
    split at eq
    · split at eq
      · exact (counted true).turn.trans (campaign_turn eq)
      · exact (counted true).turn.trans (becomeLeader_posts eq).calm.turn
    · cases eq
      exact (counted true).turn
  · cases eq
    exact (counted false).turn

theorem tick_turn (eq : r.tick = .ok r') : Turn r r' := by
  cases tick_ticks eq with
  | waits => exact Calm.turn (.silent rfl rfl rfl rfl rfl)
  | campaigns ran =>
    have ready : Calm r { r with electionElapsed := 0 } := .silent rfl rfl rfl rfl rfl
    exact ready.turn.trans (campaign_turn ran)
  | beats _ ran =>
    have posts : Posts r r' := (broadcastAppendEntries_posts ran).after rfl rfl rfl rfl rfl
    exact posts.calm.turn

theorem Follows.turn {r₁ : Raft} (follows : Follows r m r₁) : Turn r r₁ := by
  cases follows with
  | stays => exact Calm.turn (.silent rfl rfl rfl rfl rfl)
  | becomes ran => exact becomeFollower_turn ran

/-- What a message does to the term and the vote, if a vote request is not of a lower term. -/
theorem Handles.turn (handles : Handles r m r')
    (reached : m.type = .vote ∨ m.type = .preVote → r.term ≤ m.term) : Turn r r' := by
  cases handles with
  | ignored => exact (Calm.refl r).turn
  | heartbeat _ follows ran => exact follows.turn.trans (handleHeartbeat_posts ran).calm.turn
  | append _ follows ran => exact follows.turn.trans (handleAppendEntries_calm ran).turn
  | @snapshot r₁ _ follows => exact follows.turn.trans (handleInstallSnapshot_posts r₁ m).calm.turn
  | vote type => exact handleVoteRequest_turn (reached type)
  | timeoutNow _ ran => exact campaign_turn ran
  | forward type =>
    refine (Calm.send ?_).turn
    rw [type]
    exact ⟨nofun, nofun⟩
  | voteRsp _ ran => exact handleVoteResponse_turn ran
  | propose _ ran => exact (handleProposal_posts ran).calm.turn
  | appendRsp _ ran => exact (handleAppendResponse_posts ran).calm.turn
  | noted => exact Calm.turn (.silent rfl rfl rfl rfl rfl)
  | heartbeatRsp _ _ ran =>
    have posts : Posts r r' := (sendAppendEntries_posts ran).after rfl rfl rfl rfl rfl
    exact posts.calm.turn
  | readIndex _ ran => exact (handleReadIndex_posts ran).calm.turn

variable {err : Option String}

/-- What a step does to the term and the vote, if a vote request names a term. -/
theorem step_turn (positive : m.type = .vote ∨ m.type = .preVote → 1 ≤ m.term)
    (eq : r.step m = .ok (r', err)) : Turn r r' := by
  unfold step at eq
  split at eq
  · refine (stepRole_handles eq).turn fun isVote => ?_
    have := positive isVote
    omega
  · split at eq
    · rename_i higher
      split at eq
      · exact (stepRole_handles eq).turn fun _ => higher.le
      · rename_i notVote
        obtain ⟨r₁, follows, handled⟩ := bind_eq_ok.mp eq
        have turn := (stepRole_handles handled).turn fun isVote => absurd isVote notVote
        exact (becomeFollower_turn follows).trans turn
    · split at eq
      · cases eq
        exact (Calm.refl r).turn
      · rename_i notLower
        exact (stepRole_handles eq).turn fun _ => not_lt.mp notLower

/-- A message that only asks for a pre-vote. -/
def Message.IsPreVote (m : Message) : Prop :=
  m.type = .preVote ∨ m.type = .vote ∧ m.preVote = true

/-- The node has reached the term, and it is no leader or candidate of a lower one.  The term
of a node wraps around. -/
def Adopted (r : Raft) (term : ℕ) : Prop :=
  term ≤ r.term % 2 ^ 64 ∧
    ¬ ((r.state = .leader ∨ r.state = .candidate) ∧ r.term % 2 ^ 64 < term)

theorem adopted_iff_le : r.Adopted term ↔ term ≤ r.term % 2 ^ 64 := by
  constructor
  · exact fun adopted => adopted.1
  · exact fun reached => ⟨reached, fun lower => not_lt.mpr reached lower.2⟩

/-- A follower that is told to stand for election enters the next term. -/
theorem stepFollower_term (notVote : ¬ (m.type = .vote ∨ m.type = .preVote))
    (eq : r.stepFollower m = .ok (r', err)) :
    r'.term = if m.type = .timeoutNow then r.term + 1 else r.term := by
  unfold stepFollower at eq
  split at eq
  · rename_i type
    obtain ⟨r₁, handled, same⟩ := bind_eq_ok.mp eq
    cases same
    rw [(handleHeartbeat_posts handled).term, type]
    rfl
  · rename_i type
    obtain ⟨r₁, handled, same⟩ := bind_eq_ok.mp eq
    cases same
    rw [(handleAppendEntries_calm handled).term, type]
    rfl
  · rename_i type
    cases eq
    rw [(handleInstallSnapshot_posts _ m).term, type]
    rfl
  · exact absurd (.inl ‹_›) notVote
  · exact absurd (.inr ‹_›) notVote
  · rename_i type
    obtain ⟨r₁, ran, same⟩ := bind_eq_ok.mp eq
    cases same
    obtain ⟨r₂, -, -, higher, -, -, ⟨-, calm⟩ | rfl⟩ := campaign_cases ran
    · rw [calm.term, higher, if_pos type]
    · rw [higher, if_pos type]
  · rename_i type
    split at eq <;> cases eq <;> rw [type] <;> rfl
  · rename_i notTimeout _
    cases eq
    rw [if_neg notTimeout]

/-- After a message of a higher term but a vote request a node is in that term, or in the next
one if it was told to stand for election. -/
theorem term_of_step (higher : r.term < m.term)
    (notVote : ¬ (m.type = .vote ∨ m.type = .preVote)) (eq : r.step m = .ok (r', err)) :
    r'.term = if m.type = .timeoutNow then m.term + 1 else m.term := by
  unfold step at eq
  rw [if_neg (by omega), if_pos higher, if_neg notVote] at eq
  obtain ⟨r₁, follows, handled⟩ := bind_eq_ok.mp eq
  have follower : r₁.state = .follower := (SameView.resetElectionTimeout follows).state
  rw [stepRole, follower] at handled
  rw [stepFollower_term notVote handled, becomeFollower_term higher.le follows]

/-- A node adopts the higher term of a message, unless it is a vote request that the node does
not grant, or the highest term there is comes with the order to stand for election. -/
theorem adopted_iff {err : Option String} (higher : r.term < m.term) (fits : m.term < 2 ^ 64)
    (real : ¬ m.IsPreVote) (eq : r.step m = .ok (r', err)) :
    r'.Adopted m.term ↔ (m.type = .vote →
        r.Free m ∧ r.log.isUpToDate m.lastLogIndex m.lastLogTerm = true) ∧
      (m.type = .timeoutNow → m.term + 1 < 2 ^ 64) := by
  rw [adopted_iff_le]
  by_cases isVote : m.type = .vote
  · have plain : m.preVote = false := eq_false_iff.mpr fun pre => real (.inr ⟨isVote, pre⟩)
    rw [step_vote isVote higher.le] at eq
    cases eq
    by_cases grants : r.Free m ∧ r.log.isUpToDate m.lastLogIndex m.lastLogTerm = true
    · rw [handleVoteRequest_of_grant plain grants.1 grants.2]
      refine iff_of_true ?_ ⟨fun _ => grants, fun timeout => ?_⟩
      · rw [Nat.mod_eq_of_lt fits]
      · rw [isVote] at timeout
        nomatch timeout
    · rw [handleVoteRequest_of_reject plain grants]
      refine iff_of_false ?_ fun needed => grants (needed.1 isVote)
      rw [Nat.mod_eq_of_lt (higher.trans fits)]
      exact not_le.mpr higher
  · have notVote : ¬ (m.type = .vote ∨ m.type = .preVote) := by
      rintro (vote | pre)
      · exact isVote vote
      · exact real (.inl pre)
    rw [term_of_step higher notVote eq]
    by_cases timeout : m.type = .timeoutNow
    · rw [if_pos timeout]
      constructor
      · exact fun reached => ⟨fun vote => absurd vote isVote, fun _ => by omega⟩
      · intro needed
        rw [Nat.mod_eq_of_lt (needed.2 timeout)]
        exact Nat.le_succ _
    · rw [if_neg timeout, Nat.mod_eq_of_lt fits]
      exact iff_of_true le_rfl ⟨fun vote => absurd vote isVote, fun order => absurd order timeout⟩

/-- A follower that has voted in term one. -/
def voter : Raft where
  config := defaultConfig "c" ["a", "b"]
  id := "c"
  term := 1
  vote := "a"
  rng := fun _ => 0

/-- A batch of a leader of term two. -/
theorem adopted_append : ∃ r' err,
    voter.step { type := .append, fromID := "b", term := 2 } = .ok (r', err) ∧ r'.Adopted 2 := by
  refine ⟨_, _, rfl, ?_⟩
  refine (adopted_iff (r := voter) (m := { type := .append, fromID := "b", term := 2 })
    (by decide) (by decide) ?_ rfl).mpr ⟨nofun, nofun⟩
  rintro (pre | pre)
  · nomatch pre
  · nomatch pre.1

/-- The voter rejects the request of another candidate of term two, and stays in term one. -/
theorem not_adopted_vote : ∃ r' err,
    voter.step { type := .vote, fromID := "b", term := 2 } = .ok (r', err) ∧ ¬ r'.Adopted 2 := by
  refine ⟨_, _, rfl, fun adopted => ?_⟩
  exact absurd adopted.1 (by decide)

end Hermes.Raft
