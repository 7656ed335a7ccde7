import Hermes.Raft.Refinement.Sending

/-!
# Role changes as steps of a replica

`becomeFollower`, `campaign`, `becomeLeader` and the two vote handlers, each as
a sequence of steps of the replica that the node implements.
-/

namespace Hermes.Raft

open AList List
open Replication (Inv Step Steps State)

variable {A : Assumptions} {ms : Membership} {s : Replication.State NodeID LogEntry}
  {id : NodeID} {r r' : Raft}

theorem RaftLog.WellFormed.lastTerm_eq {l : RaftLog} (wf : l.WellFormed) :
    l.lastTerm = Replication.lastTerm LogEntry.term l.body := by
  rw [RaftLog.lastTerm, wf.lastIndex_eq]
  rcases eq_nil_or_concat' l.body with empty | ⟨before, entry, split⟩
  · simp [empty, Replication.lastTerm, wf.termOf_zero]
  · have inBody : before ++ [entry] <+: l.body := split ▸ prefix_rfl
    have termEq := wf.termOf_concat inBody
    rw [split, length_append, length_singleton, termEq]
    simp [Replication.lastTerm]

theorem lookup_foldl_insert {β : Type} (keys : List NodeID) (value : β)
    (map : AList fun _ : NodeID => β) (q : NodeID) :
    (keys.foldl (fun map key => map.insert key value) map).lookup q =
      if q ∈ keys then some value else map.lookup q := by
  induction keys generalizing map with
  | nil => simp
  | cons key rest ih =>
    rw [foldl_cons, ih]
    by_cases inRest : q ∈ rest
    · simp [inRest]
    · by_cases first : q = key
      · subst first
        simp
      · simp [first]

theorem lookup_leaderProgress (r : Raft) (q : NodeID) :
    r.leaderProgress.lookup q =
      if q ∈ r.config.peers then
        some { nextIndex := r.log.lastIndex + 1, matchIndex := 0, state := .probe }
      else if q = r.id then
        some { nextIndex := r.log.lastIndex + 1
               matchIndex := r.log.lastIndex
               state := .replicate
               recentActive := true }
      else r.progress.lookup q := by
  rw [Raft.leaderProgress, lookup_foldl_insert]
  by_cases self : q = r.id
  · subst self
    simp
  · simp [self]

theorem hasQuorum_iff (r : Raft) (votes : AList fun _ : NodeID => Bool) :
    r.hasQuorum votes = true ↔
      1 + r.config.peers.length < (votes.entries.countP fun vote => vote.2) * 2 :=
  decide_eq_true_iff

/-- The votes a candidate has counted. -/
def granted (r : Raft) : Finset NodeID :=
  keysWith r.votes fun vote => vote.2

theorem card_granted (r : Raft) : r.granted.card = r.votes.entries.countP fun vote => vote.2 :=
  card_keysWith _ _

namespace NodeOK

section

variable (ok : NodeOK A ms s id r)

include ok

/-! ## Following -/

variable {s' : Replication.State NodeID LogEntry}

/-- A node that follows, in a later term or with a leader of its own term. -/
theorem follow
    (history : s'.toHistory = s.toHistory) {t : ℕ} {vote lead : NodeID}
    (reached : r.term ≤ t) (positive : 1 ≤ t)
    (elected : A.lead → lead ≠ "" → ∃ log, s.leader t = some (lead, log))
    (own : s'.replica id =
      replica { r with term := t, vote := vote, state := .follower, lead := lead }) :
    NodeOK A ms s' id
      { r with term := t, vote := vote, state := .follower, lead := lead } where
  __ := ok
  replica_eq := own
  msgs := history ▸ ok.msgs
  lead_term _ := positive
  role_term _ := positive
  committed matching := by
    rw [history]
    exact (ok.committed matching).of_isPrefix prefix_rfl reached
  lead_elected := by
    rw [history]
    exact elected
  votes_cast role := nomatch role
  progress_all role := nomatch role
  progress_ok role := nomatch role
  started role := nomatch role

theorem becomeFollower {t : ℕ} {lead : NodeID} (eq : r.becomeFollower t lead = .ok r')
    (allowed : r.term < t ∨ r.term = t ∧ lead ≠ "" ∧ r.state ≠ .leader) (positive : 1 ≤ t)
    (elected : A.lead → lead ≠ "" → ∃ log, s.leader t = some (lead, log)) :
    ∃ s', Steps ms.rules id s s' ∧ s'.toHistory = s.toHistory ∧ NodeOK A ms s' id r' ∧
      r'.term = t ∧ r'.state = .follower ∧ r'.log = r.log ∧ r'.lead = lead := by
  have view := SameView.resetElectionTimeout eq
  have reached : r.term ≤ t := by omega
  suffices ∃ s', Steps ms.rules id s s' ∧ s'.toHistory = s.toHistory ∧
      s'.replica id = replica
        { r with term := t, vote := if t > r.term then "" else r.vote, state := .follower,
                 lead := lead } by
    obtain ⟨s', run, history, own⟩ := this
    have followed := ok.follow history reached positive elected own
    refine ⟨s', run, history, followed.congr ?_, ?_, view.state, ?_, view.lead⟩
    · rcases allowed with higher | ⟨rfl, _, _⟩
      · simpa [higher] using view
      · simpa using view
    · rw [view.term]
      split
      · rfl
      · exact le_antisymm reached (not_lt.mp ‹_›)
    · rw [view.log]
      split <;> rfl
  rcases allowed with higher | ⟨rfl, known, notLeader⟩
  · have advance : Step ms.rules id s (s.advance id t) :=
      .advance (by rw [ok.replica_eq]; exact higher)
    by_cases known : lead = ""
    · refine ⟨_, .single advance, rfl, ?_⟩
      simp [State.advance, ok.replica_eq, replica, NodeState.role, higher, known]
    · refine ⟨_, .tail (.single advance) .attach, rfl, ?_⟩
      simp [State.advance, State.attach, ok.replica_eq, replica, NodeState.role, higher, known]
  · cases role : r.state with
    | leader => exact absurd role notLeader
    | follower =>
      refine ⟨_, .single .attach, rfl, ?_⟩
      simp [State.attach, ok.replica_eq, replica, known, role]
    | candidate =>
      have demote : Step ms.rules id s (s.demote id) :=
        .demote (by rw [ok.replica_eq]; simp [replica, role])
      refine ⟨_, .tail (.single demote) .attach, rfl, ?_⟩
      simp [State.attach, State.demote, ok.replica_eq, replica, NodeState.role, known]

theorem learnLead (follower : r.state = .follower) {lead : NodeID} (known : lead ≠ "")
    (positive : 1 ≤ r.term) (elected : A.lead → ∃ log, s.leader r.term = some (lead, log)) :
    ∃ s', Steps ms.rules id s s' ∧ s'.toHistory = s.toHistory ∧
      NodeOK A ms s' id { r with electionElapsed := 0, lead := lead } := by
  have history : (s.attach id).toHistory = s.toHistory := rfl
  refine ⟨s.attach id, .single .attach, history, ?_⟩
  have own : (s.attach id).replica id =
      replica { r with term := r.term, vote := r.vote, state := .follower, lead := lead } := by
    simp [State.attach, ok.replica_eq, replica, known, follower]
  refine (ok.follow history le_rfl positive (fun assumed _ => elected assumed) own).congr ?_
  constructor <;> first | rfl | exact follower

/-! ## Members and votes -/

theorem length_peers : 1 + r.config.peers.length = ms.ids.length := by
  rw [ok.config_eq, (ms.config_peers id ok.member).length_eq,
    length_erase_of_mem ok.member]
  have := length_pos_of_mem ok.member
  omega

variable {q : NodeID}

theorem mem_peers (member : q ∈ ms.ids) (other : q ≠ id) : q ∈ r.config.peers := by
  rw [ok.config_eq]
  exact (ms.config_peers id ok.member).mem_iff.mpr
    ((ms.ids_nodup.mem_erase_iff).mpr ⟨other, member⟩)

/-- A new leader tracks exactly the members. -/
theorem mem_leaderProgress : q ∈ r.leaderProgress ↔ q ∈ ms.ids := by
  rw [← lookup_isSome, lookup_leaderProgress]
  constructor
  · intro known
    split at known
    · exact (ok.peer_ne ‹_›).2
    · split at known
      · rename_i self
        rw [self, ok.id_eq]
        exact ok.member
      · exact ok.progress_mem q (lookup_isSome.mp known)
  · intro member
    by_cases self : q = r.id
    · split <;> rfl
    · simp [ok.mem_peers member (ok.id_eq ▸ self)]

variable {entry : LogEntry}

/-- The records a new leader of log `body ++ [entry]` starts from. -/
theorem leaderProgress_ok (stood : s'.stood id r.term = some r.log.body)
    (acked : ∀ x ≤ r.log.body.length, s'.acked id r.term x) {prog : Progress}
    (known : r.leaderProgress.lookup q = some prog) :
    ProgressOK A s'.toHistory id r.term (r.log.body ++ [entry]) q prog := by
  have tracked : q ∈ r.leaderProgress := lookup_isSome.mp (by simp [known])
  have member := ok.mem_leaderProgress.mp tracked
  have short : r.log.body.length + 1 ≤ (r.log.body ++ [entry]).length + 1 := by simp
  rw [lookup_leaderProgress, ok.wellFormed.lastIndex_eq] at known
  by_cases self : q = id
  · subst self
    have notPeer : q ∉ r.config.peers := fun mem => (ok.peer_ne mem).1 rfl
    rw [if_neg notPeer, if_pos ok.id_eq.symm] at known
    cases known
    exact ⟨Nat.succ_pos _, fun _ => short, fun _ x _ bound => acked x bound,
      fun _ other => absurd rfl other, fun _ other => absurd rfl other⟩
  · rw [if_pos (ok.mem_peers member self)] at known
    cases known
    refine ⟨Nat.succ_pos _, fun _ => short, fun _ x positive zero => ?_,
      fun _ _ => ⟨_, stood, Nat.lt_succ_self _⟩, nofun⟩
    exact absurd (positive.trans zero) (by simp)

theorem isUpToDate_iff (log : List LogEntry) :
    r.log.isUpToDate log.length (Replication.lastTerm LogEntry.term log) = true ↔
      Replication.UpToDate LogEntry.term log r.log.body := by
  rw [RaftLog.isUpToDate, ok.wellFormed.lastTerm_eq, ok.wellFormed.lastIndex_eq,
    Replication.UpToDate]
  split
  · rename_i ne
    simp [ne.symm]
  · rename_i eq
    rw [not_not] at eq
    simp [eq]

theorem withVote (member : q ∈ ms.ids) (vote : Bool)
    (cast : vote = true → s.votedFor q r.term = some id) :
    NodeOK A ms s id { r with votes := r.votes.insert q vote } := by
  refine { ok with votes_mem := ?_, votes_cast := ?_ }
  · intro p mem
    rcases (mem_insert _).mp mem with rfl | old
    · exact member
    · exact ok.votes_mem p old
  · intro candidate p granted
    by_cases same : p = q
    · subst same
      rw [lookup_insert] at granted
      exact cast (Option.some.inj granted)
    · rw [lookup_insert_ne same] at granted
      exact ok.votes_cast candidate p granted

/-! ## Standing for election -/

variable (inv : Inv ms.rules s)

include inv

theorem becomeCandidate (eq : r.becomeCandidate = .ok r') :
    Step ms.rules id s (s.campaign id) ∧ NodeOK A ms (s.campaign id) id r' ∧
      r'.state = .candidate ∧ r'.votes = AList.insert id true ∅ := by
  unfold Raft.becomeCandidate at eq
  split at eq
  · cases eq
  · rename_i notLeader
    have view := SameView.resetElectionTimeout eq
    have le := inv.election.le_campaign (p := id)
    have own : (s.replica id).term = r.term := by rw [ok.replica_eq]; rfl
    refine ⟨.campaign (by rw [ok.replica_eq]; simpa [replica] using notLeader), ?_,
      view.state, view.votes.trans (by rw [ok.id_eq])⟩
    suffices NodeOK A ms (s.campaign id) id
        { r with
          term := r.term + 1
          vote := r.id
          state := .candidate
          lead := ""
          votes := insert r.id true ∅ } from this.congr view
    refine { ok with
      replica_eq := ?_
      msgs := fun m mem => (ok.msgs m mem).mono inv le
      lead_term := fun known => absurd rfl known
      role_term := fun _ => Nat.succ_pos _
      committed := fun matching => ?_
      lead_elected := fun _ known => absurd rfl known
      votes_mem := ?_
      votes_cast := fun _ => ?_
      progress_all := by rintro ⟨⟩
      progress_ok := by rintro ⟨⟩
      started := by rintro ⟨⟩ }
    · simp [State.campaign, ok.replica_eq, replica, NodeState.role, ok.id_eq, ok.id_ne_empty]
    · exact inv.chosen_mono le
        ((ok.committed matching).of_isPrefix prefix_rfl (Nat.le_succ _))
    · intro q mem
      rw [mem_insert, ok.id_eq] at mem
      rcases mem with rfl | impossible
      · exact ok.member
      · exact absurd impossible (notMem_empty q)
    · intro q granted
      rw [ok.id_eq] at granted
      by_cases self : q = id
      · rw [State.campaign_votedFor, self, own, if_pos ⟨rfl, rfl⟩]
      · rw [lookup_insert_ne self] at granted
        simp at granted

theorem stood (candidate : r.state = .candidate) : s.stood id r.term = some r.log.body :=
  (ok.localLog inv).candidate_log (by simpa [replica] using candidate)

theorem requestVotes (candidate : r.state = .candidate) {peers : List NodeID}
    (known : ∀ peer ∈ peers, peer ≠ id) :
    NodeOK A ms s id (peers.foldl
      (fun r' peer => r'.send
        { type := .vote
          toID := peer
          term := r'.term
          logIndex := r.log.lastIndex
          logTerm := r.log.lastTerm
          lastLogIndex := r.log.lastIndex
          lastLogTerm := r.log.lastTerm }) r) := by
  refine (foldlRecOn
    (motive := fun r' => NodeOK A ms s id r' ∧ r'.state = .candidate ∧ r'.log = r.log) _ _
    ⟨ok, candidate, rfl⟩ fun r' holds peer mem => ?_).1
  obtain ⟨ok', candidate', sameLog⟩ := holds
  refine ⟨ok'.sendTo rfl rfl (known peer mem) (fun _ => ok'.role_term (by simp [candidate']))
    ⟨rfl, r.log.body, ?_, ok.wellFormed.lastIndex_eq, ok.wellFormed.lastTerm_eq⟩,
    candidate', sameLog⟩
  exact sameLog ▸ ok'.stood inv candidate'

/-! ## Leading -/

/-- A leader appends an entry of its own term. -/
theorem extend (leads : r.state = .leader) (fits : Fits r.log.body entry)
    (termEq : entry.term = r.term) :
    Step ms.rules id s (s.extend id entry) ∧
      NodeOK A ms (s.extend id entry) id
        { r with log := { r.log with entries := {} :: (r.log.body ++ [entry]) } } := by
  have role : (s.replica id).role = .leader := by
    rw [ok.replica_eq]
    simpa [replica] using leads
  have own : s.replica id = r.replica := ok.replica_eq
  have step : Step ms.rules id s (s.extend id entry) :=
    .extend role (by rw [own]; exact termEq) (by rw [own]; exact fits)
  have le := inv.logs.le_extend role (e := entry)
  have longer : r.log.body <+: r.log.body ++ [entry] := prefix_append _ _
  refine ⟨step, { ok with
    replica_eq := ?_
    wellFormed := ok.wellFormed.concat fits
    msgs := fun m mem => (ok.msgs m mem).mono inv le
    committed := fun matching => ((ok.commitOK matching).mono inv le longer).2
    lead_elected := fun assumed known => le.leads (ok.lead_elected assumed known)
    votes_cast := fun candidate => absurd (leads.symm.trans candidate) (by simp)
    progress_ok := fun _ q prog known => ?_
    started := fun _ => (ok.started leads).mono le longer.length_le }⟩
  · simp [State.extend, own, replica, RaftLog.body]
  · have progress := (ok.progress_ok leads q prog known).mono le
    exact { progress with next_le := fun matching =>
      (progress.next_le matching).trans (Nat.succ_le_succ longer.length_le) }

theorem ackSelf (leads : r.state = .leader) :
    Step ms.rules id s (s.ack id r.log.body.length) ∧
      NodeOK A ms (s.ack id r.log.body.length) id r ∧
      ∀ x ≤ r.log.body.length, (s.ack id r.log.body.length).acked id r.term x := by
  have own := ok.replica_eq
  have step : Step ms.rules id s (s.ack id r.log.body.length) := by
    refine .ack (by rw [own]; exact ok.leader_log inv leads) le_rfl ?_
    rw [own, take_length]
    exact prefix_rfl
  refine ⟨step, ok.mono inv (step.le inv.election inv.logs) rfl, fun x bound => ?_⟩
  exact .inr ⟨rfl, by rw [own]; rfl, bound⟩

/-- A candidate with a quorum wins its term and appends a first entry. -/
theorem lead (candidate : r.state = .candidate) (quorum : ms.ids.length < 2 * r.granted.card)
    (fits : Fits r.log.body entry) (termEq : entry.term = r.term) :
    ∃ s', Steps ms.rules id s s' ∧ (∀ t, t ≠ r.term → s'.leader t = s.leader t) ∧
      NodeOK A ms s' id { r with
        state := .leader
        lead := r.id
        heartbeatElapsed := 0
        progress := r.leaderProgress
        log := { r.log with entries := {} :: (r.log.body ++ [entry]) } } := by
  have own := ok.replica_eq
  have role : (s.replica id).role = .candidate := by
    rw [own]
    simpa [replica] using candidate
  have elected : ms.rules.Elects r.granted := by
    refine ⟨fun q mem => ?_, quorum⟩
    obtain ⟨vote, known, _⟩ := mem_keysWith.mp mem
    rw [mem_toFinset]
    exact ok.votes_mem q (lookup_isSome.mp (by simp [known]))
  have votes : ∀ q ∈ r.granted, s.votedFor q (s.replica id).term = some id := by
    intro q mem
    obtain ⟨vote, known, positive⟩ := mem_keysWith.mp mem
    rw [own]
    exact ok.votes_cast candidate q (by rw [known]; exact congrArg some positive)
  -- win the term, acknowledge the own log, append the entry
  let s₁ := s.win id
  let s₂ := s₁.ack id r.log.body.length
  have current : s₁.replica id = { r.replica with role := .leader, attached := True } := by
    simp [s₁, State.win, own]
  have leader : s₁.leader r.term = some (id, r.log.body) := by
    rw [State.win_leader, own]
    simp [replica]
  have wins : Step ms.rules id s s₁ := .win r.granted role elected votes
  have acks : Step ms.rules id s₁ s₂ := by
    refine .ack (by rw [current]; exact leader) le_rfl ?_
    rw [current, take_length]
    exact prefix_rfl
  have current₂ : s₂.replica id = _ := current
  have extends' : Step ms.rules id s₂ (s₂.extend id entry) :=
    .extend (by rw [current₂]) (by rw [current₂]; exact termEq) (by rw [current₂]; exact fits)
  have run : Steps ms.rules id s (s₂.extend id entry) :=
    .tail (.tail (.single wins) acks) extends'
  obtain ⟨inv', le⟩ := inv.steps run
  have positive := ok.role_term (by simp [candidate])
  have newLeader : (s₂.extend id entry).leader r.term = some (id, r.log.body ++ [entry]) := by
    rw [State.extend_leader, current₂]
    simp [replica]
  have stood := le.stood (ok.stood inv candidate)
  refine ⟨_, run, fun t other => ?_, ok.member, ok.named, ok.batch_pos, ok.config_eq,
    ok.id_eq, ?_, ok.wellFormed.concat fits, fun m mem => (ok.msgs m mem).mono inv le,
    fun _ => positive, fun _ => positive, fun matching => ?_,
    fun _ _ => ⟨r.log.body ++ [entry], ?_⟩, ok.votes_mem, by rintro ⟨⟩,
    fun q mem => ok.mem_leaderProgress.mp mem, fun _ q mem => ok.mem_leaderProgress.mpr mem,
    fun _ q prog known => ?_, fun _ => ⟨_, stood, by simp [RaftLog.body]⟩⟩
  · rw [State.extend_leader, current₂, if_neg (by simpa [replica] using other)]
    refine (s.win_leader id t).trans (if_neg ?_)
    rw [own]
    exact other
  · simp [State.extend, current₂, replica, NodeState.role, ok.id_eq, ok.id_ne_empty, RaftLog.body]
  · exact ((ok.commitOK matching).mono inv le (prefix_append _ _)).2
  · rw [ok.id_eq]
    exact newLeader
  · refine ok.leaderProgress_ok stood (fun x bound => .inr ⟨rfl, ?_, bound⟩) known
    rw [current]
    rfl

theorem becomeLeader (quorum : ms.ids.length < 2 * r.granted.card)
    (eq : r.becomeLeader = .ok r') : Simulated A ms s id r' := by
  unfold Raft.becomeLeader at eq
  split at eq
  · nomatch eq
  · rename_i notCandidate
    have candidate : r.state = .candidate := by simpa using notCandidate
    obtain ⟨r₂, appended, broadcast⟩ := bind_eq_ok.mp eq
    unfold Raft.appendEntry at appended
    dsimp only at appended
    have fits : Fits r.log.body
        { index := r.log.lastIndex + 1, term := r.term, type := .noop } :=
      ⟨by rw [ok.wellFormed.lastIndex_eq], ok.role_term (by simp [candidate])⟩
    rw [ok.wellFormed.appendOne_eq fits] at appended
    cases appended
    obtain ⟨s₁, run, others, ok₁⟩ := ok.lead inv candidate quorum fits rfl
    refine ⟨_, run, fun t => ?_,
      ok₁.broadcastAppendEntries (inv.steps run).1 rfl broadcast⟩
    rw [ok₁.replica_eq]
    by_cases now : t = r.term
    · exact .inr ⟨now, rfl⟩
    · exact .inl (others t now)

theorem campaign (eq : r.campaign = .ok r') : Simulated A ms s id r' := by
  obtain ⟨r₁, stands, rest⟩ := bind_eq_ok.mp eq
  obtain ⟨step, ok₁, candidate, votes⟩ := ok.becomeCandidate inv stands
  have inv₁ := inv.step step
  split at rest
  · -- the only member elects itself
    rename_i alone
    have quorum : ms.ids.length < 2 * r₁.granted.card := by
      rw [card_granted, votes, ← ok₁.length_peers, alone]
      simp
    exact (ok₁.becomeLeader inv₁ quorum rest).after (.single step) rfl
  · cases rest
    exact ⟨_, .single step, fun _ => .inl rfl,
      ok₁.requestVotes inv₁ candidate fun peer mem => (ok₁.peer_ne mem).1⟩

/-! ## Votes -/

theorem vote_self (active : r.state ≠ .follower) : r.vote = id := by
  have own := (inv.election.localInv id).vote_self
  rw [ok.replica_eq] at own
  have vote := own (by simpa [replica] using active)
  simp only [replica] at vote
  split at vote
  · cases vote
  · exact Option.some.inj vote

variable {m : Message} (reports : MsgOK A ms s.toHistory m)

include reports

/-- A granted vote request, cast by a follower. -/
theorem grant (isVote : m.type = .vote) (follower : r.state = .follower) (reached : r.term ≤ m.term)
    (canVote : r.canVote m = true) (upToDate : r.log.isUpToDate m.lastLogIndex m.lastLogTerm = true)
    (keeps : A.lead → r.term < m.term → r.lead ≠ "" → ∃ log, s.leader m.term = some (r.lead, log)) :
    Step ms.rules id s (s.grant id m.fromID m.term) ∧
      NodeOK A ms (s.grant id m.fromID m.term) id
        { r with vote := m.fromID, term := m.term } := by
  have own := ok.replica_eq
  have fact := reports.fact
  simp only [MsgFact, isVote] at fact
  obtain ⟨notPre, log, stood, indexEq, termEq⟩ := fact
  have named : m.fromID ≠ "" := ok.named _ reports.sender
  have free : (s.replica id).Free m.fromID m.term := by
    rw [own]
    rcases eq_or_lt_of_le reached with same | higher
    · refine .inr ⟨same, ?_⟩
      simp only [Raft.canVote, notPre, Bool.false_and, Bool.or_false, Bool.or_eq_true,
        Bool.and_eq_true, decide_eq_true_eq] at canVote
      rcases canVote with ⟨fresh, loose⟩ | again
      · exact .inr ⟨by simp [replica, fresh], by simp [replica, loose]⟩
      · exact .inl (by simp [replica, again, named])
    · exact .inl higher
  have dominates : Replication.UpToDate LogEntry.term log (s.replica id).log := by
    rw [own]
    rw [indexEq, termEq, ok.isUpToDate_iff] at upToDate
    exact upToDate
  have step : Step ms.rules id s (s.grant id m.fromID m.term) :=
    .grant (by rw [own]; simpa [replica] using follower) stood dominates free
  have le := inv.election.le_grant free
  have idle : r.state ≠ .leader := by simp [follower]
  refine ⟨step, { ok with
    replica_eq := ?_
    msgs := fun m mem => (ok.msgs m mem).mono inv le
    lead_term := fun _ => reports.term_pos (by simp [isVote])
    role_term := fun active => absurd follower active
    committed := fun matching => ?_
    lead_elected := fun assumed known => ?_
    votes_cast := fun candidate => absurd (follower.symm.trans candidate) (by simp)
    progress_all := fun leads => absurd leads idle
    progress_ok := fun leads => absurd leads idle
    started := fun leads => absurd leads idle }⟩
  · simp [State.grant, own, replica, named]
  · exact inv.chosen_mono le ((ok.committed matching).of_isPrefix prefix_rfl reached)
  · rcases eq_or_lt_of_le reached with same | higher
    · obtain ⟨log, leader⟩ := ok.lead_elected assumed known
      exact ⟨log, same ▸ leader⟩
    · exact keeps assumed higher known

theorem handleVoteRequest (isVote : m.type = .vote) (received : m.toID = id)
    (reached : r.term ≤ m.term)
    (keeps : A.lead → r.canVote m = true →
      r.log.isUpToDate m.lastLogIndex m.lastLogTerm = true → r.term < m.term →
      r.lead ≠ "" → ∃ log, s.leader m.term = some (r.lead, log)) :
    Simulated A ms s id (r.handleVoteRequest m) := by
  have other : m.fromID ≠ id := received ▸ reports.distinct (by simp [isVote])
  have fact := reports.fact
  simp only [MsgFact, isVote] at fact
  obtain ⟨notPre, _⟩ := fact
  unfold Raft.handleVoteRequest
  by_cases decision : (r.canVote m && r.log.isUpToDate m.lastLogIndex m.lastLogTerm) = true
  · rw [if_pos decision]
    obtain ⟨canVote, upToDate⟩ := Bool.and_eq_true_iff.mp decision
    have follower : r.state = .follower := by
      -- candidates and leaders have voted for themselves
      by_contra active
      have self := ok.vote_self inv active
      simp [Raft.canVote, notPre, self, ok.id_ne_empty, other.symm] at canVote
    obtain ⟨step, ok₁⟩ := ok.grant inv reports isVote follower reached canVote upToDate
      fun assumed => keeps assumed canVote upToDate
    refine ⟨_, .single step, fun _ => .inl rfl, ?_⟩
    simp only [notPre]
    have ok₂ : NodeOK A ms (s.grant id m.fromID m.term) id
        { r with vote := m.fromID, term := m.term, electionElapsed := 0 } :=
      ok₁.congr (by constructor <;> rfl)
    refine ok₂.sendTo rfl rfl other (fun notRsp => absurd rfl notRsp)
      ⟨rfl, fun _ => ⟨reports.term_pos (by simp [isVote]), ?_⟩⟩
    rw [State.grant_votedFor, if_pos ⟨rfl, rfl⟩]
  · rw [if_neg decision]
    exact NodeOK.simulated (ok.sendTo rfl rfl other (fun notRsp => absurd rfl notRsp)
      ⟨notPre, nofun⟩)

theorem handleVoteResponse (isRsp : m.type = .voteRsp) (received : m.toID = id)
    (current : m.term = 0 ∨ m.term = r.term) (eq : r.handleVoteResponse m = .ok r') :
    Simulated A ms s id r' := by
  have fact := reports.fact
  simp only [MsgFact, isRsp] at fact
  obtain ⟨notPre, cast⟩ := fact
  unfold Raft.handleVoteResponse at eq
  split at eq
  · rename_i granted
    obtain ⟨positive, votedFor⟩ := cast granted
    have ok₁ := ok.withVote reports.sender true fun _ => by
      rw [← received, ← votedFor, current.resolve_left (by omega)]
    dsimp only at eq
    split at eq
    · rename_i quorum
      rw [notPre] at eq
      refine ok₁.becomeLeader inv ?_ eq
      rw [card_granted, ← ok.length_peers]
      exact ((r.hasQuorum_iff _).mp quorum).trans_eq (Nat.mul_comm _ _)
    · cases eq
      exact ok₁.simulated
  · cases eq
    exact (ok.withVote reports.sender false nofun).simulated

end

end NodeOK

end Hermes.Raft
