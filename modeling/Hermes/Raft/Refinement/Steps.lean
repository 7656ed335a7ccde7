import Hermes.Raft.Handling
import Hermes.Raft.Refinement.Replicating

/-!
# One step of a node

`Step`, `Tick` and `TakeReady` of a node as steps of the replica it implements,
for every message that a member of the cluster may have sent.
-/

namespace Hermes.Raft

open Replication (Inv Step Steps)

variable {A : Assumptions} {ms : Membership} {s : Replication.State NodeID LogEntry}
  {id : NodeID} {r r' : Raft}

/-- What a received message must satisfy so that the assumptions stay justified. -/
structure Guarded (A : Assumptions) (s : Replication.State NodeID LogEntry) (r : Raft)
    (m : Message) : Prop where
  heartbeat : A.matching → m.type = .heartbeat → r.term ≤ m.term →
    r.log.committed < m.commitIndex → ∀ log, s.leader m.term = some (m.fromID, log) →
    r.log.body.take (min m.commitIndex r.log.body.length) <+: log
  vote : A.lead → m.type = .vote → r.canVote m = true →
    r.log.isUpToDate m.lastLogIndex m.lastLogTerm = true → r.term < m.term → r.lead ≠ "" →
    ∃ log, s.leader m.term = some (r.lead, log)

variable {m : Message} {err : Option String}

/-- The three ways in which `Step` treats a message that is no vote request. -/
theorem step_cases (eq : r.step m = .ok (r', err)) (notVote : m.type ≠ .vote)
    (notPreVote : m.type ≠ .preVote) :
    r' = r ∨ (m.term = 0 ∨ m.term = r.term) ∧ r.stepRole m = .ok (r', err) ∨
      r.term < m.term ∧ ∃ r₁,
        r.becomeFollower m.term
          (if m.type = .voteRsp ∨ m.type = .preVoteRsp then "" else m.fromID) = .ok r₁ ∧
        r₁.stepRole m = .ok (r', err) := by
  unfold Raft.step at eq
  split at eq
  · rename_i zero
    exact .inr (.inl ⟨.inl zero, eq⟩)
  split at eq
  · rename_i higher
    rw [if_neg (by simp [notVote, notPreVote])] at eq
    exact .inr (.inr ⟨higher, bind_eq_ok.mp eq⟩)
  split at eq
  · cases eq
    exact .inl rfl
  · exact .inr (.inl ⟨.inr (by omega), eq⟩)

/-- The guards only look at the log and at a term that is at most that of `m`. -/
theorem Guarded.of_log_eq {s₁ : Replication.State NodeID LogEntry} {r₁ : Raft}
    (guarded : Guarded A s r m) (notVote : m.type ≠ .vote) (history : s₁.toHistory = s.toHistory)
    (log : r₁.log = r.log) (reached : r.term ≤ m.term) : Guarded A s₁ r₁ m := by
  refine ⟨fun matching kind _ => ?_, fun _ isVote => ?_⟩
  · rw [log, history]
    exact guarded.heartbeat matching kind reached
  · exact absurd isVote notVote

namespace NodeOK

/-! ## Messages of a leader -/

section FromLeader

variable {m : Message} {err : Option String}

/-- The handler of a heartbeat or of a batch has run. -/
def HandledFromLeader (m : Message) (r r' : Raft) : Prop :=
  m.type = .heartbeat ∧ r.handleHeartbeat m = .ok r' ∨
    m.type = .append ∧ r.handleAppendEntries m = .ok r'

/-- A follower handles a message of the leader it has just accepted. -/
theorem handleFromLeader (ok : NodeOK A ms s id r) (inv : Inv ms.rules s)
    (reports : MsgOK A ms s.toHistory m) (received : m.toID = id) (guarded : Guarded A s r m)
    (follower : r.state = .follower) (current : m.term = r.term) (leadEq : r.lead = m.fromID)
    (handled : HandledFromLeader m r r') : Simulated A ms s id r' := by
  have known : r.lead ≠ "" := by
    rw [leadEq]
    exact ok.named _ reports.sender
  rcases handled with ⟨isHeartbeat, eq⟩ | ⟨isAppend, eq⟩
  · exact ok.handleHeartbeat reports isHeartbeat received current (ok.lead_term known)
      (fun matching => guarded.heartbeat matching isHeartbeat current.ge) eq
  · exact ok.handleAppendEntries inv reports isAppend received follower current known eq

section

variable {log : List LogEntry} (ok : NodeOK A ms s id r) (inv : Inv ms.rules s)
  (reports : MsgOK A ms s.toHistory m) (received : m.toID = id)
  (leader : s.leader m.term = some (m.fromID, log)) (guarded : Guarded A s r m)
  (kind : m.type = .heartbeat ∨ m.type = .append)

include ok inv reports received leader guarded kind

theorem followLeader (follower : r.state = .follower) (current : m.term = r.term)
    (eq : r.stepFollower m = .ok (r', err)) : Simulated A ms s id r' := by
  have named : m.fromID ≠ "" := ok.named _ reports.sender
  have positive : 1 ≤ r.term :=
    current ▸ reports.term_pos (by rcases kind with kind | kind <;> simp [kind])
  obtain ⟨s₁, run, history, ok₁⟩ := ok.learnLead follower named positive
    fun _ => ⟨log, current ▸ leader⟩
  have guarded₁ : Guarded A s₁ { r with electionElapsed := 0, lead := m.fromID } m :=
    guarded.of_log_eq (by rcases kind with kind | kind <;> simp [kind]) history rfl current.ge
  have handled : HandledFromLeader m { r with electionElapsed := 0, lead := m.fromID } r' := by
    unfold Raft.stepFollower at eq
    rcases kind with kind | kind <;> rw [kind] at eq <;>
      obtain ⟨r₂, handled, same⟩ := bind_eq_ok.mp eq <;> cases same
    · exact .inl ⟨kind, handled⟩
    · exact .inr ⟨kind, handled⟩
  exact (ok₁.handleFromLeader (inv.steps run).1 (history ▸ reports) received guarded₁ follower
    current
    rfl handled).after run (congrArg _ history)

theorem stepFromLeader (eq : r.step m = .ok (r', err)) : Simulated A ms s id r' := by
  have named : m.fromID ≠ "" := ok.named _ reports.sender
  have notVote : m.type ≠ .vote := by rcases kind with kind | kind <;> simp [kind]
  have positive : 1 ≤ m.term :=
    reports.term_pos (by rcases kind with kind | kind <;> simp [kind])
  rcases step_cases eq notVote (by rcases kind with kind | kind <;> simp [kind]) with
    rfl | ⟨current, handled⟩ | ⟨higher, r₁, follows, handled⟩
  · exact ok.simulated
  · have current : m.term = r.term := current.resolve_left (by omega)
    unfold Raft.stepRole at handled
    cases role : r.state with
    | follower =>
      rw [role] at handled
      exact ok.followLeader inv reports received leader guarded kind role current handled
    | candidate =>
      rw [role] at handled
      obtain ⟨r₁, follows, handled⟩ : ∃ r₁, r.becomeFollower m.term m.fromID = .ok r₁ ∧
          HandledFromLeader m r₁ r' := by
        unfold Raft.stepCandidate at handled
        rcases kind with kind | kind <;> rw [kind] at handled <;>
          obtain ⟨r₁, follows, rest⟩ := bind_eq_ok.mp handled <;>
          obtain ⟨r₂, ran, same⟩ := bind_eq_ok.mp rest <;> cases same
        · exact ⟨r₁, follows, .inl ⟨kind, ran⟩⟩
        · exact ⟨r₁, follows, .inr ⟨kind, ran⟩⟩
      obtain ⟨s₁, run, history, ok₁, termEq, follower, logEq, leadEq⟩ :=
        ok.becomeFollower follows (.inr ⟨current.symm, named, by simp [role]⟩) positive
          fun _ _ => ⟨log, leader⟩
      exact (ok₁.handleFromLeader (inv.steps run).1 (history ▸ reports) received
        (guarded.of_log_eq notVote history logEq current.ge) follower termEq.symm leadEq
        handled).after run (congrArg _ history)
    | leader =>
      rw [role] at handled
      unfold Raft.stepLeader at handled
      rcases kind with kind | kind <;> rw [kind] at handled <;> cases handled <;>
        exact ok.simulated
  · rw [if_neg (by rcases kind with kind | kind <;> simp [kind])] at follows
    obtain ⟨s₁, run, history, ok₁, termEq, follower, logEq, leadEq⟩ :=
      ok.becomeFollower follows (.inl higher) positive fun _ _ => ⟨log, leader⟩
    rw [Raft.stepRole, follower] at handled
    exact (ok₁.followLeader (inv.steps run).1 (history ▸ reports) received
      (show s₁.leader m.term = some (m.fromID, log) from history ▸ leader)
      (guarded.of_log_eq notVote history logEq higher.le) kind follower termEq.symm
      handled).after run (congrArg _ history)

end

end FromLeader

/-! ## Other messages -/

/-- A message that is addressed to the leader of its term does not come from the
leader's future. -/
theorem term_le_of_leader (ok : NodeOK A ms s id r) (inv : Inv ms.rules s) {t : ℕ}
    {log : List LogEntry} (leader : s.leader t = some (id, log)) : t ≤ r.term := by
  have own := (inv.election.localInv id).leader_le leader
  rw [ok.replica_eq] at own
  exact own

/-- An answer to a message of a leader is looked at by that leader only. -/
theorem step_leaderRsp (isRsp : m.type = .appendRsp ∨ m.type = .heartbeatRsp)
    (reached : m.term ≤ r.term) (eq : r.step m = .ok (r', err)) :
    r' = r ∨ r.state = .leader ∧ (m.term = 0 ∨ m.term = r.term) ∧
      r.stepLeader m = .ok (r', err) := by
  rcases step_cases eq (by rcases isRsp with isRsp | isRsp <;> simp [isRsp])
      (by rcases isRsp with isRsp | isRsp <;> simp [isRsp]) with
    rfl | ⟨current, handled⟩ | ⟨higher, _⟩
  · exact .inl rfl
  · cases role : r.state with
    | follower =>
      left
      rw [Raft.stepRole, role, Raft.stepFollower] at handled
      rcases isRsp with isRsp | isRsp <;> rw [isRsp] at handled <;> cases handled <;> rfl
    | candidate =>
      left
      rw [Raft.stepRole, role, Raft.stepCandidate] at handled
      rcases isRsp with isRsp | isRsp <;> rw [isRsp] at handled <;> cases handled <;> rfl
    | leader =>
      rw [Raft.stepRole, role] at handled
      exact .inr ⟨rfl, current, handled⟩
  · omega

variable {m : Message} {err : Option String} (ok : NodeOK A ms s id r) (inv : Inv ms.rules s)

include ok inv

/-- A proposal at its current term, local or forwarded. -/
theorem stepRolePropose (isPropose : m.type = .propose) (sender : m.fromID ∈ ms.ids)
    (current : m.term = 0 ∨ m.term = r.term) (eq : r.stepRole m = .ok (r', err)) :
    Simulated A ms s id r' := by
  cases role : r.state with
  | follower =>
    simp only [Raft.stepRole, role, Raft.stepFollower, isPropose] at eq
    split at eq
    · cases eq
      exact ok.simulated
    · rename_i known
      rw [← isPropose] at eq
      cases eq
      exact (ok.forward isPropose sender current known).simulated
  | candidate =>
    rw [Raft.stepRole, role, Raft.stepCandidate, isPropose] at eq
    cases eq
    exact ok.simulated
  | leader =>
    simp only [Raft.stepRole, role, Raft.stepLeader, isPropose] at eq
    split at eq
    · cases eq
      exact ok.simulated
    · obtain ⟨r₂, proposed, same⟩ := bind_eq_ok.mp eq
      cases same
      exact ok.handleProposal inv role proposed

theorem tick (eq : r.tick = .ok r') : Simulated A ms s id r' := by
  cases tick_ticks eq with
  | waits =>
    refine (ok.congr ?_).simulated
    constructor <;> rfl
  | campaigns ran =>
    have ok₁ : NodeOK A ms s id { r with electionElapsed := 0 } :=
      ok.congr (by constructor <;> rfl)
    exact ok₁.campaign inv ran
  | beats leads ran =>
    have ok₁ : NodeOK A ms s id { r with heartbeatElapsed := 0 } :=
      ok.congr (by constructor <;> rfl)
    exact (ok₁.broadcastAppendEntries inv leads ran).simulated

variable (reports : MsgOK A ms s.toHistory m) (received : m.toID = id)
  (eq : r.step m = .ok (r', err))

include reports received eq

theorem stepVote (guarded : Guarded A s r m) (isVote : m.type = .vote) :
    Simulated A ms s id r' := by
  have positive : 1 ≤ m.term := reports.term_pos (by simp [isVote])
  rcases lt_or_ge m.term r.term with old | reached
  · unfold Raft.step at eq
    rw [if_neg (by omega), if_neg (by omega), if_pos old] at eq
    cases eq
    exact ok.simulated
  · rw [step_vote isVote reached] at eq
    cases eq
    exact ok.handleVoteRequest inv reports isVote received reached
      fun assumed => guarded.vote assumed isVote

theorem stepVoteRsp (isRsp : m.type = .voteRsp) : Simulated A ms s id r' := by
  rcases step_cases eq (by simp [isRsp]) (by simp [isRsp]) with
    rfl | ⟨current, handled⟩ | ⟨higher, r₁, follows, handled⟩
  · exact ok.simulated
  · unfold Raft.stepRole Raft.stepFollower Raft.stepCandidate Raft.stepLeader at handled
    rw [isRsp] at handled
    cases role : r.state <;> rw [role] at handled
    · cases handled
      exact ok.simulated
    · obtain ⟨r₂, counted, same⟩ := bind_eq_ok.mp handled
      cases same
      exact ok.handleVoteResponse inv reports isRsp received current counted
    · cases handled
      exact ok.simulated
  · -- an answer from a later term only ends the candidacy
    rw [if_pos (.inl isRsp)] at follows
    obtain ⟨s₁, run, history, ok₁, _, follower, _, _⟩ :=
      ok.becomeFollower follows (.inl higher) (by omega) fun _ known => absurd rfl known
    rw [Raft.stepRole, follower, Raft.stepFollower, isRsp] at handled
    cases handled
    exact ok₁.simulated.after run (congrArg _ history)

theorem stepAppendRsp (isRsp : m.type = .appendRsp) : Simulated A ms s id r' := by
  have fact := reports.fact
  simp only [MsgFact, isRsp] at fact
  obtain ⟨⟨log, leader⟩, _⟩ := fact
  have reached := ok.term_le_of_leader inv (received ▸ leader)
  have positive : 1 ≤ m.term := reports.term_pos (by simp [isRsp])
  rcases step_leaderRsp (.inl isRsp) reached eq with rfl | ⟨role, current, handled⟩
  · exact ok.simulated
  · rw [Raft.stepLeader, isRsp] at handled
    obtain ⟨r₂, counted, same⟩ := bind_eq_ok.mp handled
    cases same
    exact (ok.handleAppendResponse inv role reports isRsp received
      (current.resolve_left (by omega)) counted).simulated

theorem stepHeartbeatRsp (isRsp : m.type = .heartbeatRsp) : Simulated A ms s id r' := by
  have fact := reports.fact
  simp only [MsgFact, isRsp] at fact
  obtain ⟨log, leader⟩ := fact
  have reached := ok.term_le_of_leader inv (received ▸ leader)
  rcases step_leaderRsp (.inr isRsp) reached eq with rfl | ⟨role, -, handled⟩
  · exact ok.simulated
  · simp only [Raft.stepLeader, isRsp] at handled
    split at handled
    · cases handled
      exact ok.simulated
    · rename_i prog known
      obtain ⟨r₂, answered, same⟩ := bind_eq_ok.mp handled
      cases same
      have other : m.fromID ≠ id := received ▸ reports.distinct (by simp [isRsp])
      have ok₁ := ok.withProgress known fun leads => (ok.progress_ok leads _ prog known).active
      exact (ok₁.sendIf inv role other answered).simulated

theorem stepPropose (isPropose : m.type = .propose) : Simulated A ms s id r' := by
  have fact := reports.fact
  simp only [MsgFact, isPropose] at fact
  have positive : 1 ≤ m.term := reports.term_pos (by simp [isPropose])
  rcases step_cases eq (by simp [isPropose]) (by simp [isPropose]) with
    rfl | ⟨current, handled⟩ | ⟨higher, r₁, follows, handled⟩
  · exact ok.simulated
  · exact ok.stepRolePropose inv isPropose reports.sender current handled
  · obtain ⟨s₁, run, history, ok₁, termEq, _, _, _⟩ :=
      ok.becomeFollower follows (.inl higher) positive fun assumed _ => by
        -- the assumption on leaders excludes such proposals
        obtain ⟨log, leader⟩ := fact assumed
        have := ok.term_le_of_leader inv (received ▸ leader)
        omega
    exact (ok₁.stepRolePropose (inv.steps run).1 isPropose reports.sender (.inr termEq.symm)
      handled).after run (congrArg _ history)

/-! ## All inputs of a node -/

/-- A message of the cluster is handled by steps of the replica. -/
theorem step (guarded : Guarded A s r m) : Simulated A ms s id r' := by
  have fact := reports.fact
  unfold MsgFact at fact
  split at fact
  · obtain ⟨log, leader, _⟩ := fact
    exact ok.stepFromLeader inv reports received leader guarded (.inl ‹_›) eq
  · obtain ⟨log, append⟩ := fact
    exact ok.stepFromLeader inv reports received append.leader guarded (.inr ‹_›) eq
  · exact ok.stepHeartbeatRsp inv reports received eq ‹_›
  · exact ok.stepAppendRsp inv reports received eq ‹_›
  · exact ok.stepVote inv reports received eq guarded ‹_›
  · exact ok.stepVoteRsp inv reports received eq ‹_›
  · exact ok.stepPropose inv reports received eq ‹_›
  · exact fact.elim

end NodeOK

end Hermes.Raft
