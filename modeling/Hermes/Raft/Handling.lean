import Hermes.Data.Except
import Hermes.Raft.Core

/-!
# What a tick and a message make a node do

Inversions of `tick` and `step`: which of the functions below them has run, and on which
state.  What every such function keeps is kept by every step of a node.
-/

namespace Hermes.Raft

variable {r r' : Raft} {m : Message}

/-! ## Ticks -/

/-- What a tick can do: count, call an election, or send heartbeats. -/
inductive Ticks (r : Raft) : Raft → Prop where
  | waits (electionElapsed heartbeatElapsed : Int) :
    Ticks r { r with electionElapsed := electionElapsed, heartbeatElapsed := heartbeatElapsed }
  | campaigns {r' : Raft} (ran : { r with electionElapsed := 0 }.campaign = .ok r') : Ticks r r'
  | beats {r' : Raft} (leads : r.state = .leader)
    (ran : { r with heartbeatElapsed := 0 }.broadcastAppendEntries true = .ok r') : Ticks r r'

theorem tickElection_ticks (eq : r.tickElection = .ok r') : Ticks r r' := by
  unfold tickElection at eq
  dsimp only at eq
  split at eq
  · exact .campaigns eq
  · cases eq
    exact .waits (r.electionElapsed + 1) r.heartbeatElapsed

theorem tickHeartbeat_ticks (leads : r.state = .leader) (eq : r.tickHeartbeat = .ok r') :
    Ticks r r' := by
  unfold tickHeartbeat at eq
  dsimp only at eq
  split at eq
  · exact .beats leads eq
  · cases eq
    exact .waits r.electionElapsed (r.heartbeatElapsed + 1)

theorem tick_ticks (eq : r.tick = .ok r') : Ticks r r' := by
  unfold tick at eq
  split at eq
  · exact tickElection_ticks eq
  · exact tickElection_ticks eq
  · rename_i leads
    exact tickHeartbeat_ticks leads eq

/-! ## Messages -/

/-- The state in which a node handles a message of its leader: a follower notes the sender, a
candidate gives up. -/
inductive Follows (r : Raft) (m : Message) : Raft → Prop where
  | stays : Follows r m { r with electionElapsed := 0, lead := m.fromID }
  | becomes {r₁ : Raft} (ran : r.becomeFollower m.term m.fromID = .ok r₁) : Follows r m r₁

/-- What a message can make a node do, in any of its roles. -/
inductive Handles (r : Raft) (m : Message) : Raft → Prop where
  | ignored : Handles r m r
  | heartbeat {r₁ r' : Raft} (type : m.type = .heartbeat) (follows : Follows r m r₁)
    (ran : r₁.handleHeartbeat m = .ok r') : Handles r m r'
  | append {r₁ r' : Raft} (type : m.type = .append) (follows : Follows r m r₁)
    (ran : r₁.handleAppendEntries m = .ok r') : Handles r m r'
  | snapshot {r₁ : Raft} (type : m.type = .snapshot) (follows : Follows r m r₁) :
    Handles r m (r₁.handleInstallSnapshot m)
  | vote (type : m.type = .vote ∨ m.type = .preVote) : Handles r m (r.handleVoteRequest m)
  | timeoutNow {r' : Raft} (type : m.type = .timeoutNow) (ran : r.campaign = .ok r') :
    Handles r m r'
  | forward (type : m.type = .propose) : Handles r m (r.send { m with toID := r.lead })
  | voteRsp {r' : Raft} (type : m.type = .voteRsp ∨ m.type = .preVoteRsp)
    (ran : r.handleVoteResponse m = .ok r') : Handles r m r'
  | propose {r' : Raft} (type : m.type = .propose) (ran : r.handleProposal m = .ok r') :
    Handles r m r'
  | appendRsp {r' : Raft} (type : m.type = .appendRsp)
    (ran : r.handleAppendResponse m = .ok r') : Handles r m r'
  | noted (progress : AList fun _ : NodeID => Progress) :
    Handles r m { r with progress := progress }
  | heartbeatRsp {r' : Raft} (type : m.type = .heartbeatRsp)
    (progress : AList fun _ : NodeID => Progress)
    (ran : { r with progress := progress }.sendAppendEntries m.fromID = .ok r') :
    Handles r m r'
  | readIndex {r' : Raft} (type : m.type = .readIndex) (ran : r.handleReadIndex m = .ok r') :
    Handles r m r'

/-- The answer of a follower changes what is known of it and perhaps commits entries, and more
entries may be sent. -/
theorem handleAppendResponse_cases (eq : r.handleAppendResponse m = .ok r') :
    ∃ progress r₁, (r₁ = { r with progress := progress } ∨
        r₁ = { r with progress := progress }.maybeCommit) ∧
      (r' = r₁ ∨ r₁.sendAppendEntries m.fromID = .ok r') := by
  unfold handleAppendResponse at eq
  split at eq
  · cases eq
    exact ⟨r.progress, r, .inl rfl, .inl rfl⟩
  · rename_i prog known
    dsimp only at eq
    split at eq
    · split at eq
      · exact ⟨_, _, .inl rfl, .inr eq⟩
      · cases eq
        exact ⟨_, _, .inl rfl, .inl rfl⟩
    · by_cases updated : ({ prog with recentActive := true }.maybeUpdate m.index).2
      · rw [if_pos updated] at eq
        split at eq
        all_goals
          split at eq
          · exact ⟨_, _, .inr rfl, .inr eq⟩
          · cases eq
            exact ⟨_, _, .inr rfl, .inl rfl⟩
      · rw [if_neg updated] at eq
        cases eq
        exact ⟨_, _, .inl rfl, .inl rfl⟩

variable {err : Option String}

theorem stepFollower_handles (eq : r.stepFollower m = .ok (r', err)) : Handles r m r' := by
  unfold stepFollower at eq
  split at eq <;> rename_i type
  · obtain ⟨r₁, ran, same⟩ := bind_eq_ok.mp eq
    cases same
    exact .heartbeat type .stays ran
  · obtain ⟨r₁, ran, same⟩ := bind_eq_ok.mp eq
    cases same
    exact .append type .stays ran
  · cases eq
    exact .snapshot type .stays
  · cases eq
    exact .vote (.inl type)
  · cases eq
    exact .vote (.inr type)
  · obtain ⟨r₁, ran, same⟩ := bind_eq_ok.mp eq
    cases same
    exact .timeoutNow type ran
  · split at eq
    · cases eq
      exact .ignored
    · cases eq
      exact .forward type
  · cases eq
    exact .ignored

theorem stepCandidate_handles (eq : r.stepCandidate m = .ok (r', err)) : Handles r m r' := by
  unfold stepCandidate at eq
  split at eq <;> rename_i type
  · obtain ⟨r₁, ran, same⟩ := bind_eq_ok.mp eq
    cases same
    exact .voteRsp (.inl type) ran
  · obtain ⟨r₁, ran, same⟩ := bind_eq_ok.mp eq
    cases same
    exact .voteRsp (.inr type) ran
  · obtain ⟨r₁, follows, rest⟩ := bind_eq_ok.mp eq
    obtain ⟨r₂, ran, same⟩ := bind_eq_ok.mp rest
    cases same
    exact .append type (.becomes follows) ran
  · obtain ⟨r₁, follows, rest⟩ := bind_eq_ok.mp eq
    obtain ⟨r₂, ran, same⟩ := bind_eq_ok.mp rest
    cases same
    exact .heartbeat type (.becomes follows) ran
  · cases eq
    exact .ignored
  · cases eq
    exact .vote (.inl type)
  · cases eq
    exact .ignored

theorem stepLeader_handles (eq : r.stepLeader m = .ok (r', err)) : Handles r m r' := by
  unfold stepLeader at eq
  split at eq <;> rename_i type
  · split at eq
    · cases eq
      exact .ignored
    · obtain ⟨r₁, ran, same⟩ := bind_eq_ok.mp eq
      cases same
      exact .propose type ran
  · obtain ⟨r₁, ran, same⟩ := bind_eq_ok.mp eq
    cases same
    exact .appendRsp type ran
  · split at eq
    · cases eq
      exact .ignored
    · obtain ⟨r₁, ran, same⟩ := bind_eq_ok.mp eq
      cases same
      split at ran
      · exact .heartbeatRsp type _ ran
      · cases ran
        exact .noted _
  · cases eq
    exact .vote (.inl type)
  · cases eq
    exact .vote (.inr type)
  · split at eq
    · cases eq
      exact .ignored
    · split at eq
      · cases eq
        exact .noted _
      · cases eq
        exact .ignored
  · obtain ⟨r₁, ran, same⟩ := bind_eq_ok.mp eq
    cases same
    exact .readIndex type ran
  · cases eq
    exact .ignored

theorem stepRole_handles (eq : r.stepRole m = .ok (r', err)) : Handles r m r' := by
  unfold stepRole at eq
  split at eq
  · exact stepFollower_handles eq
  · exact stepCandidate_handles eq
  · exact stepLeader_handles eq

/-- A message is handled as it comes, or after a message of a higher term has made the node a
follower. -/
theorem step_handles (eq : r.step m = .ok (r', err)) :
    Handles r m r' ∨ ∃ lead r₁, r.becomeFollower m.term lead = .ok r₁ ∧ Handles r₁ m r' := by
  unfold step at eq
  split at eq
  · exact .inl (stepRole_handles eq)
  · split at eq
    · split at eq
      · exact .inl (stepRole_handles eq)
      · obtain ⟨r₁, follows, rest⟩ := bind_eq_ok.mp eq
        exact .inr ⟨_, r₁, follows, stepRole_handles rest⟩
    · split at eq
      · cases eq
        exact .inl .ignored
      · exact .inl (stepRole_handles eq)

/-- A vote request is handled in every role alike. -/
theorem stepRole_vote (isVote : m.type = .vote) :
    r.stepRole m = .ok (r.handleVoteRequest m, none) := by
  unfold stepRole stepFollower stepCandidate stepLeader
  rw [isVote]
  cases r.state <;> rfl

/-- A vote request that is not of a lower term is handled as it comes, even if its term is
higher. -/
theorem step_vote (isVote : m.type = .vote) (reached : r.term ≤ m.term) :
    r.step m = .ok (r.handleVoteRequest m, none) := by
  unfold step
  split
  · exact stepRole_vote isVote
  · split
    · rw [if_pos (.inl isVote)]
      exact stepRole_vote isVote
    · rw [if_neg (not_lt.mpr reached)]
      exact stepRole_vote isVote

end Hermes.Raft
