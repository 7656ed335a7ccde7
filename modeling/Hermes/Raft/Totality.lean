import Hermes.Raft.Stability

/-!
# Nodes do not panic

The panics of a node guard against roles that change out of order, entries that do not
follow the last one and slices outside the log.  None of them is reached as long as the
log has not been compacted and the election timeout is positive.
-/

namespace Hermes.Raft

open List

namespace RaftLog

variable {l : RaftLog}

/-- Go's slicing does not panic on an interval that reaches behind the snapshot. -/
theorem slice_succeeds {lo hi : ℕ} (behind : lo < hi → l.snapshotIndex < hi) :
    Succeeds (l.slice lo hi) := by
  unfold slice
  split
  · exact .ok []
  · dsimp only
    set lower := if lo < l.snapshotIndex + 1 then l.snapshotIndex + 1 else lo with lower_eq
    set upper := if hi > l.lastIndex + 1 then l.lastIndex + 1 else hi with upper_eq
    split
    · exact .ok []
    · have order : ¬upper < lower := by
        rw [lastIndex] at upper_eq
        split_ifs at lower_eq upper_eq <;> omega
      rw [if_neg order]
      exact .ok _

theorem commitTo_succeeds (started : l.snapshotIndex ≤ l.committed) (n : ℕ) :
    Succeeds (l.commitTo n) := by
  unfold commitTo
  split
  · exact .ok _
  · apply Succeeds.bind
    · apply slice_succeeds
      intro nonempty
      dsimp only at nonempty ⊢
      omega
    · intro entries _
      exact .ok _

theorem append_spec (whole : l.snapshotIndex = 0) (entries : List LogEntry) :
    ∃ l', l.append entries = .ok l' ∧ l'.snapshotIndex = 0 := by
  induction entries with
  | nil => exact ⟨l, rfl, whole⟩
  | cons entry rest ih =>
    rw [append]
    split
    · split
      · exact ih
      · rw [if_neg (by omega)]
        exact ⟨_, rfl, whole⟩
    · exact ⟨_, rfl, whole⟩

/-- Entries that are numbered from the end of the log on can all be appended. -/
theorem appendAll_succeeds (started : l.entries ≠ []) (entries : List LogEntry) (term : ℕ) :
    Succeeds ((entries.mapIdx fun i entry =>
      { entry with index := l.lastIndex + 1 + i, term := term }).foldlM appendOne l) := by
  induction entries generalizing l with
  | nil => exact .ok l
  | cons entry rest ih =>
    have positive := length_pos_iff.mpr started
    let next : RaftLog :=
      { l with entries := l.entries ++ [{ entry with index := l.lastIndex + 1, term := term }] }
    have appended :
        l.appendOne { entry with index := l.lastIndex + 1, term := term } = .ok next :=
      if_neg (not_not.mpr rfl)
    have last : next.lastIndex = l.lastIndex + 1 := by
      simp only [lastIndex, next, length_append, length_singleton]
      omega
    have rest_eq : (rest.mapIdx fun i entry =>
        { entry with index := l.lastIndex + 1 + (i + 1), term := term }) =
        rest.mapIdx fun i entry =>
          { entry with index := next.lastIndex + 1 + i, term := term } := by
      congr
      funext i entry
      have index : l.lastIndex + 1 + (i + 1) = next.lastIndex + 1 + i := by omega
      rw [index]
    rw [mapIdx_cons, foldlM_cons, appended, rest_eq]
    exact ih (concat_ne_nil _ _)

end RaftLog

variable {r : Raft} {m : Message}

theorem becomeCandidate_state {r' : Raft} (eq : r.becomeCandidate = .ok r') :
    r'.state = .candidate := by
  unfold becomeCandidate at eq
  split at eq
  · nomatch eq
  · exact (SameView.resetElectionTimeout eq).state

theorem becomeFollower_config {r' : Raft} {term : ℕ} {lead : NodeID}
    (eq : r.becomeFollower term lead = .ok r') : r'.config = r.config := by
  rw [(SameView.resetElectionTimeout eq).config]
  split <;> rfl

/-- A handler whose state is returned without an error. -/
theorem handled_succeeds {x : Except Panic Raft} (handler : Succeeds x) :
    Succeeds (do let r ← x return (r, (none : Option String))) := by
  apply handler.bind
  intro r₁ _
  exact .ok _

section

variable (ticks : 0 < r.config.electionTick)

include ticks

theorem resetElectionTimeout_succeeds : Succeeds r.resetElectionTimeout := by
  unfold resetElectionTimeout Rng.intn
  rw [if_neg (Int.not_le.mpr ticks)]
  exact .ok _

theorem becomeFollower_succeeds (term : ℕ) (lead : NodeID) :
    Succeeds (r.becomeFollower term lead) := by
  apply resetElectionTimeout_succeeds
  split <;> exact ticks

theorem becomeCandidate_succeeds (follows : r.state ≠ .leader) : Succeeds r.becomeCandidate := by
  unfold becomeCandidate
  rw [if_neg follows]
  exact resetElectionTimeout_succeeds ticks

end

section

variable {heartbeat : Bool} (whole : r.log.snapshotIndex = 0)

include whole

theorem sendAppendEntries_succeeds (peer : NodeID) : Succeeds (r.sendAppendEntries peer) := by
  unfold sendAppendEntries
  split
  · exact .ok r
  · split
    · exact .ok r
    · apply Succeeds.bind
      · exact RaftLog.slice_succeeds fun nonempty => by omega
      · intro entries _
        exact .ok _

theorem broadcastAppendEntries_succeeds : Succeeds (r.broadcastAppendEntries heartbeat) := by
  obtain ⟨r', broadcast, _⟩ :=
    foldlM_succeeds (P := fun r : Raft => r.log.snapshotIndex = 0)
      (f := fun r peer =>
        if heartbeat then .ok (r.sendHeartbeat peer) else r.sendAppendEntries peer)
      (l := r.config.peers) whole <| by
        intro r₁ peer whole₁ _
        split
        · exact ⟨_, rfl, whole₁⟩
        · obtain ⟨r₂, sent⟩ := sendAppendEntries_succeeds whole₁ peer
          refine ⟨r₂, sent, ?_⟩
          rw [sendAppendEntries_log sent]
          exact whole₁
  exact ⟨r', broadcast⟩

theorem becomeLeader_succeeds (stands : r.state = .candidate) : Succeeds r.becomeLeader := by
  unfold becomeLeader
  rw [if_neg (not_not.mpr stands)]
  apply Succeeds.bind
  · apply Succeeds.bind
    · exact ⟨_, if_neg (not_not.mpr rfl)⟩
    · intro log _
      exact .ok _
  · intro r₁ appended
    apply broadcastAppendEntries_succeeds
    obtain ⟨log, logged, same⟩ := bind_eq_ok.mp appended
    cases same
    rw [(RaftLog.appendOne_extends logged).snapshotIndex]
    exact whole

/-! ## Messages and ticks -/

theorem handleAppendEntries_succeeds (m : Message) : Succeeds (r.handleAppendEntries m) := by
  unfold handleAppendEntries
  split
  · exact .ok _
  · split
    · exact .ok _
    · obtain ⟨log, appended, whole'⟩ :
          ∃ log, (if m.entries.length > 0 then r.log.append m.entries else .ok r.log) = .ok log ∧
            log.snapshotIndex = 0 := by
        split
        · exact RaftLog.append_spec whole m.entries
        · exact ⟨r.log, rfl, whole⟩
      apply Succeeds.bind ⟨log, appended⟩
      intro log' same
      cases appended.symm.trans same
      apply Succeeds.bind
      · split
        · apply Succeeds.bind (RaftLog.commitTo_succeeds (whole'.trans_le (Nat.zero_le _)) _)
          intro pair _
          exact .ok _
        · exact .ok _
      · intro log₂ _
        exact .ok _

theorem handleHeartbeat_succeeds (m : Message) : Succeeds (r.handleHeartbeat m) := by
  apply Succeeds.bind
  · split
    · apply Succeeds.bind (RaftLog.commitTo_succeeds (whole.trans_le (Nat.zero_le _)) _)
      intro pair _
      exact .ok _
    · exact .ok _
  · intro log _
    exact .ok _

theorem handleAppendResponse_succeeds (m : Message) : Succeeds (r.handleAppendResponse m) := by
  have resend : ∀ progress : AList fun _ : NodeID => Progress,
      Succeeds ({ r with progress := progress }.sendAppendEntries m.fromID) := by
    intro progress
    apply sendAppendEntries_succeeds
    exact whole
  have resendCommitted : ∀ progress : AList fun _ : NodeID => Progress,
      Succeeds ({ r with progress := progress }.maybeCommit.sendAppendEntries m.fromID) := by
    intro progress
    apply sendAppendEntries_succeeds
    exact (RaftLog.maybeCommitFrom_extends _ _ _).1.snapshotIndex.trans whole
  unfold handleAppendResponse
  split
  · exact .ok r
  · dsimp only
    split
    · split
      · exact resend _
      · exact .ok _
    · split
      · split
        all_goals
          split
          · exact resendCommitted _
          · exact .ok _
      · exact .ok _

variable (ticks : 0 < r.config.electionTick)

include ticks

theorem campaign_succeeds (follows : r.state ≠ .leader) : Succeeds r.campaign := by
  apply Succeeds.bind (becomeCandidate_succeeds ticks follows)
  intro r₁ candidate
  split
  · apply becomeLeader_succeeds _ (becomeCandidate_state candidate)
    rw [becomeCandidate_log candidate]
    exact whole
  · exact .ok _

theorem tick_succeeds : Succeeds r.tick := by
  have election : r.state ≠ .leader → Succeeds r.tickElection := by
    intro follows
    unfold tickElection
    dsimp only
    split
    · exact campaign_succeeds whole ticks follows
    · exact .ok _
  unfold tick
  cases role : r.state with
  | follower | candidate => exact election (by rw [role]; decide)
  | leader =>
    dsimp only [tickHeartbeat]
    split
    · exact broadcastAppendEntries_succeeds whole
    · exact .ok _

theorem handleVoteResponse_succeeds (stands : r.state = .candidate) (m : Message) :
    Succeeds (r.handleVoteResponse m) := by
  unfold handleVoteResponse
  split
  · dsimp only
    split
    · split
      · refine campaign_succeeds whole ticks ?_
        rw [stands]
        decide
      · exact becomeLeader_succeeds whole stands
    · exact .ok _
  · exact .ok _

theorem stepFollower_succeeds (follows : r.state = .follower) (m : Message) :
    Succeeds (r.stepFollower m) := by
  unfold stepFollower
  split
  · apply handled_succeeds
    apply handleHeartbeat_succeeds
    exact whole
  · apply handled_succeeds
    apply handleAppendEntries_succeeds
    exact whole
  · exact .ok _
  · exact .ok _
  · exact .ok _
  · apply handled_succeeds
    refine campaign_succeeds whole ticks ?_
    rw [follows]
    decide
  · split <;> exact .ok _
  · exact .ok _

theorem stepCandidate_succeeds (stands : r.state = .candidate) (m : Message) :
    Succeeds (r.stepCandidate m) := by
  have demoted : ∀ {handle : Raft → Except Panic Raft},
      (∀ r₁ : Raft, r₁.log.snapshotIndex = 0 → Succeeds (handle r₁)) →
      Succeeds (do
        let r₁ ← r.becomeFollower m.term m.fromID
        let r₂ ← handle r₁
        return (r₂, (none : Option String))) := by
    intro handle succeeds
    apply (becomeFollower_succeeds ticks m.term m.fromID).bind
    intro r₁ follows
    apply handled_succeeds
    apply succeeds
    rw [becomeFollower_log follows]
    exact whole
  unfold stepCandidate
  split
  · exact handled_succeeds (handleVoteResponse_succeeds whole ticks stands m)
  · exact handled_succeeds (handleVoteResponse_succeeds whole ticks stands m)
  · exact demoted fun r₁ whole₁ => handleAppendEntries_succeeds whole₁ m
  · exact demoted fun r₁ whole₁ => handleHeartbeat_succeeds whole₁ m
  · exact .ok _
  · exact .ok _
  · exact .ok _

end

theorem handleProposal_succeeds (wf : r.log.WellFormed) (m : Message) :
    Succeeds (r.handleProposal m) := by
  have started : r.log.entries ≠ [] := by
    rw [wf.entries_eq]
    exact cons_ne_nil _ _
  apply Succeeds.bind (RaftLog.appendAll_succeeds started m.entries r.term)
  intro log appended
  have whole : log.snapshotIndex = 0 := by
    refine foldlM_induction (P := fun l : RaftLog => l.snapshotIndex = 0) wf.snapshotIndex_eq ?_
      appended
    intro l entry l' whole _ eq
    rw [(RaftLog.appendOne_extends eq).snapshotIndex]
    exact whole
  apply Succeeds.bind
  · apply broadcastAppendEntries_succeeds
    split <;> exact whole
  · intro r₁ _
    exact .ok _

theorem stepLeader_succeeds (wf : r.log.WellFormed) (notRead : m.type ≠ .readIndex) :
    Succeeds (r.stepLeader m) := by
  have whole := wf.snapshotIndex_eq
  unfold stepLeader
  split
  · split
    · exact .ok _
    · exact handled_succeeds (handleProposal_succeeds wf m)
  · exact handled_succeeds (handleAppendResponse_succeeds whole m)
  · split
    · exact .ok _
    · apply handled_succeeds
      split
      · apply sendAppendEntries_succeeds
        exact whole
      · exact .ok _
  · exact .ok _
  · exact .ok _
  · split
    · exact .ok _
    · split <;> exact .ok _
  · rename_i isRead
    exact absurd isRead notRead
  · exact .ok _

variable (ticks : 0 < r.config.electionTick) (wf : r.log.WellFormed)
  (notRead : m.type ≠ .readIndex)

include ticks wf notRead

theorem stepRole_succeeds : Succeeds (r.stepRole m) := by
  unfold stepRole
  cases role : r.state with
  | follower => exact stepFollower_succeeds wf.snapshotIndex_eq ticks role m
  | candidate => exact stepCandidate_succeeds wf.snapshotIndex_eq ticks role m
  | leader => exact stepLeader_succeeds wf notRead

/-- A node never panics on a message, except on a request for a read index that carries no
entry. -/
theorem step_succeeds : Succeeds (r.step m) := by
  unfold step
  split
  · exact stepRole_succeeds ticks wf notRead
  · split
    · split
      · exact stepRole_succeeds ticks wf notRead
      · apply (becomeFollower_succeeds ticks _ _).bind
        intro r₁ follows
        apply stepRole_succeeds _ _ notRead
        · rw [becomeFollower_config follows]
          exact ticks
        · rw [becomeFollower_log follows]
          exact wf
    · split
      · exact .ok _
      · exact stepRole_succeeds ticks wf notRead

end Hermes.Raft
