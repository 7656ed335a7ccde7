import Hermes.Raft.Handling
import Hermes.Raft.Refinement.Sending

/-!
# What a tick and a message do to the log

A node changes its log by the operations of `RaftLog` only, and it appends the batch of a
leader only behind its commit index and after the consistency check.  Invariants of the log
are proved once for each operation and then hold for every step of a node.
-/

namespace Hermes.Raft

/-- The changes that handling `m` can make to a log.  A batch is appended and a snapshot
installed before anything else happens. -/
inductive RaftLog.Changes (m : Message) (l : RaftLog) : RaftLog → Prop where
  | refl : Changes m l l
  | append {l' : RaftLog} (type : m.type = .append) (fresh : l.committed ≤ m.logIndex)
    (consistent : m.logIndex = 0 ∨ l.termOf m.logIndex = m.logTerm)
    (eq : l.append m.entries = .ok l') : Changes m l l'
  | compact (type : m.type = .snapshot) {snapshot : Snapshot}
    (given : m.snapshot = some snapshot) :
    Changes m l (l.compact snapshot.index snapshot.term)
  | appendOne {l₁ l₂ : RaftLog} (before : Changes m l l₁) {entry : LogEntry}
    (eq : l₁.appendOne entry = .ok l₂) : Changes m l l₂
  | commitTo {l₁ l₂ : RaftLog} (before : Changes m l l₁) {n : ℕ} {entries : List LogEntry}
    (eq : l₁.commitTo n = .ok (l₂, entries)) : Changes m l l₂
  | maybeCommit {l₁ : RaftLog} (before : Changes m l l₁) (matchIndexes : List ℕ)
    (currentTerm : ℕ) :
    Changes m l (l₁.maybeCommitFrom matchIndexes currentTerm l₁.lastIndex).1

theorem RaftLog.Changes.of_eq {m : Message} {l l' : RaftLog} (same : l' = l) : Changes m l l' := by
  rw [same]
  exact .refl

/-! ## Functions that leave the log alone -/

variable {r r' : Raft} {m : Message}

theorem resetElectionTimeout_log (eq : r.resetElectionTimeout = .ok r') : r'.log = r.log :=
  (SameView.resetElectionTimeout eq).log

theorem becomeFollower_log {term : ℕ} {lead : NodeID} (eq : r.becomeFollower term lead = .ok r') :
    r'.log = r.log := by
  rw [resetElectionTimeout_log eq]
  split <;> rfl

theorem becomeCandidate_log (eq : r.becomeCandidate = .ok r') : r'.log = r.log := by
  unfold becomeCandidate at eq
  split at eq
  · nomatch eq
  · have kept := resetElectionTimeout_log eq
    exact kept

theorem sendAppendEntries_log {peer : NodeID} (eq : r.sendAppendEntries peer = .ok r') :
    r'.log = r.log := by
  obtain ⟨msgs, rfl⟩ := sendAppendEntries_eq eq
  rfl

theorem broadcastAppendEntries_log {heartbeat : Bool}
    (eq : r.broadcastAppendEntries heartbeat = .ok r') : r'.log = r.log := by
  obtain ⟨msgs, rfl⟩ := broadcastAppendEntries_eq eq
  rfl

/-- A loop of sends leaves the log alone. -/
theorem foldl_send_log (r : Raft) (peers : List NodeID) (message : Raft → NodeID → Message) :
    (peers.foldl (fun r peer => r.send (message r peer)) r).log = r.log :=
  List.foldlRecOn (motive := fun r₁ : Raft => r₁.log = r.log) _ _ rfl fun _ same _ _ => same

theorem handleVoteRequest_log (r : Raft) (m : Message) : (r.handleVoteRequest m).log = r.log := by
  unfold handleVoteRequest
  dsimp only
  split
  · split <;> rfl
  · rfl

theorem handleReadIndex_log (eq : r.handleReadIndex m = .ok r') : r'.log = r.log := by
  unfold handleReadIndex at eq
  split at eq
  · nomatch eq
  · cases eq
    exact foldl_send_log _ _ _

theorem Follows.log {r₁ : Raft} (follows : Follows r m r₁) : r₁.log = r.log := by
  cases follows with
  | stays => rfl
  | becomes ran => exact becomeFollower_log ran

/-! ## Functions that change it -/

theorem appendEntry_changes {entry : LogEntry} (eq : r.appendEntry entry = .ok r') :
    RaftLog.Changes m r.log r'.log := by
  obtain ⟨log, appended, same⟩ := bind_eq_ok.mp eq
  cases same
  exact .appendOne .refl appended

theorem becomeLeader_changes (eq : r.becomeLeader = .ok r') : RaftLog.Changes m r.log r'.log := by
  unfold becomeLeader at eq
  split at eq
  · nomatch eq
  · obtain ⟨r₁, appended, broadcast⟩ := bind_eq_ok.mp eq
    have changes := appendEntry_changes (m := m) appended
    rw [broadcastAppendEntries_log broadcast]
    exact changes

theorem campaign_changes (eq : r.campaign = .ok r') : RaftLog.Changes m r.log r'.log := by
  obtain ⟨r₁, candidate, rest⟩ := bind_eq_ok.mp eq
  have same := becomeCandidate_log candidate
  rw [← same]
  split at rest
  · exact becomeLeader_changes rest
  · cases rest
    exact .of_eq (foldl_send_log r₁ _ _)

theorem handleProposal_changes (eq : r.handleProposal m = .ok r') :
    RaftLog.Changes m r.log r'.log := by
  unfold handleProposal at eq
  obtain ⟨log, appended, rest⟩ := bind_eq_ok.mp eq
  obtain ⟨r₂, broadcast, commits⟩ := bind_eq_ok.mp rest
  cases commits
  have grown : RaftLog.Changes m r.log log :=
    foldlM_induction (P := RaftLog.Changes m r.log) .refl
      (fun _ _ _ changes _ round => .appendOne changes round) appended
  have kept := broadcastAppendEntries_log broadcast
  have log_eq : r₂.log = log := by
    rw [kept]
    split <;> rfl
  exact .maybeCommit (log_eq ▸ grown) _ _

theorem handleAppendEntries_changes (type : m.type = .append)
    (eq : r.handleAppendEntries m = .ok r') : RaftLog.Changes m r.log r'.log := by
  unfold handleAppendEntries at eq
  split at eq
  · cases eq
    exact .refl
  · rename_i fresh
    split at eq
    · cases eq
      exact .refl
    · rename_i consistent
      obtain ⟨log, appended, rest⟩ := bind_eq_ok.mp eq
      obtain ⟨log', commits, same⟩ := bind_eq_ok.mp rest
      cases same
      have grown : RaftLog.Changes m r.log log := by
        split at appended
        · refine .append type (not_lt.mp fresh) ?_ appended
          simp only [logConsistencyCheck, Bool.not_eq_true', Bool.not_eq_false] at consistent
          split at consistent
          · exact .inl ‹_›
          · exact .inr (of_decide_eq_true consistent)
        · cases appended
          exact .refl
      split at commits
      · obtain ⟨⟨log₁, _⟩, moved, same⟩ := bind_eq_ok.mp commits
        cases same
        exact .commitTo grown moved
      · cases commits
        exact grown

theorem handleHeartbeat_changes (eq : r.handleHeartbeat m = .ok r') :
    RaftLog.Changes m r.log r'.log := by
  obtain ⟨log, commits, same⟩ := bind_eq_ok.mp eq
  cases same
  split at commits
  · obtain ⟨⟨log₁, _⟩, moved, same⟩ := bind_eq_ok.mp commits
    cases same
    exact .commitTo .refl moved
  · cases commits
    exact .refl

theorem handleAppendResponse_changes (eq : r.handleAppendResponse m = .ok r') :
    RaftLog.Changes m r.log r'.log := by
  obtain ⟨progress, r₁, known, sent⟩ := handleAppendResponse_cases eq
  have grown : RaftLog.Changes m r.log r₁.log := by
    rcases known with rfl | rfl
    · exact .refl
    · exact .maybeCommit .refl _ _
  rcases sent with rfl | sent
  · exact grown
  · rw [sendAppendEntries_log sent]
    exact grown

theorem handleVoteResponse_changes (eq : r.handleVoteResponse m = .ok r') :
    RaftLog.Changes m r.log r'.log := by
  unfold handleVoteResponse at eq
  split at eq
  · dsimp only at eq
    split at eq
    · split at eq
      · have changes := campaign_changes (m := m) eq
        exact changes
      · have changes := becomeLeader_changes (m := m) eq
        exact changes
    · cases eq
      exact .refl
  · cases eq
    exact .refl

theorem handleInstallSnapshot_changes (r : Raft) (type : m.type = .snapshot) :
    RaftLog.Changes m r.log (r.handleInstallSnapshot m).log := by
  unfold handleInstallSnapshot
  split
  · exact .refl
  · rename_i snapshot given
    exact .compact type given

/-! ## Ticks and messages -/

theorem tick_changes (eq : r.tick = .ok r') : RaftLog.Changes m r.log r'.log := by
  cases tick_ticks eq with
  | waits => exact .refl
  | campaigns ran =>
    have changes := campaign_changes (m := m) ran
    exact changes
  | beats _ ran =>
    have kept := broadcastAppendEntries_log ran
    exact .of_eq kept

theorem Handles.changes (handles : Handles r m r') : RaftLog.Changes m r.log r'.log := by
  cases handles with
  | ignored | forward | noted => exact .refl
  | heartbeat _ follows ran =>
    rw [← follows.log]
    exact handleHeartbeat_changes ran
  | append type follows ran =>
    rw [← follows.log]
    exact handleAppendEntries_changes type ran
  | @snapshot r₁ type follows =>
    rw [← follows.log]
    exact handleInstallSnapshot_changes r₁ type
  | vote => exact .of_eq (handleVoteRequest_log r m)
  | timeoutNow _ ran => exact campaign_changes ran
  | voteRsp _ ran => exact handleVoteResponse_changes ran
  | propose _ ran => exact handleProposal_changes ran
  | appendRsp _ ran => exact handleAppendResponse_changes ran
  | heartbeatRsp _ _ ran =>
    have kept := sendAppendEntries_log ran
    exact .of_eq kept
  | readIndex _ ran => exact .of_eq (handleReadIndex_log ran)

/-- A step changes the log by its operations only. -/
theorem step_changes {err : Option String} (eq : r.step m = .ok (r', err)) :
    RaftLog.Changes m r.log r'.log := by
  rcases step_handles eq with handles | ⟨lead, r₁, follows, handles⟩
  · exact handles.changes
  · rw [← becomeFollower_log follows]
    exact handles.changes

end Hermes.Raft
