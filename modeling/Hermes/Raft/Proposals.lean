import Hermes.Raft.Safety

/-!
# What an accepted proposal means

`Propose` returns as soon as the loop of its own node has stepped the proposal.
A leader has then appended the entry, a follower has only forwarded it, and no
other node has answered yet.  This module says when the entry is committed by
then.
-/

namespace Hermes.Raft

open List
open Cluster (Reachable anyStep)

variable {σ : Type} {A : Assumptions} {ms : Membership} {sm : StateMachine σ}
  {s : Replication.State NodeID LogEntry} {id : NodeID} {r r' : Raft}

/-- `MaybeCommit` commits the last entry of a log if and only if that entry is of
the current term and counts for a majority. -/
theorem RaftLog.maybeCommitFrom_succ_iff {l : RaftLog} {n : ℕ} (below : l.committed ≤ n)
    (matchIndexes : List ℕ) (currentTerm : ℕ) :
    n + 1 ≤ (l.maybeCommitFrom matchIndexes currentTerm (n + 1)).1.committed ↔
      commitCount matchIndexes (n + 1) ≥ (matchIndexes.length + 1) / 2 + 1 ∧
        l.termOf (n + 1) = currentTerm := by
  rw [maybeCommitFrom, if_pos (Nat.lt_succ_of_le below)]
  split
  · rename_i commits
    exact iff_of_true le_rfl commits
  · rename_i stays
    refine iff_of_false (fun reached => ?_) stays
    rcases l.maybeCommitFrom_cases matchIndexes currentTerm n with same | ⟨k, _, bound, _, _, moved⟩
    · rw [same] at reached
      omega
    · rw [moved] at reached
      change n + 1 ≤ k at reached
      omega

theorem RaftLog.maybeCommitFrom_entries (l : RaftLog) (matchIndexes : List ℕ) (currentTerm n : ℕ) :
    (l.maybeCommitFrom matchIndexes currentTerm n).1.entries = l.entries := by
  rcases l.maybeCommitFrom_cases matchIndexes currentTerm n with same | ⟨_, _, _, _, _, moved⟩
  · rw [same]
  · rw [moved]

theorem holders_insert {prog : Progress} {k : ℕ} (reached : k ≤ prog.matchIndex) :
    holders { r with progress := r.progress.insert id prog } k = insert id (r.holders k) := by
  ext q
  rw [holders, Finset.mem_insert, mem_keysWith, holders, mem_keysWith]
  by_cases same : q = id
  · subst same
    simp [reached]
  · simp [same]

theorem length_matchIndexes_eq (r : Raft) : r.matchIndexes.length = (r.holders 0).card := by
  rw [card_holders]
  simp

/-- The entry that a leader makes of a proposal. -/
def assigned (r : Raft) (entry : LogEntry) : LogEntry :=
  { entry with index := r.log.lastIndex + 1, term := r.term }

/-- A leader appends the entry at the end of its log, and commits it at once if the
members it takes for holders of that index are at least half of all. -/
theorem NodeOK.handleProposal_single (ok : NodeOK A ms s id r) (leads : r.state = .leader)
    {m : Message} {entry : LogEntry} (one : m.entries = [entry])
    (eq : r.handleProposal m = .ok r') :
    r'.log.entries = {} :: (r.log.body ++ [r.assigned entry]) ∧
      (r.log.lastIndex + 1 ≤ r'.log.committed ↔
        ms.ids.length ≤ 2 * (insert id (r.holders (r.log.lastIndex + 1))).card) := by
  have wf := ok.wellFormed
  have lastIndex := wf.lastIndex_eq
  have fits : Fits r.log.body (r.assigned entry) :=
    ⟨congrArg (· + 1) lastIndex, ok.role_term (by simp [leads])⟩
  have wf' := wf.concat fits
  have appended : [r.assigned entry].foldlM RaftLog.appendOne r.log =
      .ok { r.log with entries := {} :: (r.log.body ++ [r.assigned entry]) } := by
    rw [foldlM_cons, wf.appendOne_eq fits]
    rfl
  obtain ⟨prog, known⟩ := Option.isSome_iff_exists.mp
    (AList.lookup_isSome.mpr (ok.progress_all leads id ok.member))
  unfold Raft.handleProposal at eq
  simp only [one] at eq
  obtain ⟨log, first, rest⟩ := bind_eq_ok.mp eq
  cases appended.symm.trans first
  rw [ok.id_eq, known] at rest
  obtain ⟨r₂, broadcast, commits⟩ := bind_eq_ok.mp rest
  obtain ⟨msgs, rfl⟩ := broadcastAppendEntries_eq broadcast
  cases commits
  refine ⟨RaftLog.maybeCommitFrom_entries _ _ _ _, ?_⟩
  set log : RaftLog := { r.log with entries := {} :: (r.log.body ++ [r.assigned entry]) }
  have last : log.lastIndex = r.log.lastIndex + 1 := by
    rw [wf'.lastIndex_eq, lastIndex, ← length_singleton, ← length_append]
    rfl
  have termEq : log.termOf (r.log.lastIndex + 1) = r.term := by
    have ofLast := wf'.termOf_concat (prefix_refl (r.log.body ++ [r.assigned entry]))
    rwa [← lastIndex] at ofLast
  set prog' := (prog.maybeUpdate log.lastIndex).1
  have reached : r.log.lastIndex + 1 ≤ prog'.matchIndex := by
    rw [← last]
    simp only [prog', Progress.maybeUpdate]
    split
    · assumption
    · rfl
  set next : Raft :=
    { r with id := id, log := log, progress := r.progress.insert id prog', msgs := msgs }
  have held : ∀ k ≤ prog'.matchIndex, next.holders k = insert id (r.holders k) :=
    fun k reached => holders_insert (r := { r with id := id, log := log, msgs := msgs }) reached
  have all : (insert id (r.holders 0)).card = ms.ids.length := by
    have tracked : id ∈ r.holders 0 := mem_keysWith.mpr ⟨prog, known, by simp⟩
    rw [Finset.insert_eq_of_mem tracked, ← length_matchIndexes_eq, ok.length_matchIndexes leads]
  change r.log.lastIndex + 1 ≤
    (log.maybeCommitFrom next.matchIndexes r.term log.lastIndex).1.committed ↔ _
  have below : log.committed ≤ r.log.lastIndex := lastIndex ▸ wf.committed_le
  rw [last, RaftLog.maybeCommitFrom_succ_iff below, RaftLog.commitCount,
    ← card_holders, length_matchIndexes_eq, held _ reached, held 0 (Nat.zero_le _)]
  omega

/-- An accepted proposal was forwarded by a follower or handled by a leader. -/
theorem RaftNode.propose_cases {n n' : RaftNode σ} {data : Bytes} {ready : Ready}
    (accepted : n.propose sm data = .ok (n', ready, none)) :
    ∃ raft, n.raft.stepRole (n.proposal [{ type := .normal, data := data }]) = .ok (raft, none) ∧
      (n.raft.state ≠ .leader ∧ raft.log = n.raft.log ∨
        n.raft.state = .leader ∧
          n.raft.handleProposal (n.proposal [{ type := .normal, data := data }]) = .ok raft) ∧
      RaftNode.ready sm { n with raft := raft } = .ok (ready, n') := by
  obtain ⟨⟨raft, err⟩, stepped, rest⟩ := bind_eq_ok.mp accepted
  have atRole : n.raft.stepRole (n.proposal [{ type := .normal, data := data }]) =
      .ok (raft, err) := stepped
  cases err with
  | some text => cases rest
  | none =>
    obtain ⟨⟨ready', n''⟩, taken, same⟩ := bind_eq_ok.mp rest
    cases same
    refine ⟨raft, atRole, ?_, taken⟩
    cases role : n.raft.state with
    | follower =>
      simp only [Raft.stepRole, role, Raft.stepFollower, RaftNode.proposal] at atRole
      split at atRole
      · cases atRole
      · cases atRole
        exact .inl ⟨by simp, rfl⟩
    | candidate =>
      rw [Raft.stepRole, role] at atRole
      cases atRole
    | leader =>
      rw [Raft.stepRole, role] at atRole
      obtain ⟨r₂, proposed, same⟩ := bind_eq_ok.mp atRole
      cases same
      exact .inr ⟨rfl, proposed⟩

/-- When `Propose` returns without an error, the entry it has added is committed if
and only if the node is the leader and takes half of the members, itself included,
for holders of the entry's index. -/
theorem propose_committed_iff (named : ms.Named) {c : Cluster σ}
    (reachable : Reachable ms sm anyStep c) (member : id ∈ ms.ids) {data : Bytes}
    {n : RaftNode σ} {ready : Ready}
    (accepted : (c.nodes id).propose sm data = .ok (n, ready, none)) :
    (∃ i entry, (c.nodes id).raft.log.lastIndex < i ∧ i ≤ n.raft.log.committed ∧
      n.raft.log.entryAt i = some entry ∧ entry.type = .normal ∧ entry.data = data) ↔
      (c.nodes id).raft.state = .leader ∧
        ms.ids.length ≤
          2 * (insert id ((c.nodes id).raft.holders
            ((c.nodes id).raft.log.lastIndex + 1))).card := by
  obtain ⟨s, ok⟩ := ClusterOK.of_anyStep named reachable
  have node := ok.nodes id member
  have sender : ((c.nodes id).proposal [{ type := .normal, data := data }]).fromID ∈ ms.ids := by
    simp only [RaftNode.proposal, node.config_eq, ms.config_nodeID id member]
    exact member
  obtain ⟨raft, stepped, handled, taken⟩ := RaftNode.propose_cases accepted
  obtain ⟨s', _, _, node'⟩ := node.stepRolePropose ok.inv rfl sender (.inl rfl) stepped
  have wf' := node'.wellFormed
  have after := (RaftNode.Processed.of_ready wf'.regular taken).raft
  have entryAt_eq : ∀ i, n.raft.log.entryAt i = raft.log.entries[i]? := by
    intro i
    rw [after]
    exact wf'.entryAt_eq i
  have committed_eq : n.raft.log.committed = raft.log.committed := by rw [after]
  simp only [entryAt_eq, committed_eq]
  rcases handled with ⟨role, same⟩ | ⟨leads, proposed⟩
  · -- forwarding leaves the log alone
    refine iff_of_false ?_ fun leading => role leading.1
    rintro ⟨i, entry, beyond, within, _⟩
    have bound := wf'.committed_le
    rw [← wf'.lastIndex_eq, same] at bound
    rw [same] at within
    omega
  · obtain ⟨entries, commits⟩ := node.handleProposal_single leads rfl proposed
    rw [and_iff_right leads, ← commits]
    constructor
    · omega
    · intro within
      refine ⟨_, (c.nodes id).raft.assigned { type := .normal, data := data }, Nat.lt_succ_self _,
        within, ?_, rfl, rfl⟩
      rw [entries, node.wellFormed.lastIndex_eq, getElem?_cons_succ,
        getElem?_concat_length]

/-- Whether the node accepts `data` and its log then satisfies `p`. -/
def accepts (n : RaftNode Unit) (data : Bytes) (p : RaftLog → Bool) : Bool :=
  match n.propose idle data with
  | .ok (n', _, none) => p n'.raft.log
  | _ => false

theorem exists_of_accepts {n : RaftNode Unit} {data : Bytes} {p : RaftLog → Bool}
    (holds : accepts n data p = true) :
    ∃ n' ready, n.propose idle data = .ok (n', ready, none) ∧ p n'.raft.log = true := by
  unfold accepts at holds
  split at holds
  · rename_i n' ready eq
    exact ⟨n', ready, eq, holds⟩
  · nomatch holds

def pair : Membership :=
  .eager ["a", "b"] (by decide)

/-- The leader of two nodes is half of them. -/
theorem propose_committed_pair : ∃ c n ready, Reachable pair idle anyStep c ∧
    (c.nodes "a").propose idle [120] = .ok (n, ready, none) ∧
    ∃ i entry, (c.nodes "a").raft.log.lastIndex < i ∧ i ≤ n.raft.log.committed ∧
      n.raft.log.entryAt i = some entry ∧ entry.type = .normal ∧ entry.data = [120] := by
  obtain ⟨c, reachable, accepted, condition⟩ := Cluster.exists_reachable_of_exec idle anyStep
    (Cluster.fresh_initial pair () (by decide)) (elect "a" "b" 1) (P := fun c =>
      accepts (c.nodes "a") [120] (fun _ => true) ∧ (c.nodes "a").raft.state = .leader ∧
        2 ≤ 2 * (insert "a" ((c.nodes "a").raft.holders
          ((c.nodes "a").raft.log.lastIndex + 1))).card) (by decide +kernel)
  obtain ⟨n, ready, proposed, _⟩ := exists_of_accepts accepted
  exact ⟨c, n, ready, reachable, proposed,
    (propose_committed_iff (by decide) reachable (by decide) proposed).mpr condition⟩

/-- The leader of three nodes reports success before anyone else has the entry. -/
theorem propose_accepted_uncommitted : ∃ c n ready, Reachable trio idle anyStep c ∧
    (c.nodes "a").propose idle [120] = .ok (n, ready, none) ∧
    ∀ i ≤ n.raft.log.committed, ∀ entry, n.raft.log.entryAt i = some entry →
      entry.data ≠ [120] := by
  obtain ⟨c, reachable, holds⟩ := Cluster.exists_reachable_of_exec idle anyStep trio_initial
    (elect "a" "b" 1) (P := fun c => accepts (c.nodes "a") [120] fun log =>
      decide (log.committed = 0 ∧ log.entryAt 0 = some {})) (by decide +kernel)
  obtain ⟨n, ready, proposed, log⟩ := exists_of_accepts holds
  obtain ⟨nothing, sentinel⟩ := of_decide_eq_true log
  refine ⟨c, n, ready, reachable, proposed, fun i bound entry known => ?_⟩
  rw [nothing] at bound
  cases Nat.le_zero.mp bound
  cases sentinel.symm.trans known
  decide

end Hermes.Raft
