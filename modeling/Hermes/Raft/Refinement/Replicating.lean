import Hermes.Raft.Refinement.Roles

/-!
# Replication as steps of a replica

The handlers of `MsgAppend`, `MsgHeartbeat`, their responses and proposals.  A
follower keeps a suffix of its log that the batch does not reach, and commits on
a heartbeat without looking at its log; what it then acknowledges and commits
belongs to the leader only under the conditions stated here as hypotheses.
-/

namespace Hermes.Raft

open AList List
open Replication (Inv Step Steps State)

variable {A : Assumptions} {ms : Membership} {s : Replication.State NodeID LogEntry}
  {id : NodeID} {r r' : Raft}

namespace ProgressOK

variable {t : ℕ} {log : List LogEntry} {peer : NodeID} {prog : Progress}
  (ok : ProgressOK A s.toHistory id t log peer prog)

include ok

theorem active : ProgressOK A s.toHistory id t log peer { prog with recentActive := true } :=
  { ok with }

variable {n : ℕ}

theorem maybeUpdate (bound : A.matching → n ≤ log.length)
    (acked : A.matching → ∀ x ≤ n, s.acked peer t x)
    (behind : A.matching → peer ≠ id → Behind s.toHistory id t n) :
    ProgressOK A s.toHistory id t log peer (prog.maybeUpdate n).1 := by
  unfold Progress.maybeUpdate
  split
  · exact ok
  · refine ⟨?_, fun matching => ?_, fun matching x _ below => acked matching x below,
      fun matching other => ?_, fun matching other _ => behind matching other⟩
    · dsimp only
      split <;> omega
    · dsimp only
      have := ok.next_le matching
      have := bound matching
      split <;> omega
    · split
      · exact (behind matching other).mono (.refl _) (Nat.le_succ n)
      · exact ok.next_own matching other

variable (inv : Inv ms.rules s) {c : NodeID} (leader : s.leader t = some (c, log))

include inv leader

/-- A match index stays inside the leader's log. -/
theorem match_le (matching : A.matching) : prog.matchIndex ≤ log.length := by
  rcases Nat.eq_zero_or_pos prog.matchIndex with zero | positive
  · omega
  · exact inv.acks.le_length (ok.acked matching _ positive le_rfl) leader

theorem becomeReplicate
    (behind : A.matching → peer ≠ id → Behind s.toHistory id t prog.matchIndex) :
    ProgressOK A s.toHistory id t log peer prog.becomeReplicate :=
  ⟨Nat.succ_pos _, fun matching => Nat.succ_le_succ (ok.match_le inv leader matching), ok.acked,
    fun matching other => (behind matching other).mono (.refl _) (Nat.le_succ _),
    fun matching other _ => behind matching other⟩

/-- A rejection carries index zero, so only a replicating peer is probed again,
and then from behind its match index. -/
theorem maybeDecrTo (conflict : ℕ) :
    ProgressOK A s.toHistory id t log peer (prog.maybeDecrTo 0 conflict).1 := by
  unfold Progress.maybeDecrTo
  split
  · rename_i replicating
    exact ⟨Nat.succ_pos _, fun matching => Nat.succ_le_succ (ok.match_le inv leader matching),
      ok.acked, fun matching other =>
        (ok.match_own matching other replicating).mono (.refl _) (Nat.le_succ _),
      nofun⟩
  · split
    · exact ok
    · have positive : 1 ≤ (if conflict < 1 then 1 else conflict) := by split <;> omega
      rw [if_neg (by omega)]
      exact ok

end ProgressOK

theorem Progress.maybeUpdate_matchIndex {prog : Progress}
    (updated : (prog.maybeUpdate n).2 = true) : (prog.maybeUpdate n).1.matchIndex = n := by
  unfold Progress.maybeUpdate at updated ⊢
  split at updated
  · nomatch updated
  · rename_i more
    rw [if_neg more]

theorem AppendOK.isPrefix {m : Message} {log : List LogEntry}
    (append : AppendOK A ms s.toHistory m log) : log.take m.logIndex ++ m.entries <+: log := by
  conv_rhs => rw [← take_append_drop m.logIndex log]
  exact (prefix_append_right_inj _).mpr append.entries

namespace NodeOK

variable (ok : NodeOK A ms s id r)

include ok

/-! ## Commit indices, progress and forwarding -/

variable {entries : List LogEntry}

/-- Committing up to an index that the leader has announced. -/
theorem commitTo {log : RaftLog}
    (eq : r.log.commitTo n = .ok (log, entries))
    (chosen : A.matching → r.log.committed < n →
      s.Chosen ms.rules r.term (r.log.body.take (min n r.log.body.length))) :
    NodeOK A ms s id { r with log := log } ∧ log.body = r.log.body ∧
      log.lastIndex = r.log.lastIndex := by
  obtain ⟨committed, exact⟩ := ok.wellFormed.commitTo_eq n
  rw [exact] at eq
  cases eq
  have bound := ok.wellFormed.committed_le
  have applied := ok.wellFormed.applied_le
  refine ⟨ok.withCommitted (by omega) (by omega) fun matching => ?_, rfl, rfl⟩
  rcases le_total (min n r.log.body.length) r.log.committed with old | new
  · rw [max_eq_left old]
    exact ok.committed matching
  · rw [max_eq_right new]
    rcases eq_or_lt_of_le new with same | more
    · rw [← same]
      exact ok.committed matching
    · exact chosen matching (by omega)

variable {peer : NodeID}

/-- A leader updates what it knows about a member. -/
theorem withProgress {prog prog' : Progress} (known : r.progress.lookup peer = some prog)
    (progress : r.state = .leader → ProgressOK A s.toHistory id r.term r.log.body peer prog') :
    NodeOK A ms s id { r with progress := r.progress.insert peer prog' } := by
  have tracked : peer ∈ r.progress := lookup_isSome.mp (by simp [known])
  have sameKeys : ∀ q, q ∈ r.progress.insert peer prog' ↔ q ∈ r.progress := by
    intro q
    rw [mem_insert]
    constructor
    · rintro (rfl | old)
      · exact tracked
      · exact old
    · exact .inr
  refine { ok with
    progress_mem := fun q mem => ok.progress_mem q ((sameKeys q).mp mem)
    progress_all := fun leads q mem => (sameKeys q).mpr (ok.progress_all leads q mem)
    progress_ok := ?_ }
  intro leads q prog'' found
  by_cases same : q = peer
  · subst same
    rw [lookup_insert] at found
    cases found
    exact progress leads
  · rw [lookup_insert_ne same] at found
    exact ok.progress_ok leads q prog'' found

variable {m : Message} {log : List LogEntry}

/-- Committing what a batch announces. -/
theorem commitBatch (append : AppendOK A ms s.toHistory m log) (current : m.term = r.term)
    (inLeader : A.matching → r.log.body <+: log) {l : RaftLog}
    (eq : (if m.commitIndex > r.log.stats.commitIndex then do
        let newCommit :=
          if r.log.lastIndex < m.commitIndex then r.log.lastIndex else m.commitIndex
        let (log, _) ← r.log.commitTo newCommit
        pure log
      else pure r.log) = .ok l) :
    NodeOK A ms s id { r with log := l } ∧ l.body = r.log.body ∧
      l.lastIndex = r.log.lastIndex := by
  split at eq
  · obtain ⟨⟨log', entries⟩, commits, same⟩ := bind_eq_ok.mp eq
    cases same
    refine ok.commitTo commits fun matching _ => ?_
    have chosen := (append.commit matching).2
    rw [current] at chosen
    refine chosen.of_isPrefix ?_ le_rfl
    obtain ⟨rest, split⟩ := inLeader matching
    rw [← split, take_append_of_le_length (min_le_right _ _) |>.symm]
    refine take_prefix_take_left ?_
    split <;> omega
  · cases eq
    exact ⟨ok, rfl, rfl⟩

theorem handleHeartbeat (reports : MsgOK A ms s.toHistory m) (isHeartbeat : m.type = .heartbeat)
    (received : m.toID = id) (current : m.term = r.term) (positive : 1 ≤ r.term)
    (agree : A.matching → r.log.committed < m.commitIndex →
      ∀ log, s.leader m.term = some (m.fromID, log) →
      r.log.body.take (min m.commitIndex r.log.body.length) <+: log)
    (eq : r.handleHeartbeat m = .ok r') : Simulated A ms s id r' := by
  have fact := reports.fact
  simp only [MsgFact, isHeartbeat] at fact
  obtain ⟨log, leader, commit⟩ := fact
  obtain ⟨l, commits, sent⟩ := bind_eq_ok.mp eq
  cases sent
  have ok₁ : NodeOK A ms s id { r with log := l } := by
    split at commits
    · obtain ⟨⟨log', entries⟩, commits, same⟩ := bind_eq_ok.mp commits
      cases same
      refine (ok.commitTo commits fun matching above => ?_).1
      have inLeader := agree matching above log leader
      refine (commit matching).2.of_isPrefix ?_ current.le
      rw [prefix_take_iff]
      exact ⟨inLeader, by rw [length_take]; omega⟩
    · cases commits
      exact ok
  have other : m.fromID ≠ id := received ▸ reports.distinct (by simp [isHeartbeat])
  exact NodeOK.simulated (ok₁.sendTo rfl rfl other (fun _ => positive)
    ⟨log, by rw [← current]; exact leader⟩)

/-- A follower hands a proposal on to the leader it knows. -/
theorem forward (isPropose : m.type = .propose) (sender : m.fromID ∈ ms.ids)
    (current : m.term = 0 ∨ m.term = r.term) (known : r.lead ≠ "") :
    NodeOK A ms s id (r.send { m with toID := r.lead }) := by
  have positive := ok.lead_term known
  have named := ok.named _ sender
  have stamped : r.stamp { m with toID := r.lead } =
      { m with toID := r.lead, term := r.term } := by
    rcases current with zero | same
    · simp [stamp, named, zero]
    · simp [stamp, named, same]
  refine ok.send ?_
  rw [stamped]
  refine ⟨sender, fun other => absurd isPropose other, fun _ => positive, ?_⟩
  simp only [isPropose]
  exact fun assumed => ok.lead_elected assumed known

/-! ## Receiving a batch -/

variable (inv : Inv ms.rules s)

include inv

/-- A follower acknowledges what its log shares with that of the leader. -/
theorem ackUpTo {c : NodeID} (leader : s.leader r.term = some (c, log)) {x : ℕ} {Holds : Prop}
    (agrees : Holds → x ≤ log.length ∧ log.take x <+: r.log.body) :
    ∃ s', Steps ms.rules id s s' ∧ s'.leader = s.leader ∧ s.Le s'.toHistory ∧
      NodeOK A ms s' id r ∧ (Holds → ∀ y ≤ x, s'.acked id r.term y) := by
  by_cases holds : Holds
  · obtain ⟨bound, inBody⟩ := agrees holds
    have step : Step ms.rules id s (s.ack id x) :=
      .ack (by rw [ok.replica_eq]; exact leader) bound (by rw [ok.replica_eq]; exact inBody)
    have le := step.le inv.election inv.logs
    refine ⟨_, .single step, rfl, le, ok.mono inv le rfl,
      fun _ y below => .inr ⟨rfl, ?_, below⟩⟩
    rw [ok.replica_eq]
    rfl
  · exact ⟨s, .refl, rfl, .refl _, ok, fun held => absurd held holds⟩

theorem sendAppendRsp (leader : s.leader r.term = some (peer, log))
    (positive : 1 ≤ r.term) (other : peer ≠ id) (isRsp : m.type = .appendRsp)
    (toPeer : m.toID = peer) (anonymous : m.fromID = "") (current : m.term = r.term)
    (rejects : m.reject = true → m.index = 0)
    (agrees : A.matching → m.reject = false → Behind s.toHistory peer r.term m.index ∧
      m.index ≤ log.length ∧ log.take m.index <+: r.log.body) :
    Simulated A ms s id (r.send m) := by
  obtain ⟨s', run, sameLeader, le, ok', acks⟩ := ok.ackUpTo inv leader
    fun accepted : A.matching ∧ m.reject = false => (agrees accepted.1 accepted.2).2
  refine (ok'.sendTo anonymous current (toPeer ▸ other) (fun _ => positive) ?_).simulated.after run
    sameLeader
  simp only [isRsp]
  refine ⟨⟨log, by rw [sameLeader, current, toPeer, leader]⟩, rejects,
    fun matching accepted => ⟨?_, fun y below => ?_⟩⟩
  · rw [toPeer, current]
    exact (agrees matching accepted).1.mono le le_rfl
  · rw [current]
    exact acks ⟨matching, accepted⟩ y below

section

variable (append : AppendOK A ms s.toHistory m log)

include append

/-- The batch continues a part of the follower's log. -/
theorem previous_isPrefix (inside : m.logIndex ≤ log.length)
    (termEq : m.logIndex ≠ 0 → (log[m.logIndex - 1]?.map LogEntry.term) = some m.logTerm)
    (consistent : r.logConsistencyCheck m.logIndex m.logTerm = true) :
    log.take m.logIndex <+: r.log.body := by
  by_cases start : m.logIndex = 0
  · rw [start]
    exact nil_prefix
  simp only [Raft.logConsistencyCheck, start, if_false, decide_eq_true_eq] at consistent
  obtain ⟨k, indexEq⟩ : ∃ k, m.logIndex = k + 1 := ⟨m.logIndex - 1, by omega⟩
  have below : k < log.length := by omega
  have split : log.take m.logIndex = log.take k ++ [log[k]] := by
    rw [indexEq, take_succ_eq_append_getElem below]
  have inLeader : log.take k ++ [log[k]] <+: log := split ▸ take_prefix _ _
  have leaderTerm : log[k].term = m.logTerm := by
    have := termEq start
    rw [indexEq, Nat.add_sub_cancel, getElem?_eq_getElem below] at this
    exact Option.some.inj this
  have rooted := (inv.logs.leaderLog append.leader).rooted
  have positive : 1 ≤ log[k].term := (inv.logs.fits rooted inLeader).2
  obtain ⟨before, entry, inBody, position, ownTerm⟩ := ok.wellFormed.exists_of_termOf_pos
    (i := m.logIndex) (by omega)
  have same := (ok.rooted inv).eq_of_term_eq rooted inBody inLeader
    (by rw [length_take]; omega) (by rw [ownTerm, consistent, leaderTerm])
  rw [split, ← same]
  exact inBody

/-- `Append` with a batch of the leader: the log stays, or becomes a part of the
leader's log. -/
theorem appendBatch (follower : r.state = .follower) (current : m.term = r.term)
    (attached : r.lead ≠ "") (fresh : r.log.committed ≤ m.logIndex)
    (consistent : r.logConsistencyCheck m.logIndex m.logTerm = true) {l : RaftLog}
    (eq : (if m.entries.length > 0 then r.log.append m.entries else .ok r.log) = .ok l) :
    l = r.log ∧ (A.matching → log.take m.logIndex ++ m.entries <+: r.log.body) ∨
      ∃ s', Step ms.rules id s s' ∧ s'.toHistory = s.toHistory ∧
        NodeOK A ms s' id { r with log := l } ∧
        l.body = log.take m.logIndex ++ m.entries ∧ l.body <+: log := by
  rcases append.previous with ⟨inside, termEq⟩ | ⟨empty, unmatched⟩
  · have start := ok.previous_isPrefix inv append inside termEq consistent
    have length : (log.take m.logIndex).length = m.logIndex := by simp [inside]
    have inLeader := append.isPrefix
    by_cases holds : log.take m.logIndex ++ m.entries <+: r.log.body
    · left
      refine ⟨?_, fun _ => holds⟩
      rw [ok.wellFormed.append_of_isPrefix holds, ite_self] at eq
      cases eq
      rfl
    · right
      have rooted := (inv.logs.leaderLog append.leader).rooted
      have fits : ∀ before entry, before ++ [entry] <+: log.take m.logIndex ++ m.entries →
          Fits before entry :=
        fun before entry inNew => inv.logs.fits rooted (inNew.trans inLeader)
      have agree : r.log.Matches (log.take m.logIndex ++ m.entries) :=
        fun before before' entry entry' inBody inNew position sameTerm =>
          (ok.rooted inv).eq_of_term_eq rooted inBody (inNew.trans inLeader) position sameTerm
      have nonempty : m.entries.length > 0 := by
        rw [gt_iff_lt, length_pos_iff]
        rintro empty
        rw [empty, append_nil] at holds
        exact holds start
      rw [if_pos nonempty, ok.wellFormed.append_of_not_isPrefix start fits agree holds] at eq
      cases eq
      have splices : Replication.Splices (s.replica id).log log
          (log.take m.logIndex ++ m.entries) := by
        refine ⟨inLeader, fun l inOwn inLog => ?_⟩
        rw [ok.replica_eq] at inOwn
        rcases prefix_or_prefix_of_prefix inLog inLeader with done | longer
        · exact done
        · exact absurd (longer.trans inOwn) holds
      have step : Step ms.rules id s (s.accept id (log.take m.logIndex ++ m.entries)) :=
        .accept (by rw [ok.replica_eq]; simpa [replica] using follower)
          (by rw [ok.replica_eq]; exact attached)
          (by rw [ok.replica_eq]; exact current ▸ append.leader) splices
      have reaches : r.log.committed ≤ (log.take m.logIndex ++ m.entries).length := by
        rw [length_append]
        omega
      have idle : r.state ≠ .leader := by simp [follower]
      refine ⟨_, step, rfl, { ok with
        replica_eq := ?_
        wellFormed := ok.wellFormed.withBody fits reaches
        committed := fun matching => ?_
        progress_ok := fun leads => absurd leads idle
        started := fun leads => absurd leads idle }, rfl, inLeader⟩
      · simp [State.accept, ok.replica_eq, replica, RaftLog.body]
      · -- the batch starts behind the commit index
        refine (ok.committed matching).of_isPrefix ?_ le_rfl
        change (log.take m.logIndex ++ m.entries).take r.log.committed <+: _
        rw [take_append_of_le_length (by rw [length]; exact fresh)]
        obtain ⟨rest, split⟩ := start
        rw [← split, take_append_of_le_length (by rw [length]; exact fresh)]
  · left
    rw [empty] at eq
    refine ⟨?_, fun matching => absurd matching unmatched⟩
    cases eq
    rfl

/-- A follower that holds a whole batch of its leader holds nothing else behind
it: the batch reaches an entry of the current term. -/
theorem isPrefix_of_holds (current : m.term = r.term) (matching : A.matching)
    (holds : log.take m.logIndex ++ m.entries <+: r.log.body) :
    r.log.body <+: log ∧ Behind s.toHistory m.fromID m.term r.log.body.length := by
  rcases append.previous with ⟨inside, _⟩ | ⟨_, unmatched⟩
  · have inLeader := append.isPrefix
    have length : (log.take m.logIndex ++ m.entries).length =
        m.logIndex + m.entries.length := by simp [inside]
    obtain ⟨base, stood, reaches⟩ := (append.own matching).2
    rw [← length] at reaches
    refine ⟨?_, base, stood, reaches.trans_le holds.length_le⟩
    rcases eq_nil_or_concat' (log.take m.logIndex ++ m.entries) with
      empty | ⟨before, entry, split⟩
    · simp [empty] at reaches
    · rw [split] at reaches holds inLeader
      rw [length_append] at reaches
      have ofTerm : entry.term = m.term :=
        (inv.logs.leaderLog append.leader).term_eq stood inLeader (Nat.le_of_lt_succ reaches)
      have prefixed := inv.logs.isPrefix_of_current (p := id) (M := log) (l := before)
        (e := entry) (c := m.fromID)
      rw [ok.replica_eq] at prefixed
      have leader : s.leader r.term = some (m.fromID, log) := current ▸ append.leader
      exact prefixed leader holds (ofTerm.trans current)
  · exact absurd matching unmatched

end

theorem handleAppendEntries (reports : MsgOK A ms s.toHistory m) (isAppend : m.type = .append)
    (received : m.toID = id) (follower : r.state = .follower) (current : m.term = r.term)
    (attached : r.lead ≠ "") (eq : r.handleAppendEntries m = .ok r') : Simulated A ms s id r' := by
  have other : m.fromID ≠ id := received ▸ reports.distinct (by simp [isAppend])
  have fact := reports.fact
  simp only [MsgFact, isAppend] at fact
  obtain ⟨log, append⟩ := fact
  have leader : s.leader r.term = some (m.fromID, log) := current ▸ append.leader
  have positive := ok.lead_term attached
  unfold Raft.handleAppendEntries at eq
  split at eq
  · -- an old batch: the answer names the commit index
    rename_i old
    cases eq
    refine ok.sendAppendRsp inv leader positive other rfl rfl rfl rfl
      (by rintro ⟨⟩) fun matching _ => ?_
    have inLeader := inv.chosen_isPrefix_leader (ok.committed matching) le_rfl leader
    have length : (r.log.body.take r.log.committed).length = r.log.committed := by
      simp [ok.wellFormed.committed_le]
    have same := prefix_iff_eq_take.mp inLeader
    rw [length] at same
    refine ⟨?_, length.ge.trans inLeader.length_le, same ▸ take_prefix _ _⟩
    rw [← current]
    exact (append.own matching).1.mono (.refl _) old
  · rename_i notOld
    split at eq
    · cases eq
      refine ok.sendAppendRsp inv leader positive other rfl rfl rfl rfl (fun _ => rfl)
        fun _ accepted => ?_
      cases accepted
    · rename_i checked
      have consistent : r.logConsistencyCheck m.logIndex m.logTerm = true := by
        simpa using checked
      have fresh : r.log.committed ≤ m.logIndex := not_lt.mp notOld
      obtain ⟨l₁, appended, rest⟩ := bind_eq_ok.mp eq
      obtain ⟨l₂, commits, sent⟩ := bind_eq_ok.mp rest
      cases sent
      -- the log after the batch, which is the leader's as far as that is assumed
      obtain ⟨s₁, run, history, ok₁, inLeader⟩ : ∃ s₁, Steps ms.rules id s s₁ ∧
          s₁.toHistory = s.toHistory ∧ NodeOK A ms s₁ id { r with log := l₁ } ∧
          (A.matching → l₁.body <+: log ∧
            Behind s.toHistory m.fromID m.term l₁.body.length) := by
        rcases ok.appendBatch inv append follower current attached fresh consistent appended
          with ⟨rfl, holds⟩ | ⟨s₁, step, history, ok₁, bodyEq, inLeader⟩
        · exact ⟨s, .refl, rfl, ok, fun matching =>
            ok.isPrefix_of_holds inv append current matching (holds matching)⟩
        · refine ⟨s₁, .single step, history, ok₁, fun matching => ⟨inLeader, ?_⟩⟩
          have inside := (append.previous.resolve_right fun empty => empty.2 matching).1
          refine (append.own matching).2.mono (.refl _) ?_
          simp [bodyEq, inside]
      have inv₁ := (inv.steps run).1
      have append₁ : AppendOK A ms s₁.toHistory m log := history ▸ append
      obtain ⟨ok₂, bodyEq, lastEq⟩ := ok₁.commitBatch append₁ current
        (fun matching => (inLeader matching).1) commits
      have agrees : A.matching → Behind s₁.toHistory m.fromID r.term l₂.lastIndex ∧
          l₂.lastIndex ≤ log.length ∧ log.take l₂.lastIndex <+: l₂.body := by
        intro matching
        obtain ⟨prefixed, behind⟩ := inLeader matching
        rw [lastEq, ok₁.wellFormed.lastIndex_eq, bodyEq, history, ← current]
        exact ⟨behind, prefixed.length_le,
          (prefix_iff_eq_take.mp prefixed) ▸ prefix_rfl⟩
      have leader₁ : s₁.leader r.term = some (m.fromID, log) := history ▸ leader
      exact (ok₂.sendAppendRsp inv₁
        (m := { type := .appendRsp, toID := m.fromID, term := r.term, index := l₂.lastIndex })
        leader₁ positive other rfl rfl rfl rfl (by rintro ⟨⟩)
        fun matching _ => agrees matching).after run (congrArg _ history)

/-! ## Responses and proposals -/

variable (leads : r.state = .leader)

include leads

theorem sendIf (other : peer ≠ id) {behind : Prop} [Decidable behind]
    (eq : (if behind then r.sendAppendEntries peer else .ok r) = .ok r') : NodeOK A ms s id r' := by
  split at eq
  · exact ok.sendAppendEntries inv leads other eq
  · cases eq
    exact ok

theorem handleAppendResponse (reports : MsgOK A ms s.toHistory m) (isRsp : m.type = .appendRsp)
    (received : m.toID = id) (current : m.term = r.term)
    (eq : r.handleAppendResponse m = .ok r') : NodeOK A ms s id r' := by
  have other : m.fromID ≠ id := received ▸ reports.distinct (by simp [isRsp])
  have fact := reports.fact
  simp only [MsgFact, isRsp] at fact
  obtain ⟨_, rejects, accepts⟩ := fact
  have leader := ok.leader_log inv leads
  unfold Raft.handleAppendResponse at eq
  split at eq
  · cases eq
    exact ok
  · rename_i prog known
    have progress := (ok.progress_ok leads m.fromID prog known).active
    dsimp only at eq
    split at eq
    · rename_i rejected
      rw [rejects rejected] at eq
      have ok₁ := ok.withProgress known
        fun _ => progress.maybeDecrTo inv leader m.conflictIndex
      exact ok₁.sendIf inv leads other eq
    · rename_i notRejected
      have accepted : m.reject = false := by simpa using notRejected
      have acked : A.matching → ∀ x ≤ m.index, s.acked m.fromID r.term x :=
        fun matching => current ▸ (accepts matching accepted).2
      have behind : A.matching → Behind s.toHistory id r.term m.index :=
        fun matching => current ▸ received ▸ (accepts matching accepted).1
      have bound : A.matching → m.index ≤ r.log.body.length :=
        fun matching => inv.acks.le_length (acked matching _ le_rfl) leader
      have progress' := progress.maybeUpdate bound acked fun matching _ => behind matching
      split at eq
      · rename_i updated
        split at eq
        · have replicating := progress'.becomeReplicate inv leader fun matching _ => by
            rw [Progress.maybeUpdate_matchIndex updated]
            exact behind matching
          have ok₁ := (ok.withProgress known fun _ => replicating).maybeCommit inv leads
          exact ok₁.sendIf inv leads other eq
        · have ok₁ := (ok.withProgress known fun _ => progress').maybeCommit inv leads
          exact ok₁.sendIf inv leads other eq
      · cases eq
        exact ok.withProgress known fun _ => progress'

/-- Appending the entries of a proposal one by one. -/
theorem appendProposal (ofTerm : ∀ entry ∈ entries, entry.term = r.term) {log : RaftLog}
    (eq : entries.foldlM RaftLog.appendOne r.log = .ok log) :
    ∃ s', Steps ms.rules id s s' ∧ (∀ t, t ≠ r.term → s'.leader t = s.leader t) ∧
      NodeOK A ms s' id { r with log := log } := by
  refine foldlM_induction
    (P := fun log => ∃ s', Steps ms.rules id s s' ∧
      (∀ t, t ≠ r.term → s'.leader t = s.leader t) ∧ NodeOK A ms s' id { r with log := log })
    ⟨s, .refl, fun _ _ => rfl, ok⟩ (fun log entry log' holds mem round => ?_) eq
  obtain ⟨s₁, run, others, ok₁⟩ := holds
  have inv₁ := (inv.steps run).1
  have positive := ok.role_term (by simp [leads])
  unfold RaftLog.appendOne at round
  dsimp only at round
  split at round
  · nomatch round
  · rename_i inOrder
    have fits : Fits log.body entry := by
      rw [ok₁.wellFormed.lastIndex_eq, not_not] at inOrder
      exact ⟨inOrder, by rw [ofTerm entry mem]; exact positive⟩
    obtain ⟨step, ok₂⟩ := ok₁.extend inv₁ leads fits (ofTerm entry mem)
    refine ⟨_, run.tail step, fun t other => ?_, ?_⟩
    · rw [State.extend_leader, ok₁.replica_eq, if_neg (by simpa [replica] using other)]
      exact others t other
    cases round
    rw [ok₁.wellFormed.entries_eq]
    exact ok₂

/-- A leader sends what it has to all its peers and commits. -/
theorem broadcastAndCommit {heartbeat : Bool}
    (broadcast : r.broadcastAppendEntries heartbeat = .ok r') :
    NodeOK A ms s id r'.maybeCommit := by
  have ok' := ok.broadcastAppendEntries inv leads broadcast
  obtain ⟨msgs, rfl⟩ := broadcastAppendEntries_eq broadcast
  exact ok'.maybeCommit inv leads

theorem handleProposal (eq : r.handleProposal m = .ok r') : Simulated A ms s id r' := by
  obtain ⟨log, appended, rest⟩ := bind_eq_ok.mp eq
  obtain ⟨r₂, broadcast, commits⟩ := bind_eq_ok.mp rest
  cases commits
  have ofTerm : ∀ entry ∈ (m.entries.mapIdx fun i entry =>
      { entry with index := r.log.lastIndex + 1 + i, term := r.term }),
      entry.term = r.term := by
    intro entry mem
    obtain ⟨i, _, rfl⟩ := mem_mapIdx.mp mem
    rfl
  obtain ⟨s₁, run, others, ok₁⟩ := ok.appendProposal inv leads ofTerm appended
  have inv₁ := (inv.steps run).1
  obtain ⟨ack, ok₂, acked⟩ := ok₁.ackSelf inv₁ leads
  have inv₂ := inv₁.step ack
  refine ⟨_, run.tail ack, fun t => ?_, ?_⟩
  · rw [ok₂.replica_eq]
    by_cases now : t = r.term
    · exact .inr ⟨now, by simpa [replica] using leads⟩
    · exact .inl (others t now)
  split at broadcast
  · rename_i prog known
    have ok₃ := ok₂.withProgress known fun _ =>
      (ok₂.progress_ok leads _ prog known).maybeUpdate (n := log.lastIndex)
        (fun _ => (ok₁.wellFormed.lastIndex_eq).le)
        (fun _ x bound => by
          rw [ok₁.wellFormed.lastIndex_eq] at bound
          rw [ok.id_eq]
          exact acked x bound)
        fun _ other => absurd ok.id_eq other
    exact ok₃.broadcastAndCommit inv₂ leads broadcast
  · exact ok₂.broadcastAndCommit inv₂ leads broadcast

end NodeOK

end Hermes.Raft
