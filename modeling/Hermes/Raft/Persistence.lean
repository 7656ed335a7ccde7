import Hermes.Raft.Loop

/-!
# What a node persists before it sends

`processReady` persists the entries of a `Ready` and then sends its messages, so every entry
that a follower acknowledges is in its write-ahead log.  But `TakeReady` never returns a hard
state, so the term and the vote of a node are not persisted before it answers a candidate; and
it returns all the entries behind the applied index every time, so an entry that is not applied
at once is persisted again.
-/

namespace Hermes.Raft

open List Runs

/-- What has been persisted when a message is handed to the transport covers the message: a
granted vote is in the hard state, and the entries that are acknowledged stand in the
write-ahead log, none of them twice. -/
def Call.Persisted : Call → Prop
  | .send x hardState wal log =>
    (x.type = .voteRsp → x.voteGranted = true →
      x.term ≤ hardState.term ∧ (x.term = hardState.term → hardState.vote = x.toID)) ∧
    (x.type = .appendRsp → x.reject = false →
      (∀ entry ∈ log.entries.tail, entry.index ≤ x.index → entry ∈ wal) ∧
      (wal.map fun entry => (entry.index, entry.term)).Nodup)
  | .restore _ | .apply _ | .noop _ => True

instance : DecidablePred Call.Persisted := by
  rintro ⟨⟩ <;> delta Call.Persisted <;> infer_instance

/-! ## The applied part of a log -/

namespace RaftLog

variable {l l' : RaftLog}

theorem appliedPart_subset_tail (l : RaftLog) : l.appliedPart ⊆ l.entries.tail := by
  rw [appliedPart, ← drop_one, ← drop_one, drop_take]
  exact take_subset _ _

/-- A snapshot leaves no more than what was applied before. -/
theorem appliedPart_compact (index term : ℕ) :
    (l.compact index term).appliedPart ⊆ l.appliedPart := by
  unfold compact
  split
  · exact Subset.refl _
  · by_cases ahead : l.applied < index
    · -- the applied index is the one of the snapshot
      have size : index + 1 - index = 1 := by omega
      dsimp only [appliedPart]
      rw [if_pos ahead, size]
      split
      · exact nil_subset _
      · exact nil_subset _
    · obtain ⟨k, size⟩ : ∃ k, l.applied + 1 - index = k + 1 := ⟨l.applied - index, by omega⟩
      have size' : k = l.applied + 1 - l.snapshotIndex - (index - l.snapshotIndex + 1) := by omega
      dsimp only [appliedPart]
      rw [if_neg ahead, size]
      split
      · rw [take_succ_cons, size', ← drop_take, ← drop_tail]
        exact drop_subset _ _
      · rw [take_succ_cons, take_nil]
        exact nil_subset _

theorem Changes.appliedPart_subset {m : Message} (changes : Changes m l l')
    (admits : l.Admits m) (regular : l.Regular) : l'.appliedPart ⊆ l.appliedPart := by
  induction changes with
  | refl => exact Subset.refl _
  | append type fresh _ eq =>
    have behind : ∀ entry ∈ m.entries, l.committed < entry.index := by
      intro entry mem
      exact fresh.trans_lt ((admits type).1.start_le mem)
    have grown := (append_extends regular.bounded behind eq).1
    rw [grown.appliedPart_eq regular]
    exact Subset.refl _
  | compact => exact appliedPart_compact _ _
  | appendOne before eq ih =>
    have grown := appendOne_extends eq
    rw [grown.appliedPart_eq (before.regular admits regular)]
    exact ih
  | commitTo before eq ih =>
    have regular' := before.regular admits regular
    have grown := (commitTo_extends regular'.bounded eq).1
    rw [grown.appliedPart_eq regular']
    exact ih
  | @maybeCommit l₁ before matchIndexes currentTerm ih =>
    have grown := (maybeCommitFrom_extends l₁ matchIndexes currentTerm).1
    rw [grown.appliedPart_eq (before.regular admits regular)]
    exact ih

end RaftLog

/-! ## Votes -/

variable {r r' : Raft} {m : Message}

/-- The message is no granted vote. -/
def Message.Ungranted (x : Message) : Prop :=
  x.type = .voteRsp → x.voteGranted = false

/-- The node answers the request for its vote with a grant. -/
def WouldGrant (r : Raft) (m : Message) : Prop :=
  (m.type = .vote ∨ m.type = .preVote) ∧ (m.term = 0 ∨ r.term ≤ m.term) ∧
    r.canVote m = true ∧ r.log.isUpToDate m.lastLogIndex m.lastLogTerm = true
  deriving Decidable

variable {err : Option String}

theorem step_voteRequest (asks : m.type = .vote ∨ m.type = .preVote)
    (eq : r.step m = .ok (r', err)) :
    r' = r ∨ (m.term = 0 ∨ r.term ≤ m.term) ∧ r' = r.handleVoteRequest m := by
  have handled : r.stepRole m = .ok (r', err) → r' = r ∨ r' = r.handleVoteRequest m := by
    intro ran
    rcases asks with type | type
    · rw [stepRole_vote type] at ran
      cases ran
      exact .inr rfl
    · unfold stepRole stepFollower stepCandidate stepLeader at ran
      rw [type] at ran
      split at ran
      · cases ran
        exact .inr rfl
      · cases ran
        exact .inl rfl
      · cases ran
        exact .inr rfl
  unfold step at eq
  split at eq
  · rename_i zero
    exact (handled eq).imp_right fun same => ⟨.inl zero, same⟩
  · split at eq
    · rename_i higher
      exact (handled eq).imp_right fun same => ⟨.inr higher.le, same⟩
    · split at eq
      · cases eq
        exact .inl rfl
      · rename_i notLower
        exact (handled eq).imp_right fun same => ⟨.inr (not_lt.mp notLower), same⟩

variable {x : Message}

theorem handleVoteRequest_ungranted
    (rejects : ¬ (r.canVote m = true ∧ r.log.isUpToDate m.lastLogIndex m.lastLogTerm = true))
    (mem : x ∈ (r.handleVoteRequest m).msgs) : x ∈ r.msgs ∨ x.Ungranted := by
  unfold handleVoteRequest at mem
  simp only [Bool.and_eq_true, if_neg rejects, send_eq] at mem
  rcases mem_append.mp mem with old | new
  · exact .inl old
  · right
    rw [mem_singleton.mp new]
    obtain ⟨fromID, term, eq⟩ := exists_stamp_eq r
      { type := .voteRsp, toID := m.fromID, term := r.term, preVote := m.preVote }
    rw [eq]
    exact fun _ => rfl

/-- Messages that a node sends of its own accord are no votes. -/
theorem Emits.ungranted (emits : Emits r r') (mem : x ∈ r'.msgs) : x ∈ r.msgs ∨ x.Ungranted := by
  obtain ⟨new, eq, outgoing⟩ := emits.msgs
  rw [eq] at mem
  refine (mem_append.mp mem).imp_right fun fresh type => ?_
  have other := (outgoing x fresh).not_isResponse
  rw [type] at other
  nomatch other

/-- A step queues a granted vote only if the node grants it. -/
theorem step_ungranted (refuses : ¬ r.WouldGrant m) (eq : r.step m = .ok (r', err))
    (mem : x ∈ r'.msgs) : x ∈ r.msgs ∨ x.Ungranted := by
  by_cases asks : m.type = .vote ∨ m.type = .preVote
  · rcases step_voteRequest asks eq with rfl | ⟨current, rfl⟩
    · exact .inl mem
    · exact handleVoteRequest_ungranted (fun grants => refuses ⟨asks, current, grants⟩) mem
  · have sends := step_sends eq
    unfold Sends at sends
    split at sends
    · rename_i request
      have append : m.type = .append := by
        cases type : m.type <;> rw [type] at request asks
        case vote => exact absurd (.inl rfl) asks
        case preVote => exact absurd (.inr rfl) asks
        all_goals nomatch request
      cases sends with
      | silent quiet => exact .inl (quiet.msgs ▸ mem)
      | @answered y _ msgs answer =>
        rw [msgs] at mem
        refine (mem_append.mp mem).imp_right fun new _ => ?_
        rw [mem_singleton.mp new]
        exact answer.votes append
    · exact sends.ungranted mem

/-! ## Runs -/

namespace Loop

variable {σ : Type} {sm : StateMachine σ} {s s' : Loop σ} {event : LoopEvent}

/-- The batches keep the layout of the log, no vote is granted, and what is persisted has been
applied when more is to be persisted. -/
def Careful (s : Loop σ) : LoopEvent → Prop
  | .step m => s.node.raft.log.Admits m ∧ ¬ s.node.raft.WouldGrant m
  | .ready => s.node.raft.log.applied < s.node.raft.log.lastIndex →
    ∀ entry ∈ s.node.wal, entry.index ≤ s.node.raft.log.applied
  | .tick | .propose _ => True

instance (s : Loop σ) : DecidablePred s.Careful := by
  rintro ⟨⟩ <;> delta Careful <;> infer_instance

theorem Careful.admitted (careful : s.Careful event) : s.Admitted event := by
  cases event with
  | step m => exact careful.1
  | ready | tick | propose => trivial

/-- Everything that is applied has been persisted, once, and no granted vote is queued. -/
structure Saved (s : Loop σ) : Prop where
  regular : s.node.raft.log.Regular
  queue : ∀ x ∈ s.node.raft.msgs, x.Ungranted
  applied : s.node.raft.log.appliedPart ⊆ s.node.wal
  distinct : (s.node.wal.map fun entry => (entry.index, entry.term)).Nodup
  sent : ∀ call ∈ s.calls, call.Persisted

variable {n : RaftNode σ}

theorem Saved.new {config : Config} {storage : σ} {rng : Rng}
    (created : RaftNode.new config storage rng = .ok n) : Saved { node := n } := by
  obtain ⟨empty, queue, wal⟩ := log_new created
  refine ⟨?_, ?_, ?_, wal ▸ nodup_nil, fun _ mem => nomatch mem⟩
  · rw [empty]
    exact RaftLog.regular_new
  · rw [queue]
    exact fun _ mem => nomatch mem
  · rw [empty]
    exact nil_subset _

variable {phase : Phase}

theorem Saved.acts (ok : s.Saved) {raft : Raft} (regular : raft.log.Regular)
    (queue : ∀ x ∈ raft.msgs, x ∈ s.node.raft.msgs ∨ x.Ungranted)
    (applied : raft.log.appliedPart ⊆ s.node.raft.log.appliedPart) :
    Saved { s with node := { s.node with raft := raft }, phase := phase } where
  __ := ok
  regular := regular
  queue x mem := (queue x mem).elim (ok.queue x) fun ungranted => ungranted
  applied := Subset.trans applied ok.applied

/-- Persisting what is pending adds nothing that is there already. -/
theorem Saved.nodup_append (ok : s.Saved) (careful : s.Careful .ready) :
    ((s.node.wal ++ s.node.raft.log.pending s.node.raft.log.lastIndex).map
      fun entry => (entry.index, entry.term)).Nodup := by
  have indices := ok.regular.map_index_pending le_rfl
  have fresh : ∀ entry ∈ s.node.raft.log.pending s.node.raft.log.lastIndex,
      s.node.raft.log.applied < entry.index ∧ entry.index ≤ s.node.raft.log.lastIndex := by
    intro entry mem
    have index := mem_map_of_mem (f := LogEntry.index) mem
    rw [indices, mem_range'_1] at index
    omega
  rw [map_append]
  refine ok.distinct.append ?_ ?_
  · apply Nodup.of_map Prod.fst
    rw [map_map]
    have nodup := nodup_range' (s := s.node.raft.log.applied + 1)
      (n := s.node.raft.log.lastIndex - s.node.raft.log.applied)
    rw [← indices] at nodup
    exact nodup
  · intro key old new
    obtain ⟨entry, mem, rfl⟩ := mem_map.mp old
    obtain ⟨entry', mem', same⟩ := mem_map.mp new
    have above := fresh entry' mem'
    have below := careful (by omega) entry mem
    have index := congrArg Prod.fst same
    omega

theorem Saved.ready (ok : s.Saved) (careful : s.Careful .ready) {rd : Ready}
    (taken : s.node.ready sm = .ok (rd, n)) :
    Saved { node := n, phase := phase, calls := s.calls ++ s.node.calls rd } := by
  have processed := RaftNode.Processed.of_ready ok.regular taken
  have whole := ok.regular.appliedPart_append_pending
    (ok.regular.applied_le.trans ok.regular.committed_le)
  rw [RaftLog.take_lastIndex] at whole
  have held : s.node.raft.log.entries.tail ⊆
      s.node.wal ++ s.node.raft.log.pending s.node.raft.log.lastIndex := by
    rw [← whole]
    exact append_subset.mpr ⟨subset_append_of_subset_left _ ok.applied,
      subset_append_right _ _⟩
  have distinct := ok.nodup_append careful
  refine ⟨?_, ?_, ?_, ?_, ?_⟩
  · rw [processed.raft]
    exact ok.regular.withApplied
  · rw [processed.raft]
    exact fun _ mem => nomatch mem
  · rw [processed.raft, processed.wal]
    exact Subset.trans (RaftLog.appliedPart_subset_tail _) held
  · rw [processed.wal]
    exact distinct
  · intro call mem
    rcases mem_append.mp mem with old | new
    · exact ok.sent call old
    · rw [processed.ready] at new
      simp only [RaftNode.calls, Option.map_none, Option.toList_none, nil_append,
        mem_append, mem_map] at new
      rcases new with ⟨x, queued, rfl⟩ | ⟨entry, _, rfl⟩
      · constructor
        · intro type granted
          rw [ok.queue x queued type] at granted
          nomatch granted
        · exact fun _ _ => ⟨fun entry mem _ => held mem, distinct⟩
      · unfold LogEntry.call
        split
        · trivial
        · trivial

theorem Saved.step (ok : s.Saved) (careful : s.Careful event)
    (eq : s.step sm event = some s') : s'.Saved := by
  have moves := moves_of_step eq
  have regular' := moves.regular careful.admitted ok.regular
  cases moves with
  | ready taken => exact ok.ready careful taken
  | tick ran =>
    have changes := tick_changes (m := { type := .tick }) ran
    exact ok.acts regular' (fun x mem => (tick_emits ran).ungranted mem)
      (changes.appliedPart_subset nofun ok.regular)
  | step ran =>
    exact ok.acts regular' (fun x mem => step_ungranted careful.2 ran mem)
      ((step_changes ran).appliedPart_subset careful.1 ok.regular)
  | propose ran =>
    have refuses : ∀ entries, ¬ s.node.raft.WouldGrant (s.node.proposal entries) := by
      rintro entries ⟨asks | asks, -⟩
      · nomatch asks
      · nomatch asks
    exact ok.acts regular' (fun x mem => step_ungranted (refuses _) ran mem)
      ((step_changes ran).appliedPart_subset nofun ok.regular)

/-- What a node sends has been persisted, in a run in which it grants no vote and every entry
is applied before the next one is persisted. -/
theorem persisted_of_careful {config : Config} {storage : σ} {rng : Rng} {n : RaftNode σ}
    (created : RaftNode.new config storage rng = .ok n)
    (reachable : Runs.Reachable (Loop.step sm) Careful { node := n } s) :
    ∀ call ∈ s.calls, call.Persisted := by
  have ok := reachable.invariant (I := Saved) (.new created) fun _ _ _ ok careful eq =>
    ok.step careful eq
  exact ok.sent

/-- A follower acknowledges two entries that are committed, one after the other. -/
theorem persisted_of_careful_fresh : ∃ s, Runs.Reachable (Loop.step idle) Careful fresh s ∧
    s.node.wal = [{ index := 1, term := 1 }, { index := 2, term := 1 }] ∧
    ∀ call ∈ s.calls, call.Persisted := by
  refine exists_of_exec_and (Loop.step idle) Careful fresh
    [.ready, .step
      { type := .append, fromID := "a", term := 1, commitIndex := 1
        entries := [{ index := 1, term := 1 }] },
      .ready, .step
      { type := .append, fromID := "a", term := 1, logIndex := 1, logTerm := 1, commitIndex := 2
        entries := [{ index := 2, term := 1 }] },
      .ready]
    (by decide +kernel) fun s reachable _ => ?_
  exact persisted_of_careful fresh_new reachable

/-- A candidate asks for a vote. -/
def polled : List LoopEvent :=
  [.ready, .step { type := .vote, fromID := "a", term := 1 }, .ready]

/-- A leader has an entry appended, and commits it later. -/
def delayed : List LoopEvent :=
  [.ready, .step
    { type := .append, fromID := "a", term := 1, entries := [{ index := 1, term := 1 }] },
    .ready, .step
    { type := .append, fromID := "a", term := 1, logIndex := 1, logTerm := 1, commitIndex := 1 },
    .ready]

/-- The vote is sent with an empty hard state, and the entry is persisted twice before it is
acknowledged again. -/
theorem not_persisted :
    (∃ s, Runs.exec (Loop.step idle) anyEvent fresh polled = some s ∧
      s.calls = [.send
        { type := .voteRsp, toID := "a", fromID := "b", term := 1, voteGranted := true }
        {} [] RaftLog.new] ∧ ¬ ∀ call ∈ s.calls, call.Persisted) ∧
    ∃ s, exec (Loop.step idle) anyEvent fresh delayed = some s ∧
      s.node.wal = [{ index := 1, term := 1 }, { index := 1, term := 1 }] ∧
      ¬ ∀ call ∈ s.calls, call.Persisted := by
  constructor <;> decide +kernel

end Loop

end Hermes.Raft
