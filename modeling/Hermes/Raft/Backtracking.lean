import Hermes.Raft.Emission

/-!
# Probing a follower's log

A leader that does not know how far a follower agrees with it probes from `NextIndex` and is
meant to go back when the probe is rejected.  The rejection carries no index, and
`MaybeDecrTo` takes an index other than that of the probe for a stale answer, so the leader
never goes back.
-/

namespace Hermes.Raft

open List

/-- One round: the leader sends a batch, the follower answers, the leader takes the answer. -/
structure Round (leader follower leader' follower' : Raft) (answer : Message) : Prop where
  exchanged : ∃ sent probe, leader.sendAppendEntries follower.id = .ok sent ∧
    sent.msgs = leader.msgs ++ [probe] ∧
    follower.handleAppendEntries probe = .ok follower' ∧
    follower'.msgs = follower.msgs ++ [answer] ∧
    sent.handleAppendResponse answer = .ok leader'

/-- Any number of rounds. -/
def Rounds : Raft × Raft → Raft × Raft → Prop :=
  Relation.ReflTransGen fun pair pair' => ∃ answer, Round pair.1 pair.2 pair'.1 pair'.2 answer

variable {leader follower leader' follower' : Raft} {answer : Message} {next : ℕ}

/-- The follower does not hold the entry that a batch starts from. -/
def Rejects (r : Raft) (logIndex logTerm : ℕ) : Prop :=
  r.log.committed ≤ logIndex ∧ r.logConsistencyCheck logIndex logTerm = false

/-- The answer of a follower that rejects a batch. -/
def rejection (r : Raft) (m : Message) : Message where
  type := .appendRsp
  toID := m.fromID
  fromID := r.id
  term := r.term
  reject := true
  conflictIndex := (r.findConflict m.logIndex).1
  conflictTerm := (r.findConflict m.logIndex).2

variable {r : Raft}

theorem handleAppendEntries_of_rejects {m : Message} (rejects : r.Rejects m.logIndex m.logTerm) :
    r.handleAppendEntries m = .ok { r with msgs := r.msgs ++ [r.rejection m] } := by
  unfold handleAppendEntries
  have fresh : ¬ m.logIndex < r.log.stats.commitIndex := not_lt.mpr rejects.1
  rw [if_neg fresh, rejects.2]
  simp only [send_eq]
  rw [stamp_eq rfl rfl]
  rfl

theorem rejects_of_handleAppendEntries {r' : Raft} {m answer : Message}
    (eq : r.handleAppendEntries m = .ok r') (msgs : r'.msgs = r.msgs ++ [answer])
    (rejected : answer.reject = true) : r.Rejects m.logIndex m.logTerm := by
  have accepts : ∀ {r₁ : Raft} {x : Message}, r₁.msgs = r.msgs → x.reject = false →
      (r₁.send x).msgs ≠ r.msgs ++ [answer] := by
    intro r₁ x queue accepted same
    rw [send_eq, queue] at same
    obtain ⟨fromID, term, stamped⟩ := exists_stamp_eq r₁ x
    have last := cons.inj (append_cancel_left same)
    rw [← last.1, stamped] at rejected
    exact absurd rejected (Bool.eq_false_iff.mp accepted)
  unfold handleAppendEntries at eq
  split at eq
  · cases eq
    exact absurd msgs (accepts rfl rfl)
  · rename_i fresh
    split at eq
    · rename_i conflict
      exact ⟨not_lt.mp fresh, by simpa using conflict⟩
    · obtain ⟨_, _, rest⟩ := bind_eq_ok.mp eq
      obtain ⟨log, _, same⟩ := bind_eq_ok.mp rest
      cases same
      exact absurd msgs (accepts rfl rfl)

/-- The batch that a leader sends to a follower from `next` on. -/
def batch (r : Raft) (peer : NodeID) (next : ℕ) (entries : List LogEntry) : Message where
  type := .append
  toID := peer
  fromID := r.id
  term := r.term
  logIndex := next - 1
  logTerm := r.log.termOf (next - 1)
  entries := entries
  commitIndex := r.log.committed

variable {prog : Progress}

theorem sendAppendEntries_of_probe {peer : NodeID} (known : r.progress.lookup peer = some prog)
    (probing : prog.state = .probe) {entries : List LogEntry}
    (sliced : r.log.slice prog.nextIndex (r.batchEnd prog.nextIndex) = .ok entries) :
    r.sendAppendEntries peer =
      .ok { r with msgs := r.msgs ++ [r.batch peer prog.nextIndex entries] } := by
  unfold sendAppendEntries
  rw [known]
  dsimp only
  rw [if_neg (by rw [probing]; decide), sliced]
  change Except.ok (r.send _) = _
  rw [send_eq, stamp_eq rfl rfl]
  rfl

/-- A rejection does not move a probing record. -/
theorem handleAppendResponse_of_rejection {answer : Message}
    (known : r.progress.lookup answer.fromID = some prog) (probing : prog.state = .probe)
    (next : 1 < prog.nextIndex) (rejected : answer.reject = true) (noIndex : answer.index = 0) :
    r.handleAppendResponse answer = .ok { r with
      progress := r.progress.insert answer.fromID { prog with recentActive := true } } := by
  have stale : { prog with recentActive := true }.maybeDecrTo answer.index answer.conflictIndex =
      ({ prog with recentActive := true }, false) := by
    unfold Progress.maybeDecrTo
    dsimp only
    rw [if_neg (by rw [probing]; decide), if_pos (by omega)]
  unfold handleAppendResponse
  rw [known]
  dsimp only
  rw [if_pos rejected, stale]
  rfl

/-- A leader that probes from `next`, and a follower that does not hold the entry before it. -/
structure Stuck (leader follower : Raft) (next : ℕ) : Prop where
  probing : ∃ prog, leader.progress.lookup follower.id = some prog ∧ prog.state = .probe ∧
    prog.nextIndex = next
  positive : 1 < next
  sliced : Succeeds (leader.log.slice next (leader.batchEnd next))
  rejects : follower.Rejects (next - 1) (leader.log.termOf (next - 1))

/-- What a round does to such a pair. -/
theorem Stuck.step (stuck : Stuck leader follower next) :
    ∃ leader' answer, Round leader follower leader'
        { follower with msgs := follower.msgs ++ [answer] } answer ∧
      answer.reject = true ∧
      Stuck leader' { follower with msgs := follower.msgs ++ [answer] } next := by
  obtain ⟨prog, known, probing, rfl⟩ := stuck.probing
  obtain ⟨entries, sliced⟩ := stuck.sliced
  have sent := sendAppendEntries_of_probe known probing sliced
  have answered := handleAppendEntries_of_rejects
    (m := leader.batch follower.id prog.nextIndex entries) stuck.rejects
  have rejected : (follower.rejection (leader.batch follower.id prog.nextIndex entries)).reject =
      true := rfl
  have taken := handleAppendResponse_of_rejection
    (r := { leader with msgs := leader.msgs ++ [leader.batch follower.id prog.nextIndex entries] })
    known probing stuck.positive rejected rfl
  refine ⟨_, _, ⟨_, _, sent, rfl, answered, rfl, taken⟩, rfl, ?_⟩
  refine ⟨⟨_, AList.lookup_insert _, probing, rfl⟩, stuck.positive, ?_, stuck.rejects⟩
  exact stuck.sliced

/-- Rounds are determined by the states before them. -/
theorem Round.unique {leader₁ follower₁ leader₂ follower₂ : Raft} {answer₁ answer₂ : Message}
    (first : Round leader follower leader₁ follower₁ answer₁)
    (second : Round leader follower leader₂ follower₂ answer₂) :
    leader₁ = leader₂ ∧ follower₁ = follower₂ ∧ answer₁ = answer₂ := by
  obtain ⟨sent, probe, eq, queue, handled, replied, taken⟩ := first.exchanged
  obtain ⟨sent', probe', eq', queue', handled', replied', taken'⟩ := second.exchanged
  cases eq.symm.trans eq'
  cases append_cancel_left (queue.symm.trans queue')
  cases handled.symm.trans handled'
  cases append_cancel_left (replied.symm.trans replied')
  cases taken.symm.trans taken'
  exact ⟨rfl, rfl, rfl⟩

theorem Stuck.rounds (stuck : Stuck leader follower next)
    (rounds : Rounds (leader, follower) (leader', follower')) : Stuck leader' follower' next := by
  have kept : ∀ pair pair' : Raft × Raft, Rounds pair pair' → Stuck pair.1 pair.2 next →
      Stuck pair'.1 pair'.2 next := by
    intro pair pair' rounds stuck
    induction rounds with
    | refl => exact stuck
    | tail _ last ih =>
      obtain ⟨answer, round⟩ := last
      obtain ⟨leader₁, answer₁, round₁, -, stuck₁⟩ := ih.step
      obtain ⟨same, same', -⟩ := round₁.unique round
      rw [← same, ← same']
      exact stuck₁
  exact kept _ _ rounds stuck

theorem Round.stuck (round : Round leader follower leader' follower' answer)
    (known : leader.progress.lookup follower.id = some prog) (probing : prog.state = .probe)
    (positive : 1 < prog.nextIndex) (rejected : answer.reject = true) :
    Stuck leader follower prog.nextIndex := by
  obtain ⟨sent, probe, eq, queue, handled, replied, -⟩ := round.exchanged
  have sliced : Succeeds (leader.log.slice prog.nextIndex (leader.batchEnd prog.nextIndex)) := by
    unfold sendAppendEntries at eq
    rw [known] at eq
    dsimp only at eq
    rw [if_neg (by rw [probing]; decide)] at eq
    obtain ⟨entries, sliced, -⟩ := bind_eq_ok.mp eq
    exact ⟨entries, sliced⟩
  obtain ⟨entries, ok⟩ := sliced
  cases (sendAppendEntries_of_probe known probing ok).symm.trans eq
  cases append_cancel_left queue
  exact ⟨⟨prog, known, probing, rfl⟩, positive, ⟨entries, ok⟩,
    rejects_of_handleAppendEntries handled replied rejected⟩

/-- When a probe is rejected, the leader's `NextIndex` does not decrease; and however often it
is sent again, it is rejected again. -/
theorem not_backtracks {prog : Progress} (known : leader.progress.lookup follower.id = some prog)
    (probing : prog.state = .probe) (positive : 1 < prog.nextIndex)
    (round : Round leader follower leader' follower' answer) (rejected : answer.reject = true) :
    ¬ (∃ prog', leader'.progress.lookup follower.id = some prog' ∧
        prog'.nextIndex < prog.nextIndex ∧ 1 ≤ prog'.nextIndex) ∧
      ∀ leader₁ follower₁, Rounds (leader, follower) (leader₁, follower₁) →
        ∃ leader₂ follower₂ answer₂, Round leader₁ follower₁ leader₂ follower₂ answer₂ ∧
          answer₂.reject = true := by
  have stuck := round.stuck known probing positive rejected
  constructor
  · rintro ⟨prog', known', fewer, -⟩
    obtain ⟨leader₁, answer₁, round₁, -, stuck₁⟩ := stuck.step
    obtain ⟨rfl, -, -⟩ := round₁.unique round
    obtain ⟨prog₁, known₁, -, same⟩ := stuck₁.probing
    cases known₁.symm.trans known'
    omega
  · intro leader₁ follower₁ rounds
    obtain ⟨leader₂, answer₂, round₂, rejected₂, -⟩ := (stuck.rounds rounds).step
    exact ⟨leader₂, _, answer₂, round₂, rejected₂⟩

/-- A leader of two members with two entries. -/
def prober : Raft where
  config := defaultConfig "a" ["b"]
  id := "a"
  term := 1
  state := .leader
  lead := "a"
  log := { entries := [{}, { index := 1, term := 1 }, { index := 2, term := 1 }] }
  progress := AList.insert "b" { nextIndex := 2, matchIndex := 0, state := .probe } ∅
  rng := fun _ => 0

/-- A follower without entries. -/
def newcomer : Raft where
  config := defaultConfig "b" ["a"]
  id := "b"
  term := 1
  rng := fun _ => 0

/-- The follower rejects the probe, whatever it is asked again. -/
theorem not_backtracks_newcomer : ∃ leader₁ follower₁, Rounds (prober, newcomer)
    (leader₁, follower₁) ∧ ∃ leader₂ follower₂ answer₂,
      Round leader₁ follower₁ leader₂ follower₂ answer₂ ∧ answer₂.reject = true := by
  refine ⟨prober, newcomer, .refl, ?_⟩
  have known : prober.progress.lookup newcomer.id =
      some { nextIndex := 2, matchIndex := 0, state := .probe } := rfl
  exact (not_backtracks known rfl (by decide) ⟨_, _, rfl, rfl, rfl, rfl, rfl⟩ rfl).2 _ _ .refl

/-- `NextIndex` is two before and after the rejection. -/
theorem nextIndex_unchanged : ∃ leader' follower' answer,
    Round prober newcomer leader' follower' answer ∧ answer.reject = true ∧
      (prober.progress.lookup newcomer.id).map Progress.nextIndex = some 2 ∧
      (leader'.progress.lookup newcomer.id).map Progress.nextIndex = some 2 :=
  ⟨_, _, _, ⟨_, _, rfl, rfl, rfl, rfl, rfl⟩, rfl, rfl, rfl⟩

end Hermes.Raft
