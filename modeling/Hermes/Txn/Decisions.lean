import Hermes.Txn.TwoPC

/-!
# Decisions of two-phase commit

A transaction is committed only after a unanimous vote if `Commit` is called only then, and
it is never both committed and aborted if no call of `Abort` gets in while a call of
`Commit` has begun.  The code checks neither.
-/

namespace Hermes.Txn

open List Runs

namespace Coordination

variable {s s' : Coordination}

/-! ## One decision -/

/-- `persistDecision` has been called with one decision only, and not both kinds of messages
have been sent. -/
def OneDecision (s : Coordination) : Prop :=
  ¬ (true ∈ s.decisions ∧ false ∈ s.decisions) ∧ ¬ (s.commitsSent ≠ [] ∧ s.abortsSent ≠ [])

/-- The calls on the transaction are calls of `Commit` and `Abort`. -/
def CommitOrAbort (_ : Coordination) (event : TwoPCEvent) : Prop :=
  event ≠ .prepare
  deriving Decidable

/-- Besides, no call of `Abort` gets in while the transaction is being committed. -/
def NoAbortWhileCommitting (s : Coordination) (event : TwoPCEvent) : Prop :=
  event ≠ .prepare ∧ (event = .abort → s.txn.state ≠ .committing)
  deriving Decidable

/-- The state of the transaction shows the decision. -/
structure Decided (s : Coordination) : Prop where
  noPrepare : ¬ s.Active Call.prepares
  commits : s.Commits → s.txn.state = .committing ∨ s.txn.state = .committed
  aborts : s.Aborts → s.txn.state = .aborting ∨ s.txn.state = .aborted

variable {event : TwoPCEvent}

section

variable (decided : s.Decided)

include decided

theorem Decided.noPrepare_step (other : event ≠ .prepare) (change : s.PrepareChange event s') :
    ¬ s'.Active Call.prepares := by
  rintro ⟨call, mem, prepares⟩
  obtain ⟨j, at_j⟩ := mem_iff_getElem?.mp mem
  cases change with
  | quiet calls =>
    rcases calls j call at_j prepares with was | ⟨was, -⟩
    · exact decided.noPrepare (active_of_getElem? was prepares)
    · exact decided.noPrepare (active_of_getElem? was (by rfl))
  | entered called => exact other called
  | collected at_i => exact decided.noPrepare (active_of_getElem? at_i (by rfl))

theorem Decided.not_active {call : Call} (prepares : call.prepares = true) :
    ¬ s.Active fun other => other = call := by
  rintro ⟨other, mem, same⟩
  rw [of_decide_eq_true same] at mem
  exact decided.noPrepare ⟨call, mem, prepares⟩

theorem Decided.not_both (commits : s.Commits) (aborts : s.Aborts) : False := by
  rcases decided.commits commits with state | state <;>
    rcases decided.aborts aborts with other | other <;>
    rw [state] at other <;> nomatch other

theorem Decided.oneDecision : s.OneDecision := by
  constructor
  · rintro ⟨commit, abort⟩
    exact decided.not_both (.inr (.inr (.inl commit))) (.inr (.inl abort))
  · rintro ⟨commit, abort⟩
    exact decided.not_both (.inr (.inr (.inr commit))) (.inr (.inr abort))

theorem Decided.commits_step (ok : s.NoAbortWhileCommitting event) (change : s.Change event s')
    (commits : s'.Commits) : s'.txn.state = .committing ∨ s'.txn.state = .committed := by
  rcases change.commits commits with before | ⟨-, -, state⟩
  · have state := decided.commits before
    have moves := change.moves
    generalize s'.txn.state = next at moves
    cases moves with
    | stays => exact state
    | preparing called => exact absurd called ok.1
    | committing => exact .inl rfl
    | aborting called notCommitted =>
      rcases state with committing | committed
      · exact absurd committing (ok.2 called)
      · exact absurd committed notCommitted
    | prepared recorded => exact absurd recorded (decided.not_active rfl)
    | notPrepared failed => exact absurd failed (decided.not_active rfl)
    | committed => exact .inr rfl
    | aborted aborts => exact (decided.not_both before aborts).elim
  · exact .inl state

theorem Decided.aborts_step (ok : s.NoAbortWhileCommitting event) (change : s.Change event s')
    (aborts : s'.Aborts) : s'.txn.state = .aborting ∨ s'.txn.state = .aborted := by
  rcases change.aborts aborts with before | ⟨-, -, state⟩
  · have state := decided.aborts before
    have moves := change.moves
    generalize s'.txn.state = next at moves
    cases moves with
    | stays => exact state
    | preparing called => exact absurd called ok.1
    | committing called prepared =>
      rcases state with other | other <;> rw [other] at prepared <;> nomatch prepared
    | aborting => exact .inl rfl
    | prepared recorded => exact absurd recorded (decided.not_active rfl)
    | notPrepared failed => exact absurd failed (decided.not_active rfl)
    | committed commits => exact (decided.not_both commits before).elim
    | aborted => exact .inr rfl
  · exact .inl state

/-- The invariant is kept as long as `Abort` does not get in while the transaction is being
committed. -/
theorem Decided.step (ok : s.NoAbortWhileCommitting event) (happens : s.step event = some s') :
    s'.Decided where
  noPrepare := decided.noPrepare_step ok.1 (change_of_step happens).prepareChange
  commits := decided.commits_step ok (change_of_step happens)
  aborts := decided.aborts_step ok (change_of_step happens)

end

/-- Decisions are stable in every run of `Commit` and `Abort`, from any state of the
transaction, where no call of `Abort` gets in while the transaction is being committed. -/
theorem oneDecision_of_noAbortWhileCommitting {txn : TwoPCTransaction}
    (reachable : Runs.Reachable step NoAbortWhileCommitting { txn := txn } s) :
    s.OneDecision := by
  apply Decided.oneDecision
  apply reachable.invariant (I := Decided)
  · refine ⟨?_, ?_, ?_⟩
    · rintro ⟨_, mem, _⟩
      nomatch mem
    · rintro (⟨_, mem, _⟩ | empty | mem | empty)
      · nomatch mem
      · exact absurd rfl empty
      · nomatch mem
      · exact absurd rfl empty
    · rintro (⟨_, mem, _⟩ | mem | empty)
      · nomatch mem
      · nomatch mem
      · exact absurd rfl empty
  · exact fun _ _ _ decided ok happens => decided.step ok happens

/-- Two participants; a call of `Abort` that comes after the decision to commit is refused. -/
theorem oneDecision_committed :
    ∃ s, Runs.Reachable step NoAbortWhileCommitting
        { txn := { state := .prepared, participants := [{}, {}] } } s ∧
      s.OneDecision ∧ s.commitsSent = [0, 1] ∧ s.txn.state = .committed := by
  obtain ⟨s, reachable, holds⟩ := exists_of_exec step NoAbortWhileCommitting
    { txn := { state := .prepared, participants := [{}, {}] } }
    [.commit, .persist 0 true, .sendCommit 0, .sendCommit 0, .finish 0, .abort]
    (P := fun s => s.commitsSent = [0, 1] ∧ s.txn.state = .committed) (by decide +kernel)
  exact ⟨s, reachable, oneDecision_of_noAbortWhileCommitting reachable, holds⟩

/-- While a call of `Commit` is between its first section and its messages, a call of `Abort`
gets in: one participant is told to commit and the other one to abort. -/
theorem not_oneDecision_interleaved :
    ∃ s, Runs.Reachable step CommitOrAbort
        { txn := { state := .prepared, participants := [{}, {}] } } s ∧
      ¬ s.OneDecision ∧ s.decisions = [true, false] ∧ s.commitsSent = [1] ∧
      s.abortsSent = [0] := by
  obtain ⟨s, reachable, decisions, sent⟩ := exists_of_exec step CommitOrAbort
    { txn := { state := .prepared, participants := [{}, {}] } }
    [.commit, .abort, .persist 0 true, .persist 1 true, .sendAbort 1, .sendCommit 1]
    (P := fun s => s.decisions = [true, false] ∧ s.commitsSent = [1] ∧ s.abortsSent = [0])
    (by decide +kernel)
  refine ⟨s, reachable, ?_, decisions, sent⟩
  rintro ⟨one, -⟩
  rw [decisions] at one
  exact one (by decide)

/-! ## Unanimous votes -/

/-- Every participant has voted to commit. -/
def Unanimous (s : Coordination) : Prop :=
  ∃ votes, s.ballots = some votes ∧ votes.length = s.txn.participants.length ∧
    ∀ vote ∈ votes, vote = .commit

/-- COMMIT is sent, and the transaction committed, only after a unanimous vote. -/
def ValidCommit (s : Coordination) : Prop :=
  s.commitsSent ≠ [] ∨ s.txn.state = .committed → s.Unanimous

/-- `Commit` is not called on a prepared transaction with a vote to abort. -/
def NoCommitAgainstVote (s : Coordination) (event : TwoPCEvent) : Prop :=
  event = .commit → s.txn.state = .prepared → ∀ p ∈ s.txn.participants, p.vote = .commit
  deriving Decidable

/-- What the votes have to do with the state and the calls.  There is one call of `Prepare`
at most; the votes come from it, they are there when the transaction is prepared, and they
are unanimous when it is being committed. -/
structure Voted (s : Coordination) : Prop where
  single : ∀ (i j : ℕ) (call other : Call), s.calls[i]? = some call → s.calls[j]? = some other →
    call.prepares = true → other.prepares = true → i = j
  begun : s.Active Call.prepares ∨ s.ballots ≠ none → s.txn.state ≠ .init
  early : ∀ i : ℕ, s.calls[i]? = some .persistingPrepare ∨ s.calls[i]? = some .collecting →
    s.ballots = none
  recorded : s.txn.state = .prepared ∨ (s.Active fun call => call = .recorded) →
    s.ballots = some (s.txn.participants.map Participant.vote)
  unanimous : s.Commits ∨ s.txn.state = .committing ∨ s.txn.state = .committed → s.Unanimous

theorem Voted.begin (participants : List Participant) : (begin participants).Voted where
  single _ _ _ _ found := nomatch found
  begun
    | .inl ⟨_, mem, _⟩ => nomatch mem
    | .inr filled => absurd rfl filled
  early
    | _, .inl found => nomatch found
    | _, .inr found => nomatch found
  recorded
    | .inl state => nomatch state
    | .inr ⟨_, mem, _⟩ => nomatch mem
  unanimous
    | .inl (.inl ⟨_, mem, _⟩) => nomatch mem
    | .inl (.inr (.inl empty)) => absurd rfl empty
    | .inl (.inr (.inr (.inl mem))) => nomatch mem
    | .inl (.inr (.inr (.inr empty))) => absurd rfl empty
    | .inr (.inl state) => nomatch state
    | .inr (.inr state) => nomatch state

theorem Moves.ne_init {state : TxnState} (moves : s.Moves event state)
    (begun : s.txn.state ≠ .init) : state ≠ .init := by
  cases moves with
  | stays => exact begun
  | preparing | committing | aborting | prepared | notPrepared | committed | aborted => decide

section

variable (voted : s.Voted)

include voted

theorem Voted.single_step (change : s.PrepareChange event s') (i j : ℕ) (call other : Call)
    (at_i : s'.calls[i]? = some call) (at_j : s'.calls[j]? = some other)
    (prepares : call.prepares = true) (otherPrepares : other.prepares = true) : i = j := by
  cases change with
  | quiet calls =>
    have was : ∀ (k : ℕ) (call : Call), s'.calls[k]? = some call → call.prepares = true →
        ∃ old, s.calls[k]? = some old ∧ old.prepares = true := by
      intro k call at_k prepares
      rcases calls k call at_k prepares with old | ⟨old, -⟩
      · exact ⟨call, old, prepares⟩
      · exact ⟨_, old, rfl⟩
    obtain ⟨old, at_i, prepares⟩ := was i call at_i prepares
    obtain ⟨old', at_j, otherPrepares⟩ := was j other at_j otherPrepares
    exact voted.single i j old old' at_i at_j prepares otherPrepares
  | entered _ state =>
    have new : ∀ (k : ℕ) (call : Call), (s.enter .preparing .persistingPrepare).calls[k]? =
        some call → call.prepares = true → k = s.calls.length := by
      intro k call at_k prepares
      rcases getElem?_enter at_k with old | ⟨new, -⟩
      · exact absurd state (voted.begun (.inl (active_of_getElem? old prepares)))
      · exact new
    rw [new i call at_i prepares, new j other at_j otherPrepares]
  | @collected k votes at_k =>
    have same : ∀ (l : ℕ) (call : Call), ((s.recordVotes votes).goto k .recorded).calls[l]? =
        some call → call.prepares = true → l = k := by
      intro l call at_l prepares
      rcases getElem?_goto at_l with old | ⟨new, -⟩
      · exact voted.single l k call .collecting old at_k prepares rfl
      · exact new
    rw [same i call at_i prepares, same j other at_j otherPrepares]

theorem Voted.begun_step (change : s.Change event s')
    (begun : s'.Active Call.prepares ∨ s'.ballots ≠ none) : s'.txn.state ≠ .init := by
  have moves := change.moves
  cases change.prepareChange with
  | quiet calls ballots =>
    apply moves.ne_init
    apply voted.begun
    rcases begun with ⟨call, mem, prepares⟩ | filled
    · obtain ⟨j, at_j⟩ := mem_iff_getElem?.mp mem
      rcases calls j call at_j prepares with was | ⟨was, -⟩
      · exact .inl (active_of_getElem? was prepares)
      · exact .inl (active_of_getElem? was (by rfl))
    · rw [ballots] at filled
      exact .inr filled
  | entered => exact nofun
  | collected at_i =>
    exact voted.begun (.inl (active_of_getElem? at_i (by rfl)))

theorem Voted.early_step (change : s.PrepareChange event s') {i : ℕ}
    (early : s'.calls[i]? = some .persistingPrepare ∨ s'.calls[i]? = some .collecting) :
    s'.ballots = none := by
  have found : ∃ call, s'.calls[i]? = some call ∧
      (call = .persistingPrepare ∨ call = .collecting) :=
    early.elim (fun at_i => ⟨_, at_i, .inl rfl⟩) (fun at_i => ⟨_, at_i, .inr rfl⟩)
  obtain ⟨call, at_i, place⟩ := found
  have prepares : call.prepares = true := by rcases place with rfl | rfl <;> rfl
  have earlier : s.calls[i]? = some call → s.ballots = none := by
    rintro was
    rcases place with rfl | rfl
    · exact voted.early i (.inl was)
    · exact voted.early i (.inr was)
  cases change with
  | quiet calls ballots =>
    rw [ballots]
    rcases calls i call at_i prepares with was | ⟨was, -⟩
    · exact earlier was
    · exact voted.early i (.inl was)
  | entered _ state =>
    -- a vote has not been taken before the first call of `Prepare`
    by_contra filled
    exact voted.begun (.inr filled) state
  | @collected k votes at_k =>
    rcases getElem?_goto at_i with was | ⟨-, rfl⟩
    · have here := voted.single i k call .collecting was at_k prepares rfl
      subst here
      have now : ((s.recordVotes votes).goto i .recorded).calls[i]? = some .recorded :=
        List.getElem?_set_self (List.getElem?_eq_some_iff.mp at_k).1
      cases now.symm.trans at_i
      rcases place with place | place <;> nomatch place
    · rcases place with place | place <;> nomatch place

theorem Voted.recorded_step (change : s.Change event s')
    (recorded : s'.txn.state = .prepared ∨ (s'.Active fun call => call = .recorded)) :
    s'.ballots = some (s'.txn.participants.map Participant.vote) := by
  have moves := change.moves
  cases change.prepareChange with
  | quiet calls ballots votes =>
    rw [ballots, votes]
    apply voted.recorded
    rcases recorded with state | ⟨call, mem, here⟩
    · generalize s'.txn.state = next at state moves
      cases moves with
      | stays => exact .inl state
      | prepared active => exact .inr active
      | preparing | committing | aborting | notPrepared | committed | aborted => nomatch state
    · have here : call = .recorded := of_decide_eq_true here
      subst here
      obtain ⟨j, at_j⟩ := mem_iff_getElem?.mp mem
      rcases calls j _ at_j rfl with was | ⟨-, other⟩
      · exact .inr (active_of_getElem? was (by rfl))
      · exact absurd rfl other
  | entered =>
    rcases recorded with state | active
    · nomatch state
    · exact voted.recorded (.inr (active_of_enter rfl active))
  | collected at_i all =>
    show some _ = some ((s.recordVotes _).txn.participants.map Participant.vote)
    rw [map_vote_recordVotes all]

/-- The votes stay unanimous. -/
theorem Voted.unanimous_of_change (change : s.PrepareChange event s') (unanimous : s.Unanimous) :
    s'.Unanimous := by
  obtain ⟨votes, ballots, length, all⟩ := unanimous
  cases change with
  | quiet _ same participants =>
    refine ⟨votes, same.trans ballots, ?_, all⟩
    have lengths := congrArg List.length participants
    rw [length_map, length_map] at lengths
    rw [lengths]
    exact length
  | entered => exact ⟨votes, ballots, length, all⟩
  | @collected i _ at_i =>
    rw [voted.early i (.inr at_i)] at ballots
    nomatch ballots

theorem Voted.unanimous_step (ok : s.NoCommitAgainstVote event) (change : s.Change event s')
    (commits : s'.Commits ∨ s'.txn.state = .committing ∨ s'.txn.state = .committed) :
    s'.Unanimous := by
  apply voted.unanimous_of_change change.prepareChange
  -- `Commit` gets in on the votes of a prepared transaction
  have entering : event = .commit → s.txn.state = .prepared → s.Unanimous := by
    intro called state
    refine ⟨_, voted.recorded (.inl state), length_map _, fun vote mem => ?_⟩
    obtain ⟨p, voter, rfl⟩ := mem_map.mp mem
    exact ok called state p voter
  rcases commits with commits | state
  · rcases change.commits commits with before | ⟨called, state, -⟩
    · exact voted.unanimous (.inl before)
    · exact entering called state
  · have moves := change.moves
    generalize s'.txn.state = next at state moves
    cases moves with
    | stays => exact voted.unanimous (.inr state)
    | committing called prepared => exact entering called prepared
    | committed commits => exact voted.unanimous (.inl commits)
    | preparing | aborting | prepared | notPrepared | aborted =>
      rcases state with state | state <;> nomatch state

theorem Voted.step (ok : s.NoCommitAgainstVote event) (happens : s.step event = some s') :
    s'.Voted where
  single := voted.single_step (change_of_step happens).prepareChange
  begun := voted.begun_step (change_of_step happens)
  early _ := voted.early_step (change_of_step happens).prepareChange
  recorded := voted.recorded_step (change_of_step happens)
  unanimous := voted.unanimous_step ok (change_of_step happens)

end

/-- In every run of `Prepare`, `Commit` and `Abort` on a new transaction where `Commit` is not
called against a vote to abort, COMMIT is sent and the transaction committed only after
every participant has voted to commit. -/
theorem validCommit_of_noCommitAgainstVote {participants : List Participant}
    (reachable : Runs.Reachable step NoCommitAgainstVote (begin participants) s) :
    s.ValidCommit := by
  have voted : s.Voted := reachable.invariant (Voted.begin participants)
    fun _ _ _ voted ok happens => voted.step ok happens
  rintro (sent | state)
  · exact voted.unanimous (.inl (.inr (.inr (.inr sent))))
  · exact voted.unanimous (.inr (.inr state))

/-- Two participants vote to commit. -/
theorem validCommit_unanimous :
    ∃ s, Runs.Reachable step NoCommitAgainstVote (begin [{}, {}]) s ∧ s.ValidCommit ∧
      s.commitsSent = [0, 1] ∧ s.txn.state = .committed := by
  obtain ⟨s, reachable, holds⟩ := exists_of_exec step NoCommitAgainstVote (begin [{}, {}])
    [.prepare, .persist 0 true, .collect 0 [.commit, .commit], .finish 0, .commit,
      .persist 1 true, .sendCommit 0, .sendCommit 0, .finish 1]
    (P := fun s => s.commitsSent = [0, 1] ∧ s.txn.state = .committed) (by decide +kernel)
  exact ⟨s, reachable, validCommit_of_noCommitAgainstVote reachable, holds⟩

/-- Both participants vote to abort.  `Prepare` returns false but leaves the transaction
prepared, and a call of `Commit` commits it. -/
theorem not_validCommit_abortVote :
    ∃ s, Runs.Reachable step (fun _ _ => True) (begin [{}, {}]) s ∧ ¬ s.ValidCommit ∧
      s.ballots = some [.abort, .abort] ∧ s.commitsSent = [0, 1] ∧
      s.txn.state = .committed := by
  obtain ⟨s, reachable, ballots, sent, state⟩ := exists_of_exec step (fun _ _ => True)
    (begin [{}, {}])
    [.prepare, .persist 0 true, .collect 0 [.abort, .abort], .finish 0, .commit,
      .persist 1 true, .sendCommit 0, .sendCommit 0, .finish 1]
    (P := fun s => s.ballots = some [.abort, .abort] ∧ s.commitsSent = [0, 1] ∧
      s.txn.state = .committed) (by decide +kernel)
  refine ⟨s, reachable, fun valid => ?_, ballots, sent, state⟩
  obtain ⟨votes, same, -, all⟩ := valid (.inr state)
  rw [ballots] at same
  cases same
  exact absurd (all .abort (by decide)) (by decide)

end Coordination

end Hermes.Txn
