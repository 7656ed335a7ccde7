import Hermes.Data.Runs

/-!
# Two-phase commit

The coordinator of `pkg/txn/twopc.go` for one transaction.  Calls of `Prepare`, `Commit` and
`Abort` run at the same time: what one of them does while it holds the lock of the
transaction is one step, and so is every call of a persistence callback and every message.
A callback that is not set is one that always succeeds.
-/

namespace Hermes.Txn

open List

inductive TxnState where
  | init
  | preparing
  | prepared
  | committing
  | committed
  | aborting
  | aborted
  deriving DecidableEq, Repr

inductive Vote where
  | commit
  | abort
  deriving DecidableEq, Repr

structure Participant where
  voted : Bool := false
  vote : Vote := .commit
  acked : Bool := false
  deriving DecidableEq, Repr

/-- Record the answer of a participant. -/
def Participant.record (p : Participant) (vote : Vote) : Participant :=
  { p with voted := true, vote := vote }

def Participant.ack (p : Participant) : Participant :=
  { p with acked := true }

structure TwoPCTransaction where
  state : TxnState := .init
  participants : List Participant
  deriving DecidableEq, Repr

/-- Where a call is. -/
inductive Call where
  /-- `Prepare`, before `persistPrepare`. -/
  | persistingPrepare
  /-- `Prepare`, waiting for votes. -/
  | collecting
  /-- `Prepare`, after all votes have been recorded. -/
  | recorded
  /-- `Prepare`, after `persistPrepare` has failed. -/
  | prepareFailed
  /-- `Commit`, before `persistDecision`. -/
  | persistingCommit
  /-- `Commit`, waiting for acknowledgements. -/
  | awaiting
  /-- `Abort`, before `persistDecision`. -/
  | persistingAbort
  /-- `Abort`, before ABORT is sent to a participant. -/
  | sendingAbort (next : ℕ)
  | returned
  deriving DecidableEq, Repr

/-- The transaction, the calls on it, the COMMIT messages whose goroutines have not run yet,
and what has happened: the calls of `persistDecision`, the messages, and the votes that
`Prepare` has got. -/
structure Coordination where
  txn : TwoPCTransaction
  calls : List Call := []
  outbox : List ℕ := []
  decisions : List Bool := []
  commitsSent : List ℕ := []
  abortsSent : List ℕ := []
  ballots : Option (List Vote) := none

inductive TwoPCEvent where
  | prepare
  | commit
  | abort
  /-- A persistence callback returns. -/
  | persist (call : ℕ) (ok : Bool)
  /-- `Prepare` has got a vote of every participant. -/
  | collect (call : ℕ) (votes : List Vote)
  /-- The context is done, or `Prepare` has waited for too long. -/
  | giveUp (call : ℕ)
  | sendCommit (place : ℕ)
  | sendAbort (call : ℕ)
  /-- The last section of a call. -/
  | finish (call : ℕ)
  deriving DecidableEq, Repr

namespace Call

/-- `Prepare` is being executed. -/
def prepares : Call → Bool
  | .persistingPrepare | .collecting | .recorded | .prepareFailed => true
  | _ => false

/-- `Commit` is being executed. -/
def commits : Call → Bool
  | .persistingCommit | .awaiting => true
  | _ => false

/-- `Abort` is being executed. -/
def aborts : Call → Bool
  | .persistingAbort | .sendingAbort _ => true
  | _ => false

end Call

namespace Coordination

/-- A new transaction. -/
def begin (participants : List Participant) : Coordination where
  txn := { participants := participants }

def setState (s : Coordination) (state : TxnState) : Coordination :=
  { s with txn := { s.txn with state := state } }

/-- A call has passed its first section. -/
def enter (s : Coordination) (state : TxnState) (call : Call) : Coordination :=
  { s.setState state with calls := s.calls ++ [call] }

/-- A call goes on. -/
def goto (s : Coordination) (i : ℕ) (call : Call) : Coordination :=
  { s with calls := s.calls.set i call }

/-- `persistDecision` is called. -/
def persistDecision (s : Coordination) (commit : Bool) : Coordination :=
  { s with decisions := s.decisions ++ [commit] }

/-- The goroutines that send COMMIT to all participants. -/
def spawnCommits (s : Coordination) : Coordination :=
  { s with outbox := s.outbox ++ List.range s.txn.participants.length }

/-- Record the votes of all participants. -/
def recordVotes (s : Coordination) (votes : List Vote) : Coordination :=
  { s with
    txn := { s.txn with participants := s.txn.participants.zipWith Participant.record votes }
    ballots := some votes }

/-- One COMMIT message; the participant acknowledges it. -/
def deliverCommit (s : Coordination) (place participant : ℕ) : Coordination :=
  { s with
    txn := { s.txn with participants := s.txn.participants.modify participant Participant.ack }
    outbox := s.outbox.eraseIdx place
    commitsSent := s.commitsSent ++ [participant] }

/-- One ABORT message. -/
def deliverAbort (s : Coordination) (participant : ℕ) : Coordination :=
  { s with abortsSent := s.abortsSent ++ [participant] }

def persist (s : Coordination) (i : ℕ) (ok : Bool) : Option Coordination :=
  match s.calls[i]? with
  | some .persistingPrepare => some (s.goto i (if ok then .collecting else .prepareFailed))
  | some .persistingCommit =>
    if ok then some ((s.persistDecision true).spawnCommits.goto i .awaiting)
    else some ((s.persistDecision true).goto i .returned)
  | some .persistingAbort =>
    some ((s.persistDecision false).goto i (if ok then .sendingAbort 0 else .returned))
  | _ => none

def finish (s : Coordination) (i : ℕ) : Option Coordination :=
  match s.calls[i]? with
  | some .recorded => some ((s.setState .prepared).goto i .returned)
  | some .prepareFailed => some ((s.setState .aborting).goto i .returned)
  | some .awaiting => some ((s.setState .committed).goto i .returned)
  | some (.sendingAbort next) =>
    if next < s.txn.participants.length then none
    else some ((s.setState .aborted).goto i .returned)
  | _ => none

def step (s : Coordination) : TwoPCEvent → Option Coordination
  | .prepare => if s.txn.state = .init then some (s.enter .preparing .persistingPrepare) else some s
  | .commit =>
    if s.txn.state = .prepared then some (s.enter .committing .persistingCommit) else some s
  | .abort =>
    if s.txn.state = .committed ∨ s.txn.state = .aborted then some s
    else some (s.enter .aborting .persistingAbort)
  | .persist i ok => s.persist i ok
  | .collect i votes =>
    if s.calls[i]? = some .collecting ∧ votes.length = s.txn.participants.length then
      some ((s.recordVotes votes).goto i .recorded)
    else none
  | .giveUp i =>
    if s.calls[i]? = some .collecting ∨ s.calls[i]? = some .awaiting then
      some (s.goto i .returned)
    else none
  | .sendCommit place =>
    match s.outbox[place]? with
    | none => none
    | some participant => some (s.deliverCommit place participant)
  | .sendAbort i =>
    match s.calls[i]? with
    | some (.sendingAbort next) =>
      if next < s.txn.participants.length then
        some ((s.deliverAbort next).goto i (.sendingAbort (next + 1)))
      else none
    | _ => none
  | .finish i => s.finish i

/-! ## What a step can do -/

/-- The steps of the calls, by where the call is. -/
inductive Change (s : Coordination) : TwoPCEvent → Coordination → Prop where
  | refused {event : TwoPCEvent} : Change s event s
  | enterPrepare (state : s.txn.state = .init) :
    Change s .prepare (s.enter .preparing .persistingPrepare)
  | enterCommit (state : s.txn.state = .prepared) :
    Change s .commit (s.enter .committing .persistingCommit)
  | enterAbort (notCommitted : s.txn.state ≠ .committed) :
    Change s .abort (s.enter .aborting .persistingAbort)
  | preparePersisted {i : ℕ} {ok : Bool} {next : Call}
    (at_i : s.calls[i]? = some .persistingPrepare)
    (outcome : next = .collecting ∨ next = .prepareFailed) :
    Change s (.persist i ok) (s.goto i next)
  | collected {i : ℕ} {votes : List Vote} (at_i : s.calls[i]? = some .collecting)
    (all : votes.length = s.txn.participants.length) :
    Change s (.collect i votes) ((s.recordVotes votes).goto i .recorded)
  | gaveUp {i : ℕ} : Change s (.giveUp i) (s.goto i .returned)
  | commitPersisted {i : ℕ} (at_i : s.calls[i]? = some .persistingCommit) :
    Change s (.persist i true) ((s.persistDecision true).spawnCommits.goto i .awaiting)
  | commitNotPersisted {i : ℕ} (at_i : s.calls[i]? = some .persistingCommit) :
    Change s (.persist i false) ((s.persistDecision true).goto i .returned)
  | abortPersisted {i : ℕ} {ok : Bool} {next : Call} (at_i : s.calls[i]? = some .persistingAbort)
    (outcome : next = .sendingAbort 0 ∨ next = .returned) :
    Change s (.persist i ok) ((s.persistDecision false).goto i next)
  | commitSent {place participant : ℕ} (found : s.outbox[place]? = some participant) :
    Change s (.sendCommit place) (s.deliverCommit place participant)
  | abortSent {i next : ℕ} (at_i : s.calls[i]? = some (.sendingAbort next)) :
    Change s (.sendAbort i) ((s.deliverAbort next).goto i (.sendingAbort (next + 1)))
  | prepared {i : ℕ} (at_i : s.calls[i]? = some .recorded) :
    Change s (.finish i) ((s.setState .prepared).goto i .returned)
  | notPrepared {i : ℕ} (at_i : s.calls[i]? = some .prepareFailed) :
    Change s (.finish i) ((s.setState .aborting).goto i .returned)
  | committed {i : ℕ} (at_i : s.calls[i]? = some .awaiting) :
    Change s (.finish i) ((s.setState .committed).goto i .returned)
  | aborted {i next : ℕ} (at_i : s.calls[i]? = some (.sendingAbort next)) :
    Change s (.finish i) ((s.setState .aborted).goto i .returned)

variable {s s' : Coordination}

variable {i : ℕ}

theorem change_of_persist {ok : Bool} (happens : s.persist i ok = some s') :
    s.Change (.persist i ok) s' := by
  unfold persist at happens
  split at happens
  · rename_i at_i
    cases happens
    apply Change.preparePersisted at_i
    cases ok
    · exact .inr rfl
    · exact .inl rfl
  · rename_i at_i
    cases ok <;> cases happens
    · exact .commitNotPersisted at_i
    · exact .commitPersisted at_i
  · rename_i at_i
    cases happens
    apply Change.abortPersisted at_i
    cases ok
    · exact .inr rfl
    · exact .inl rfl
  · nomatch happens

theorem change_of_finish (happens : s.finish i = some s') : s.Change (.finish i) s' := by
  unfold finish at happens
  split at happens
  · rename_i at_i
    cases happens
    exact .prepared at_i
  · rename_i at_i
    cases happens
    exact .notPrepared at_i
  · rename_i at_i
    cases happens
    exact .committed at_i
  · rename_i at_i
    split at happens
    · nomatch happens
    · cases happens
      exact .aborted at_i
  · nomatch happens

variable {event : TwoPCEvent}

theorem change_of_step (happens : s.step event = some s') : s.Change event s' := by
  cases event with
  | prepare =>
    simp only [step] at happens
    split at happens <;> cases happens
    · rename_i state
      exact .enterPrepare state
    · exact .refused
  | commit =>
    simp only [step] at happens
    split at happens <;> cases happens
    · rename_i state
      exact .enterCommit state
    · exact .refused
  | abort =>
    simp only [step] at happens
    split at happens <;> cases happens
    · exact .refused
    · rename_i notTerminal
      exact .enterAbort fun state => notTerminal (.inl state)
  | persist i ok => exact change_of_persist happens
  | collect i votes =>
    simp only [step] at happens
    split at happens
    · rename_i ready
      cases happens
      exact .collected ready.1 ready.2
    · nomatch happens
  | giveUp i =>
    simp only [step] at happens
    split at happens
    · cases happens
      exact .gaveUp
    · nomatch happens
  | sendCommit place =>
    simp only [step] at happens
    split at happens
    · nomatch happens
    · rename_i found
      cases happens
      exact .commitSent found
  | sendAbort i =>
    simp only [step] at happens
    split at happens
    · rename_i at_i
      split at happens
      · cases happens
        exact .abortSent at_i
      · nomatch happens
    · nomatch happens
  | finish i => exact change_of_finish happens

/-! ## Calls and decisions -/

/-- Some call is at such a place. -/
def Active (s : Coordination) (place : Call → Bool) : Prop :=
  ∃ call ∈ s.calls, place call = true

variable {call : Call} {place : Call → Bool}

theorem active_of_getElem?
    (at_i : s.calls[i]? = some call) (here : place call = true) : s.Active place :=
  ⟨call, mem_of_getElem? at_i, here⟩

variable {state : TxnState}

theorem active_of_enter (outside : place call = false)
    (active : (s.enter state call).Active place) : s.Active place := by
  obtain ⟨other, mem, here⟩ := active
  rcases mem_append.mp mem with old | new
  · exact ⟨other, old, here⟩
  · rw [mem_singleton.mp new, outside] at here
    cases here

theorem active_of_goto (outside : place call = false) (active : (s.goto i call).Active place) :
    s.Active place := by
  obtain ⟨other, mem, here⟩ := active
  rcases mem_or_eq_of_mem_set mem with old | rfl
  · exact ⟨other, old, here⟩
  · rw [outside] at here
    cases here

/-- A decision to commit is being carried out, or has been. -/
def Commits (s : Coordination) : Prop :=
  s.Active Call.commits ∨ s.outbox ≠ [] ∨ true ∈ s.decisions ∨ s.commitsSent ≠ []

/-- A decision to abort is being carried out, or has been. -/
def Aborts (s : Coordination) : Prop :=
  s.Active Call.aborts ∨ false ∈ s.decisions ∨ s.abortsSent ≠ []

theorem commits_of_goto (outside : call.commits = false) (commits : (s.goto i call).Commits) :
    s.Commits :=
  commits.imp_left (active_of_goto outside)

theorem aborts_of_goto (outside : call.aborts = false) (aborts : (s.goto i call).Aborts) :
    s.Aborts :=
  aborts.imp_left (active_of_goto outside)

/-- Only a call of `Commit` that finds the transaction prepared starts to commit. -/
theorem Change.commits (change : s.Change event s') (commits : s'.Commits) :
    s.Commits ∨ event = .commit ∧ s.txn.state = .prepared ∧ s'.txn.state = .committing := by
  cases change with
  | refused => exact .inl commits
  | enterPrepare | enterAbort => exact .inl (commits.imp_left (active_of_enter rfl))
  | enterCommit state => exact .inr ⟨rfl, state, rfl⟩
  | preparePersisted at_i outcome =>
    refine .inl (commits_of_goto ?_ commits)
    rcases outcome with rfl | rfl <;> rfl
  | collected | gaveUp | abortSent | prepared | notPrepared | committed | aborted =>
    exact .inl (commits_of_goto rfl commits)
  | commitPersisted at_i => exact .inl (.inl (active_of_getElem? at_i rfl))
  | commitNotPersisted at_i => exact .inl (.inl (active_of_getElem? at_i rfl))
  | abortPersisted at_i outcome =>
    have before : (s.persistDecision false).Commits := by
      refine commits_of_goto ?_ commits
      rcases outcome with rfl | rfl <;> rfl
    simpa [Commits, Active, persistDecision] using before
  | commitSent found =>
    refine .inl (.inr (.inl ?_))
    rintro empty
    rw [empty] at found
    nomatch found

theorem Change.aborts (change : s.Change event s') (aborts : s'.Aborts) :
    s.Aborts ∨ event = .abort ∧ s.txn.state ≠ .committed ∧ s'.txn.state = .aborting := by
  cases change with
  | refused | commitSent => exact .inl aborts
  | enterPrepare | enterCommit => exact .inl (aborts.imp_left (active_of_enter rfl))
  | enterAbort notCommitted => exact .inr ⟨rfl, notCommitted, rfl⟩
  | preparePersisted at_i outcome =>
    refine .inl (aborts_of_goto ?_ aborts)
    rcases outcome with rfl | rfl <;> rfl
  | collected | gaveUp | prepared | notPrepared | committed | aborted =>
    exact .inl (aborts_of_goto rfl aborts)
  | commitPersisted =>
    have before := aborts_of_goto rfl aborts
    exact .inl (by simpa [Aborts, Active, persistDecision, spawnCommits] using before)
  | commitNotPersisted =>
    have before := aborts_of_goto rfl aborts
    exact .inl (by simpa [Aborts, Active, persistDecision] using before)
  | abortPersisted at_i => exact .inl (.inl (active_of_getElem? at_i rfl))
  | abortSent at_i => exact .inl (.inl (active_of_getElem? at_i rfl))

/-- How the state of the transaction changes. -/
inductive Moves (s : Coordination) (event : TwoPCEvent) : TxnState → Prop where
  | stays : Moves s event s.txn.state
  | preparing (called : event = .prepare) (state : s.txn.state = .init) :
    Moves s event .preparing
  | committing (called : event = .commit) (state : s.txn.state = .prepared) :
    Moves s event .committing
  | aborting (called : event = .abort) (notCommitted : s.txn.state ≠ .committed) :
    Moves s event .aborting
  | prepared (recorded : s.Active fun call => call = .recorded) : Moves s event .prepared
  | notPrepared (failed : s.Active fun call => call = .prepareFailed) : Moves s event .aborting
  | committed (commits : s.Commits) : Moves s event .committed
  | aborted (aborts : s.Aborts) : Moves s event .aborted

theorem Change.moves (change : s.Change event s') : s.Moves event s'.txn.state := by
  cases change with
  | refused | preparePersisted | collected | gaveUp | commitPersisted | commitNotPersisted
  | abortPersisted | commitSent | abortSent => exact .stays
  | enterPrepare state => exact .preparing rfl state
  | enterCommit state => exact .committing rfl state
  | enterAbort notCommitted => exact .aborting rfl notCommitted
  | prepared at_i => exact .prepared (active_of_getElem? at_i rfl)
  | notPrepared at_i => exact .notPrepared (active_of_getElem? at_i rfl)
  | committed at_i => exact .committed (.inl (active_of_getElem? at_i rfl))
  | aborted at_i => exact .aborted (.inl (active_of_getElem? at_i rfl))

variable {call other : Call}

theorem getElem?_goto {i j : ℕ}
    (at_j : (s.goto i call).calls[j]? = some other) :
    s.calls[j]? = some other ∨ j = i ∧ other = call := by
  rw [goto, getElem?_set] at at_j
  split at at_j
  · rename_i same
    split at at_j
    · cases at_j
      exact .inr ⟨same.symm, rfl⟩
    · nomatch at_j
  · exact .inl at_j

/-- A call that is entered is the new one, or it was there before. -/
theorem getElem?_enter {j : ℕ}
    (at_j : (s.enter state call).calls[j]? = some other) :
    s.calls[j]? = some other ∨ j = s.calls.length ∧ other = call :=
  (Runs.getElem?_concat_eq_some at_j).imp_left And.right

/-- What an event does to the calls of `Prepare` and to the votes: it leaves the votes alone
and such a call stays where it is or has persisted; or it is a new call; or a call has got
the votes. -/
inductive PrepareChange (s : Coordination) (event : TwoPCEvent) : Coordination → Prop where
  | quiet {s' : Coordination}
    (calls : ∀ (j : ℕ) (call : Call), s'.calls[j]? = some call → call.prepares = true →
      s.calls[j]? = some call ∨ s.calls[j]? = some .persistingPrepare ∧ call ≠ .recorded)
    (ballots : s'.ballots = s.ballots)
    (votes : s'.txn.participants.map Participant.vote =
      s.txn.participants.map Participant.vote) : PrepareChange s event s'
  | entered (called : event = .prepare) (state : s.txn.state = .init) :
    PrepareChange s event (s.enter .preparing .persistingPrepare)
  | collected {i : ℕ} {votes : List Vote} (at_i : s.calls[i]? = some .collecting)
    (all : votes.length = s.txn.participants.length) :
    PrepareChange s event ((s.recordVotes votes).goto i .recorded)

/-- Going on outside of `Prepare`, without touching the votes. -/
theorem prepareChange_goto {s₁ : Coordination} {next : Call} (calls : s₁.calls = s.calls)
    (ballots : s₁.ballots = s.ballots) (participants : s₁.txn.participants = s.txn.participants)
    (outside : next.prepares = false) : s.PrepareChange event (s₁.goto i next) := by
  refine .quiet (fun j call at_j prepares => .inl ?_) ballots (congrArg _ participants)
  rcases getElem?_goto at_j with old | ⟨-, rfl⟩
  · rwa [calls] at old
  · rw [outside] at prepares
    cases prepares

theorem prepareChange_enter
    (outside : call.prepares = false) : s.PrepareChange event (s.enter state call) := by
  refine .quiet (fun j other at_j prepares => .inl ?_) rfl rfl
  rcases getElem?_enter at_j with old | ⟨-, rfl⟩
  · exact old
  · rw [outside] at prepares
    cases prepares

theorem map_vote_modify_ack (participants : List Participant) (i : ℕ) :
    (participants.modify i Participant.ack).map Participant.vote =
      participants.map Participant.vote := by
  apply ext_getElem?
  intro j
  rw [getElem?_map, getElem?_map, getElem?_modify]
  cases participants[j]? with
  | none => rfl
  | some p => by_cases here : i = j <;> simp [here, Participant.ack]

theorem Change.prepareChange (change : s.Change event s') : s.PrepareChange event s' := by
  cases change with
  | refused => exact .quiet (fun _ _ at_j _ => .inl at_j) rfl rfl
  | enterPrepare state => exact .entered rfl state
  | enterCommit | enterAbort => exact prepareChange_enter rfl
  | preparePersisted at_i outcome =>
    refine .quiet (fun j call at_j prepares => ?_) rfl rfl
    rcases getElem?_goto at_j with old | ⟨rfl, rfl⟩
    · exact .inl old
    · refine .inr ⟨at_i, ?_⟩
      rcases outcome with rfl | rfl <;> decide
  | collected at_i all => exact .collected at_i all
  | abortPersisted at_i outcome =>
    refine prepareChange_goto rfl rfl rfl ?_
    rcases outcome with rfl | rfl <;> rfl
  | commitSent => exact .quiet (fun _ _ at_j _ => .inl at_j) rfl (map_vote_modify_ack _ _)
  | gaveUp | commitPersisted | commitNotPersisted | abortSent | prepared | notPrepared
  | committed | aborted => exact prepareChange_goto rfl rfl rfl rfl

theorem map_vote_recordVotes {votes : List Vote} (all : votes.length = s.txn.participants.length) :
    (s.recordVotes votes).txn.participants.map Participant.vote = votes := by
  apply ext_getElem
  · simp [recordVotes, all]
  · simp [recordVotes, Participant.record]

end Coordination

end Hermes.Txn
