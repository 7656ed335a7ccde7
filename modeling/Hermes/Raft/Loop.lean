import Hermes.Raft.NodeCorrectness
import Hermes.Raft.Representation

/-!
# The loop of a node

`run` takes what is ready and processes it, waits for a tick, a message or a proposal, and
starts again; after a proposal that was accepted it takes what is ready once more before it
answers.  What `processReady` calls is recorded: the state machine's `Restore` and `Apply`,
and the transport's `Send` together with what the node has persisted by then.
-/

namespace Hermes.Raft

open Option

/-- Where the loop stands: at its head, in its `select`, or about to answer a proposal. -/
inductive Phase where
  | head
  | select
  | answer
  deriving DecidableEq, Repr

/-- What `processReady` calls. -/
inductive Call where
  | restore (snapshot : Snapshot)
  | send (m : Message) (hardState : HardState) (wal : List LogEntry) (log : RaftLog)
  | apply (entry : LogEntry)
  /-- An entry that `applyEntries` passes over. -/
  | noop (entry : LogEntry)
  deriving DecidableEq, Repr

inductive LoopEvent where
  | ready
  | tick
  | step (m : Message)
  | propose (entries : List LogEntry)
  deriving DecidableEq, Repr

structure Loop (σ : Type) where
  node : RaftNode σ
  phase : Phase := .head
  calls : List Call := []

/-- The call that `applyEntries` makes for an entry. -/
def LogEntry.call (entry : LogEntry) : Call :=
  if entry.type = .noop then .noop entry else .apply entry

/-- The calls of `processReady`, in their order. -/
def RaftNode.calls {σ : Type} (n : RaftNode σ) (rd : Ready) : List Call :=
  (rd.snapshot.map Call.restore).toList ++
    rd.messages.map (fun m =>
      .send m (rd.hardState.getD n.hardState) (n.wal ++ rd.entries) n.raft.log) ++
    rd.committedEntries.map LogEntry.call

namespace Loop

variable {σ : Type} (sm : StateMachine σ)

/-- One event of the loop. -/
def step (s : Loop σ) : LoopEvent → Option (Loop σ)
  | .ready =>
    match s.phase with
    | .select => none
    | .head | .answer =>
      (s.node.ready sm).toOption.map fun (rd, n) =>
        { node := n
          phase := if s.phase = .head then .select else .head
          calls := s.calls ++ s.node.calls rd }
  | .tick =>
    if s.phase = .select then
      s.node.tick.toOption.map fun n => { s with node := n, phase := .head }
    else none
  | .step m =>
    if s.phase = .select then
      (s.node.step m).toOption.map fun n => { s with node := n, phase := .head }
    else none
  | .propose entries =>
    if s.phase = .select then
      (s.node.raft.step (s.node.proposal entries)).toOption.map fun (raft, err) =>
        { s with
          node := { s.node with raft := raft }
          phase := if err.isNone then .answer else .head }
    else none

variable {sm}

/-- What an event that is possible does. -/
inductive Moves (sm : StateMachine σ) (s : Loop σ) : LoopEvent → Loop σ → Prop where
  | ready {rd : Ready} {n : RaftNode σ} {phase : Phase} (taken : s.node.ready sm = .ok (rd, n)) :
    Moves sm s .ready { node := n, phase := phase, calls := s.calls ++ s.node.calls rd }
  | tick {raft : Raft} (ran : s.node.raft.tick = .ok raft) :
    Moves sm s .tick { s with node := { s.node with raft := raft }, phase := .head }
  | step {m : Message} {raft : Raft} {err : Option String}
    (ran : s.node.raft.step m = .ok (raft, err)) :
    Moves sm s (.step m) { s with node := { s.node with raft := raft }, phase := .head }
  | propose {entries : List LogEntry} {raft : Raft} {err : Option String} {phase : Phase}
    (ran : s.node.raft.step (s.node.proposal entries) = .ok (raft, err)) :
    Moves sm s (.propose entries) { s with node := { s.node with raft := raft }, phase := phase }

variable {event : LoopEvent}

theorem moves_of_step {s s' : Loop σ} (eq : s.step sm event = some s') : s.Moves sm event s' := by
  unfold step at eq
  cases event with
  | ready =>
    dsimp only at eq
    split at eq
    · nomatch eq
    all_goals
      obtain ⟨⟨rd, n⟩, taken, rfl⟩ := map_eq_some_iff.mp eq
      exact .ready (toOption_eq_some.mp taken)
  | tick =>
    dsimp only at eq
    split at eq
    · obtain ⟨n, ticked, rfl⟩ := map_eq_some_iff.mp eq
      obtain ⟨raft, ran, same⟩ := bind_eq_ok.mp (toOption_eq_some.mp ticked)
      cases same
      exact .tick ran
    · nomatch eq
  | step m =>
    dsimp only at eq
    split at eq
    · obtain ⟨n, stepped, rfl⟩ := map_eq_some_iff.mp eq
      obtain ⟨⟨raft, err⟩, ran, same⟩ := bind_eq_ok.mp (toOption_eq_some.mp stepped)
      cases same
      exact .step ran
    · nomatch eq
  | propose entries =>
    dsimp only at eq
    split at eq
    · obtain ⟨⟨raft, err⟩, ran, rfl⟩ := map_eq_some_iff.mp eq
      exact .propose (toOption_eq_some.mp ran)
    · nomatch eq

/-- The messages of a run whose batches keep the layout of the log. -/
def Admitted (s : Loop σ) : LoopEvent → Prop
  | .step m => s.node.raft.log.Admits m
  | _ => True

/-- The log keeps its layout. -/
theorem Moves.regular {s s' : Loop σ} (moves : s.Moves sm event s') (admitted : s.Admitted event)
    (regular : s.node.raft.log.Regular) : s'.node.raft.log.Regular := by
  cases moves with
  | ready taken =>
    rw [(RaftNode.Processed.of_ready regular taken).raft]
    exact regular.withApplied
  | tick ran => exact (tick_changes (m := { type := .tick }) ran).regular nofun regular
  | step ran => exact (step_changes ran).regular admitted regular
  | propose ran => exact (step_changes ran).regular nofun regular

theorem log_new {config : Config} {storage : σ} {rng : Rng} {n : RaftNode σ}
    (created : RaftNode.new config storage rng = .ok n) :
    n.raft.log = RaftLog.new ∧ n.raft.msgs = [] ∧ n.wal = [] := by
  obtain ⟨raft, new, same⟩ := bind_eq_ok.mp created
  cases same
  have view := SameView.resetElectionTimeout new
  exact ⟨view.log, view.msgs, rfl⟩

/-- The loop of a node that has just been created. -/
def fresh : Loop Unit where
  node := { raft := observer, storage := () }

theorem fresh_new : RaftNode.new (defaultConfig "b" ["a"]) () (fun _ => 0) = .ok fresh.node :=
  rfl

/-- No condition on the events. -/
def anyEvent (_ : Loop σ) (_ : LoopEvent) : Prop :=
  True
  deriving Decidable

end Loop

end Hermes.Raft
