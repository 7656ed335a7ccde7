import Hermes.Data.Runs
import Hermes.Raft.Node

/-!
# Clusters of Raft nodes

A cluster is a family of nodes together with every message that was handed to
the transport.  Delivery picks any message sent so far, so messages may be
reordered, duplicated and lost.  The remaining fields of a cluster are history
variables: no step reads them, they only record what happened.
-/

namespace Hermes.Raft

/-- The fixed membership of a cluster: distinct members, each configured with
exactly the other ones as its peers. -/
structure Membership where
  ids : List NodeID
  config : NodeID → Config
  ids_nodup : ids.Nodup
  config_nodeID : ∀ id ∈ ids, (config id).nodeID = id
  config_peers : ∀ id ∈ ids, (config id).peers.Perm (ids.erase id)

/-- No member has the empty name, which means "no node" in `vote` and `lead`.  The server's
`getEnv` makes sure of that, `NewRaft` does not. -/
def Membership.Named (ms : Membership) : Prop :=
  ∀ id ∈ ms.ids, id ≠ ""
  deriving Decidable

structure Cluster (σ : Type) where
  nodes : NodeID → RaftNode σ
  /-- Every message handed to `Transport.Send` so far. -/
  sent : List Message := []
  /-- Every entry that passed through `applyEntries`, with the node it did so on. -/
  applied : List (NodeID × LogEntry) := []
  /-- Every pair of a node and a term in which the node was seen as leader. -/
  elected : List (NodeID × Nat) := []
  /-- The log last seen at a leader of the term, sentinel included. -/
  leaderLog : Nat → List LogEntry := fun _ => []

/-- What can happen to a cluster. -/
inductive Action where
  | tick (id : NodeID)
  | propose (id : NodeID) (entries : List LogEntry)
  | deliver (m : Message)
  | ready (id : NodeID)
  deriving DecidableEq, Repr

namespace Cluster

variable {σ : Type}

/-- Store the new state of a node and record what it sent and applied. -/
def observe (c : Cluster σ) (id : NodeID) (n : RaftNode σ) (ready : Ready) : Cluster σ where
  nodes := Function.update c.nodes id n
  sent := c.sent ++ ready.messages
  applied := c.applied ++ ready.committedEntries.map fun entry => (id, entry)
  elected :=
    if n.raft.state = .leader then c.elected ++ [(id, n.raft.term)] else c.elected
  leaderLog :=
    if n.raft.state = .leader then
      Function.update c.leaderLog n.raft.term n.raft.log.entries
    else c.leaderLog

@[simp]
theorem observe_nodes_self (c : Cluster σ) (id : NodeID) (n : RaftNode σ) (ready : Ready) :
    (c.observe id n ready).nodes id = n :=
  Function.update_self ..

theorem observe_nodes_of_ne {id p : NodeID} (other : p ≠ id) (c : Cluster σ) (n : RaftNode σ)
    (ready : Ready) : (c.observe id n ready).nodes p = c.nodes p :=
  Function.update_of_ne other ..

/-- One action.  A panic ends the process of the node, so there is no next state. -/
def step (sm : StateMachine σ) (c : Cluster σ) : Action → Except Panic (Cluster σ)
  | .tick id => do
    let n ← (c.nodes id).tick
    return c.observe id n {}
  | .propose id entries => do
    let (n, ready, _) ← (c.nodes id).proposeEntries sm entries
    return c.observe id n ready
  | .deliver m => do
    let n ← (c.nodes m.toID).step m
    return c.observe m.toID n {}
  | .ready id => do
    let (ready, n) ← (c.nodes id).ready sm
    return c.observe id n ready

/-- Members take part, and only messages that were sent are delivered. -/
def Enabled (ms : Membership) (c : Cluster σ) : Action → Prop
  | .tick id => id ∈ ms.ids
  | .propose id _ => id ∈ ms.ids
  | .deliver m => m ∈ c.sent ∧ m.toID ∈ ms.ids
  | .ready id => id ∈ ms.ids

instance (ms : Membership) (c : Cluster σ) : DecidablePred (c.Enabled ms) := by
  rintro ⟨⟩ <;> delta Enabled <;> infer_instance

/-- Every member has just been created by `NewRaftNode`. -/
def Initial (ms : Membership) (c : Cluster σ) : Prop :=
  (∀ id ∈ ms.ids, ∃ storage rng,
    RaftNode.new (ms.config id) storage rng = .ok (c.nodes id)) ∧
    c.sent = [] ∧ c.applied = [] ∧ c.elected = [] ∧ c.leaderLog = fun _ => []

/-- A step of the cluster by an enabled action that satisfies `guard`. -/
def Next (ms : Membership) (sm : StateMachine σ) (guard : Cluster σ → Action → Prop)
    (c c' : Cluster σ) : Prop :=
  ∃ a, c.Enabled ms a ∧ guard c a ∧ c.step sm a = .ok c'

/-- Runs all of whose steps satisfy `guard`. -/
def Run (ms : Membership) (sm : StateMachine σ) (guard : Cluster σ → Action → Prop) :
    Cluster σ → Cluster σ → Prop :=
  Relation.ReflTransGen (Next ms sm guard)

/-- The states that guarded runs reach from a fresh cluster. -/
def Reachable (ms : Membership) (sm : StateMachine σ)
    (guard : Cluster σ → Action → Prop) (c : Cluster σ) : Prop :=
  ∃ c₀, Initial ms c₀ ∧ Run ms sm guard c₀ c

/-- No condition on the steps. -/
def anyStep (_ : Cluster σ) (_ : Action) : Prop :=
  True
  deriving Decidable

/-- Execute a list of actions, as long as each of them is enabled and satisfies
`guard`. -/
def exec (ms : Membership) (sm : StateMachine σ) (guard : Cluster σ → Action → Prop)
    [∀ c a, Decidable (guard c a)] (c : Cluster σ) : List Action → Option (Cluster σ)
  | [] => some c
  | a :: rest =>
    if c.Enabled ms a ∧ guard c a then
      match c.step sm a with
      | .ok c' => c'.exec ms sm guard rest
      | .error _ => none
    else none

section Exec

variable {ms : Membership} {sm : StateMachine σ} {guard : Cluster σ → Action → Prop}
  [∀ c a, Decidable (guard c a)] {c c' : Cluster σ} {actions : List Action}

/-- An execution is a run. -/
theorem run_of_exec (eq : c.exec ms sm guard actions = some c') : Run ms sm guard c c' := by
  induction actions generalizing c with
  | nil =>
    cases eq
    exact .refl
  | cons a rest ih =>
    rw [exec] at eq
    split at eq
    · rename_i allowed
      split at eq
      · rename_i c₁ stepped
        exact .head ⟨a, allowed.1, allowed.2, stepped⟩ (ih eq)
      · nomatch eq
    · nomatch eq

variable {P : Cluster σ → Prop}

variable (sm guard) in
/-- What holds at the end of an execution holds at the end of some run. -/
theorem exists_reachable_of_exec (init : c.Initial ms) (actions : List Action)
    (runs : ∃ c', c.exec ms sm guard actions = some c' ∧ P c') :
    ∃ c', Reachable ms sm guard c' ∧ P c' := by
  obtain ⟨c', executed, holds⟩ := runs
  exact ⟨c', ⟨c, init, run_of_exec executed⟩, holds⟩

end Exec

end Cluster

/-- Members that call an election and send heartbeats on every tick. -/
def Membership.eager (ids : List NodeID) (distinct : ids.Nodup) : Membership where
  ids := ids
  config id :=
    { nodeID := id, peers := ids.erase id, heartbeatTick := 1, electionTick := 1 }
  ids_nodup := distinct
  config_nodeID _ _ := rfl
  config_peers _ _ := .refl _

/-- The fresh cluster of a membership whose random draws are all zero. -/
def Cluster.fresh {σ : Type} (ms : Membership) (storage : σ) : Cluster σ where
  nodes id :=
    { raft :=
        { config := ms.config id
          id := (ms.config id).nodeID
          electionTimeout := (ms.config id).electionTick
          rng := fun _ => 0 }
      storage := storage }

theorem Cluster.fresh_initial {σ : Type} (ms : Membership) (storage : σ)
    (positive : ∀ id ∈ ms.ids, 0 < (ms.config id).electionTick) :
    (Cluster.fresh ms storage).Initial ms := by
  refine ⟨fun id member => ⟨storage, fun _ => 0, ?_⟩, rfl, rfl, rfl, rfl⟩
  have draws : Rng.intn (fun _ => 0) (ms.config id).electionTick = .ok (0, fun _ => 0) := by
    rw [Rng.intn, if_neg (Int.not_le.mpr (positive id member))]
    simp
  simp [RaftNode.new, Raft.new, Raft.becomeFollower, Raft.resetElectionTimeout, draws, fresh,
    bind, Except.bind, pure, Except.pure]

end Hermes.Raft
