import Hermes.Data.Quorum
import Hermes.Membership.MemberList
import Hermes.Raft.Refinement.Roles

/-!
# Starting consensus from a view of the cluster

`startRaft` takes the peers of a node from the members that are alive in its own
list at that moment and never changes them afterwards.  Nodes with different
views therefore count their votes against different groups.
-/

open Hermes.Membership (MemberList Member)

namespace Hermes.Server

open Raft (NodeID)

/-- `getEnv`, over the values of the environment. -/
def getEnv (env : String → String) (key defaultVal : String) : String :=
  if env key ≠ "" then env key else defaultVal

/-- The identifier that the server gives its node. -/
def nodeIDFromEnv (env : String → String) : NodeID :=
  getEnv env "HERMES_NODE_ID" "hermes-0"

theorem nodeIDFromEnv_ne_empty (env : String → String) : nodeIDFromEnv env ≠ "" := by
  unfold nodeIDFromEnv getEnv
  split
  · assumption
  · decide

/-- The fields of the server's `Config` that `startRaft` reads; durations are in
nanoseconds. -/
structure Config where
  nodeID : NodeID
  heartbeatInterval : Int := 50 * 1000000
  electionTimeout : Int := 150 * 1000000
  deriving DecidableEq, Repr

/-- The other members that are alive in the view. -/
def peerIDs (cfg : Config) (view : MemberList) : List NodeID :=
  (view.alive.map Member.nodeID).filter fun id => decide (id ≠ cfg.nodeID)

/-- The configuration with which `startRaft` creates the Raft node. -/
def startRaft (cfg : Config) (view : MemberList) : Raft.Config :=
  { Raft.defaultConfig cfg.nodeID (peerIDs cfg view) with
    heartbeatTick := cfg.heartbeatInterval.tdiv (10 * 1000000)
    electionTick := cfg.electionTimeout.tdiv (10 * 1000000) }

/-- The nodes whose votes a candidate can count: its own, and those of the peers
that `campaign` asks. -/
def electorate (cfg : Config) (view : MemberList) : Finset NodeID :=
  insert cfg.nodeID (peerIDs cfg view).toFinset

theorem card_electorate (cfg : Config) (view : MemberList) :
    (electorate cfg view).card = 1 + (peerIDs cfg view).length := by
  have distinct : (peerIDs cfg view).Nodup := view.nodup_alive.filter _
  have others : cfg.nodeID ∉ (peerIDs cfg view).toFinset := by
    simp [peerIDs]
  rw [electorate, Finset.card_insert_of_notMem others, List.toFinset_card_of_nodup distinct,
    Nat.add_comm]

/-- The voters that a map of votes counts as granted. -/
def supporters (votes : AList fun _ : NodeID => Bool) : Finset NodeID :=
  Raft.keysWith votes fun vote => vote.2

theorem exists_supporters_eq (A : Finset NodeID) : ∃ votes, supporters votes = A := by
  have distinct : (A.toList.map fun id => (⟨id, true⟩ : Σ _ : NodeID, Bool)).NodupKeys := by
    rw [List.NodupKeys, List.keys]
    simpa [Function.comp_def] using A.nodup_toList
  refine ⟨⟨_, distinct⟩, ?_⟩
  ext id
  simp [supporters, Raft.keysWith]

section Quorums

variable {cfg : Config} {view : MemberList} {r : Raft}

/-- `hasQuorum` asks for more than half of the electorate. -/
theorem hasQuorum_iff_card (started : r.config = startRaft cfg view)
    (votes : AList fun _ : NodeID => Bool) :
    r.hasQuorum votes = true ↔ (electorate cfg view).card / 2 + 1 ≤ (supporters votes).card := by
  rw [r.hasQuorum_iff, started, supporters, Raft.card_keysWith, card_electorate]
  change 1 + (peerIDs cfg view).length < _ ↔ _
  omega

end Quorums

/-- Quorums of two nodes always have a voter in common if and only if the nodes'
views overlap enough: what their majorities need beyond the voters that only one
of them knows exceeds the voters that both know. -/
theorem startRaft_quorums_meet_iff {cfgA cfgB : Config} {viewA viewB : MemberList}
    {a b : Raft} (startedA : a.config = startRaft cfgA viewA)
    (startedB : b.config = startRaft cfgB viewB) :
    (∀ votesA votesB, supporters votesA ⊆ electorate cfgA viewA →
      supporters votesB ⊆ electorate cfgB viewB → a.hasQuorum votesA = true →
      b.hasQuorum votesB = true → (supporters votesA ∩ supporters votesB).Nonempty) ↔
      (electorate cfgA viewA ∩ electorate cfgB viewB).card <
        ((electorate cfgA viewA).card / 2 + 1 -
          (electorate cfgA viewA \ electorate cfgB viewB).card) +
        ((electorate cfgB viewB).card / 2 + 1 -
          (electorate cfgB viewB \ electorate cfgA viewA).card) := by
  rw [← quorums_meet_iff]
  simp only [hasQuorum_iff_card startedA, hasQuorum_iff_card startedB]
  constructor
  · intro meet A inA B inB sizeA sizeB
    obtain ⟨votesA, rfl⟩ := exists_supporters_eq A
    obtain ⟨votesB, rfl⟩ := exists_supporters_eq B
    exact meet votesA votesB inA inB sizeA sizeB
  · intro meet votesA votesB inA inB sizeA sizeB
    exact meet _ inA _ inB sizeA sizeB

/-- The list of a node that has heard from all the others. -/
def informed (localID : NodeID) (others : List NodeID) : MemberList :=
  others.foldl
    (fun ml id => (ml.applyUpdate { nodeID := id, state := .alive, incarnation := 1 } 0).1)
    (MemberList.new localID 0)

theorem startRaft_quorums_meet_informed :
    ∃ a b : Raft, a.config = startRaft { nodeID := "a" } (informed "a" ["b", "c"]) ∧
      b.config = startRaft { nodeID := "b" } (informed "b" ["a", "c"]) ∧
      ∀ votesA votesB,
        supporters votesA ⊆ electorate { nodeID := "a" } (informed "a" ["b", "c"]) →
        supporters votesB ⊆ electorate { nodeID := "b" } (informed "b" ["a", "c"]) →
        a.hasQuorum votesA = true → b.hasQuorum votesB = true →
        (supporters votesA ∩ supporters votesB).Nonempty := by
  refine ⟨{ config := startRaft { nodeID := "a" } (informed "a" ["b", "c"]), id := "a",
            rng := fun _ => 0 },
    { config := startRaft { nodeID := "b" } (informed "b" ["a", "c"]), id := "b",
      rng := fun _ => 0 }, rfl, rfl, ?_⟩
  apply (startRaft_quorums_meet_iff rfl rfl).mpr
  decide +kernel

/-- Two nodes that start before they have heard of each other each elect themselves. -/
theorem startRaft_quorums_apart :
    ∃ a b : Raft, Raft.new (startRaft { nodeID := "a" } (.new "a" 0)) (fun _ => 0) = .ok a ∧
      Raft.new (startRaft { nodeID := "b" } (.new "b" 0)) (fun _ => 0) = .ok b ∧
      ∃ votesA votesB, supporters votesA = {"a"} ∧ supporters votesB = {"b"} ∧
        a.hasQuorum votesA = true ∧ b.hasQuorum votesB = true ∧
        supporters votesA ∩ supporters votesB = ∅ := by
  refine ⟨_, _, rfl, rfl, AList.singleton "a" true, AList.singleton "b" true, ?_⟩
  decide +kernel

end Hermes.Server
