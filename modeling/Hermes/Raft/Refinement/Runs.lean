import Hermes.Raft.Refinement.Steps
import Hermes.Raft.NodeCorrectness

/-!
# Runs of a cluster as runs of the abstract protocol

Every reachable cluster has an abstract state that its nodes implement, its
messages report and its history variables record.  The relation is kept by every
action, hence along every run.
-/

namespace Hermes.Raft

open List
open Replication (Inv Step Steps)

variable {σ : Type} {A : Assumptions} {ms : Membership} {sm : StateMachine σ}
  {s : Replication.State NodeID LogEntry} {id : NodeID}

namespace Cluster

/-- A heartbeat that moves the commit index moves it over entries that the
follower shares with the leader of the heartbeat's term. -/
def HeartbeatsAgree (c : Cluster σ) : Action → Prop
  | .deliver m =>
    let r := (c.nodes m.toID).raft
    m.type = .heartbeat → r.term ≤ m.term → r.log.committed < m.commitIndex →
      r.log.entries.take (min m.commitIndex r.log.lastIndex + 1) <+: c.leaderLog m.term
  | _ => True

/-- A node that grants a vote in a higher term knows no leader, or it already
knows the leader of that term. -/
def LeadsKept (c : Cluster σ) : Action → Prop
  | .deliver m =>
    let r := (c.nodes m.toID).raft
    m.type = .vote → r.canVote m = true →
      r.log.isUpToDate m.lastLogIndex m.lastLogTerm = true → r.term < m.term →
      r.lead ≠ "" → (r.lead, m.term) ∈ c.elected
  | _ => True

instance (c : Cluster σ) : DecidablePred c.HeartbeatsAgree := by
  rintro ⟨⟩ <;> delta HeartbeatsAgree <;> infer_instance

instance (c : Cluster σ) : DecidablePred c.LeadsKept := by
  rintro ⟨⟩ <;> delta LeadsKept <;> infer_instance

end Cluster

/-- The cluster `c` implements the abstract state `s`. -/
structure ClusterOK (A : Assumptions) (ms : Membership) (c : Cluster σ)
    (s : Replication.State NodeID LogEntry) : Prop where
  inv : Inv ms.rules s
  nodes : ∀ id ∈ ms.ids, NodeOK A ms s id (c.nodes id).raft
  sent : ∀ m ∈ c.sent, MsgOK A ms s.toHistory m
  leaderLog : ∀ {t p log}, s.leader t = some (p, log) → c.leaderLog t = {} :: log
  elected : ∀ {p t}, (p, t) ∈ c.elected ↔ ∃ log, s.leader t = some (p, log)
  applied : A.matching → ∀ p entry, (p, entry) ∈ c.applied →
    ∃ T before, s.Chosen ms.rules T (before ++ [entry]) ∧ entry.index = before.length + 1

/-! ## Taking what is ready -/

section Ready

variable {n n' : RaftNode σ} {rd : Ready}

/-- What a node applies has been chosen. -/
def AppliesChosen (A : Assumptions) (ms : Membership)
    (s : Replication.State NodeID LogEntry) (rd : Ready) : Prop :=
  A.matching → ∀ entry ∈ rd.committedEntries,
    ∃ T before, s.Chosen ms.rules T (before ++ [entry]) ∧ entry.index = before.length + 1

theorem NodeOK.appliesChosen {r : Raft} (ok : NodeOK A ms s id r)
    (eq : rd.committedEntries = r.log.pending r.log.committed) : AppliesChosen A ms s rd := by
  intro matching entry mem
  have wf := ok.wellFormed
  rw [eq, RaftLog.pending, wf.snapshotIndex_eq, wf.entries_eq, Nat.sub_zero, Nat.sub_zero,
    take_succ_cons, drop_succ_cons] at mem
  obtain ⟨first, rest, split⟩ := append_of_mem (mem_of_mem_drop mem)
  have inCommitted : first ++ [entry] <+: r.log.body.take r.log.committed :=
    ⟨rest, by simp [split]⟩
  exact ⟨r.term, first, (ok.committed matching).of_isPrefix inCommitted le_rfl,
    (wf.fits _ _ (inCommitted.trans (List.take_prefix _ _))).1⟩

theorem NodeOK.ready (ok : NodeOK A ms s id n.raft) (eq : n.ready sm = .ok (rd, n')) :
    NodeOK A ms s id n'.raft ∧ (∀ m ∈ rd.messages, MsgOK A ms s.toHistory m) ∧
      AppliesChosen A ms s rd := by
  have wf := ok.wellFormed
  have processed := RaftNode.Processed.of_ready wf.regular eq
  refine ⟨?_, processed.messages ▸ ok.msgs, ok.appliesChosen processed.committedEntries⟩
  rw [processed.raft]
  exact { ok with
    wellFormed := { wf with applied_le := le_rfl }
    msgs := fun m mem => nomatch mem }

end Ready

/-! ## Actions -/

/-- What a step does that does not panic. -/
inductive Cluster.Moves (sm : StateMachine σ) (c : Cluster σ) : Action → Cluster σ → Prop where
  | tick {id : NodeID} {raft : Raft} (ran : (c.nodes id).raft.tick = .ok raft) :
    Moves sm c (.tick id) (c.observe id { c.nodes id with raft := raft } {})
  | deliver {m : Message} {raft : Raft} {err : Option String}
    (ran : (c.nodes m.toID).raft.step m = .ok (raft, err)) :
    Moves sm c (.deliver m) (c.observe m.toID { c.nodes m.toID with raft := raft } {})
  | ready {id : NodeID} {rd : Ready} {n : RaftNode σ}
    (taken : (c.nodes id).ready sm = .ok (rd, n)) :
    Moves sm c (.ready id) (c.observe id n rd)
  | rejected {id : NodeID} {entries : List LogEntry} {raft : Raft} {text : String}
    (stepped : (c.nodes id).raft.step ((c.nodes id).proposal entries) =
      .ok (raft, some text)) :
    Moves sm c (.propose id entries) (c.observe id { c.nodes id with raft := raft } {})
  | accepted {id : NodeID} {entries : List LogEntry} {raft : Raft} {rd : Ready}
    {n : RaftNode σ}
    (stepped : (c.nodes id).raft.step ((c.nodes id).proposal entries) = .ok (raft, none))
    (taken : RaftNode.ready sm { c.nodes id with raft := raft } = .ok (rd, n)) :
    Moves sm c (.propose id entries) (c.observe id n rd)

theorem Cluster.moves_of_step {c c' : Cluster σ} {a : Action} (eq : c.step sm a = .ok c') :
    c.Moves sm a c' := by
  cases a with
  | tick id =>
    obtain ⟨n, ticked, same⟩ := bind_eq_ok.mp eq
    cases same
    obtain ⟨raft, ran, same⟩ := bind_eq_ok.mp ticked
    cases same
    exact .tick ran
  | deliver m =>
    obtain ⟨n, stepped, same⟩ := bind_eq_ok.mp eq
    cases same
    obtain ⟨⟨raft, err⟩, ran, same⟩ := bind_eq_ok.mp stepped
    cases same
    exact .deliver ran
  | ready id =>
    obtain ⟨⟨rd, n⟩, taken, same⟩ := bind_eq_ok.mp eq
    cases same
    exact .ready taken
  | propose id entries =>
    obtain ⟨⟨n, rd, err⟩, proposed, same⟩ := bind_eq_ok.mp eq
    cases same
    obtain ⟨⟨raft, err⟩, stepped, rest⟩ := bind_eq_ok.mp proposed
    cases err with
    | some text =>
      cases rest
      exact .rejected stepped
    | none =>
      obtain ⟨⟨rd', n'⟩, taken, same⟩ := bind_eq_ok.mp rest
      cases same
      exact .accepted stepped taken

variable {n : RaftNode σ}

namespace ClusterOK

variable {c c' : Cluster σ}

/-- Recording the new state of a node and what it sent and applied. -/
theorem observe (ok : ClusterOK A ms c s) {s' : Replication.State NodeID LogEntry} {ready : Ready}
    (run : Steps ms.rules id s s') (announced : Announced s s' id) (node : NodeOK A ms s' id n.raft)
    (messages : ∀ m ∈ ready.messages, MsgOK A ms s'.toHistory m)
    (applies : AppliesChosen A ms s' ready) : ClusterOK A ms (c.observe id n ready) s' := by
  obtain ⟨inv', le⟩ := ok.inv.steps run
  have leads : n.raft.state = .leader →
      s'.leader n.raft.term = some (id, n.raft.log.body) := node.leader_log inv'
  have changed : ∀ {t}, s'.leader t ≠ s.leader t → n.raft.state = .leader ∧ t = n.raft.term := by
    intro t differs
    obtain ⟨termEq, role⟩ := (announced t).resolve_left differs
    rw [node.replica_eq] at termEq role
    exact ⟨by simpa [replica] using role, termEq⟩
  refine ⟨inv', ?_, ?_, ?_, ?_, ?_⟩
  · intro q member
    by_cases same : q = id
    · subst same
      simpa [Cluster.observe] using node
    · have other := (ok.nodes q member).mono ok.inv le (run.replica_of_ne same)
      simpa [Cluster.observe, same] using other
  · intro m mem
    rcases mem_append.mp mem with old | new
    · exact (ok.sent m old).mono ok.inv le
    · exact messages m new
  · intro t p log leader
    by_cases now : n.raft.state = .leader ∧ t = n.raft.term
    · obtain ⟨role, rfl⟩ := now
      rw [leads role] at leader
      cases leader
      simp only [Cluster.observe, role, if_true, Function.update_self]
      exact node.wellFormed.entries_eq
    · have before : s.leader t = some (p, log) := by
        by_contra differs
        exact now (changed fun same => differs (same ▸ leader))
      have unchanged : (c.observe id n ready).leaderLog t = c.leaderLog t := by
        simp only [Cluster.observe]
        split
        · rename_i role
          exact Function.update_of_ne (fun eq => now ⟨role, eq⟩) _ _
        · rfl
      rw [unchanged]
      exact ok.leaderLog before
  · intro p t
    have recorded : (p, t) ∈ (c.observe id n ready).elected ↔
        (p, t) ∈ c.elected ∨ n.raft.state = .leader ∧ p = id ∧ t = n.raft.term := by
      simp only [Cluster.observe]
      split <;> simp [*]
    rw [recorded]
    constructor
    · rintro (old | ⟨role, rfl, rfl⟩)
      · obtain ⟨log, leader⟩ := ok.elected.mp old
        obtain ⟨log', leader', _⟩ := le.leader leader
        exact ⟨log', leader'⟩
      · exact ⟨_, leads role⟩
    · rintro ⟨log, leader⟩
      by_cases same : s'.leader t = s.leader t
      · exact .inl (ok.elected.mpr ⟨log, same ▸ leader⟩)
      · obtain ⟨role, rfl⟩ := changed same
        rw [leads role] at leader
        cases leader
        exact .inr ⟨role, rfl, rfl⟩
  · intro matching p entry mem
    rcases mem_append.mp mem with old | new
    · obtain ⟨T, before, chosen, indexEq⟩ := ok.applied matching p entry old
      exact ⟨T, before, ok.inv.chosen_mono le chosen, indexEq⟩
    · obtain ⟨e, inReady, same⟩ := mem_map.mp new
      cases same
      exact applies matching _ inReady

theorem guarded (ok : ClusterOK A ms c s) {m : Message} (member : m.toID ∈ ms.ids)
    (logs : A.matching → c.HeartbeatsAgree (.deliver m))
    (leads : A.lead → c.LeadsKept (.deliver m)) :
    Guarded A s (c.nodes m.toID).raft m := by
  have wf := (ok.nodes _ member).wellFormed
  refine ⟨?_, ?_⟩
  · intro matching isHeartbeat reached above log leader
    have agree := logs matching isHeartbeat reached above
    rw [wf.entries_eq, ok.leaderLog leader, wf.lastIndex_eq] at agree
    exact (cons_prefix_cons.mp agree).2
  · intro assumed isVote canVote upToDate higher known
    exact ok.elected.mp (leads assumed isVote canVote upToDate higher known)

/-- A node that steps on a proposal of its own simulates the protocol. -/
theorem simulates_proposal (ok : ClusterOK A ms c s) (member : id ∈ ms.ids)
    {entries : List LogEntry} {raft : Raft} {err : Option String}
    (stepped : (c.nodes id).raft.step ((c.nodes id).proposal entries) = .ok (raft, err)) :
    Simulated A ms s id raft := by
  have node := ok.nodes id member
  have sender : ((c.nodes id).proposal entries).fromID ∈ ms.ids := by
    simp only [RaftNode.proposal, node.config_eq, ms.config_nodeID id member]
    exact member
  have atRole : (c.nodes id).raft.stepRole ((c.nodes id).proposal entries) = .ok (raft, err) :=
    stepped
  exact node.stepRolePropose ok.inv rfl sender (.inl rfl) atRole

/-- Every enabled action that meets the assumed guards keeps the relation. -/
theorem step (ok : ClusterOK A ms c s) {a : Action} (enabled : c.Enabled ms a)
    (logs : A.matching → c.HeartbeatsAgree a) (leads : A.lead → c.LeadsKept a)
    (eq : c.step sm a = .ok c') :
    ∃ s', ClusterOK A ms c' s' ∧ ∃ p, Steps ms.rules p s s' := by
  -- an action that hands no messages and no entries on
  have quiet : ∀ {id : NodeID} {n : RaftNode σ}, Simulated A ms s id n.raft →
      ∃ s', ClusterOK A ms (c.observe id n {}) s' ∧ ∃ p, Steps ms.rules p s s' := by
    rintro id n ⟨s', run, announced, node⟩
    exact ⟨s', ok.observe run announced node (fun m mem => nomatch mem)
      (fun _ entry mem => nomatch mem), id, run⟩
  cases Cluster.moves_of_step eq with
  | tick ran => exact quiet ((ok.nodes _ enabled).tick ok.inv ran)
  | @deliver m _ _ ran =>
    exact quiet ((ok.nodes _ enabled.2).step ok.inv (ok.sent m enabled.1) rfl ran
      (ok.guarded enabled.2 logs leads))
  | @ready id _ _ taken =>
    obtain ⟨node, messages, applies⟩ := (ok.nodes id enabled).ready taken
    exact ⟨s, ok.observe .refl (fun _ => .inl rfl) node messages applies, id, .refl⟩
  | rejected stepped => exact quiet (ok.simulates_proposal enabled stepped)
  | accepted stepped taken =>
    obtain ⟨s', run, announced, node⟩ := ok.simulates_proposal enabled stepped
    obtain ⟨node', messages, applies⟩ :=
      NodeOK.ready (n := { c.nodes _ with raft := _ }) node taken
    exact ⟨s', ok.observe run announced node' messages applies, _, run⟩

end ClusterOK

/-! ## Runs -/

/-- The abstract state of a cluster that has just been created. -/
def freshState : Replication.State NodeID LogEntry where
  votedFor _ _ := none
  stood _ _ := none
  leader _ := none
  acked _ _ _ := False
  replica _ :=
    { term := 0, role := .follower, vote := none, attached := False, log := [] }

theorem freshState_fresh : freshState.Fresh := by
  constructor <;> intros <;> first | rfl | exact not_false

/-- A new node implements a fresh replica. -/
theorem NodeOK.new (named : ms.Named) (member : id ∈ ms.ids)
    (batch : A.matching → 1 ≤ (ms.config id).maxEntriesToSend) {storage : σ} {rng : Rng}
    (eq : RaftNode.new (ms.config id) storage rng = .ok n) : NodeOK A ms freshState id n.raft := by
  obtain ⟨raft, created, same⟩ := bind_eq_ok.mp eq
  cases same
  have view := SameView.resetElectionTimeout created
  refine NodeOK.congr (r := { config := ms.config id, id := (ms.config id).nodeID, rng := rng })
    ?_ { view with }
  refine ⟨member, named, batch, rfl, ms.config_nodeID id member, ?_, RaftLog.wellFormed_new,
    (fun m mem => nomatch mem), fun known => absurd rfl known, fun active => absurd rfl active,
    fun _ => .inl rfl, fun _ known => absurd rfl known, fun q mem => ?_,
    (fun role => nomatch role), fun q mem => ?_, (fun role => nomatch role),
    (fun role => nomatch role), fun role => nomatch role⟩
  · simp [freshState, replica, NodeState.role, RaftLog.body, RaftLog.new]
  · exact absurd mem (AList.notMem_empty q)
  · exact absurd mem (AList.notMem_empty q)

namespace ClusterOK

variable {c c' : Cluster σ}

theorem initial (named : ms.Named) (init : c.Initial ms)
    (batch : A.matching → ∀ id ∈ ms.ids, 1 ≤ (ms.config id).maxEntriesToSend) :
    ClusterOK A ms c freshState := by
  obtain ⟨nodes, sent, applied, elected, _⟩ := init
  refine ⟨freshState_fresh.inv, fun id member => ?_, ?_, ?_, ?_, ?_⟩
  · obtain ⟨storage, rng, created⟩ := nodes id member
    exact .new named member (fun matching => batch matching id member) created
  · simp [sent]
  · simp [freshState]
  · simp [elected, freshState]
  · simp [applied]

variable {guard : Cluster σ → Action → Prop}

/-- Every run whose steps meet the assumed guards keeps the relation. -/
theorem run (ok : ClusterOK A ms c s)
    (guards : ∀ c a, guard c a → (A.matching → c.HeartbeatsAgree a) ∧ (A.lead → c.LeadsKept a))
    (steps : Cluster.Run ms sm guard c c') : ∃ s', ClusterOK A ms c' s' ∧ s.Le s'.toHistory := by
  induction steps with
  | refl => exact ⟨s, ok, .refl _⟩
  | tail _ next ih =>
    obtain ⟨s₁, ok₁, le₁⟩ := ih
    obtain ⟨a, enabled, holds, stepped⟩ := next
    obtain ⟨s₂, ok₂, p, moves⟩ := ok₁.step enabled (guards _ a holds).1 (guards _ a holds).2 stepped
    exact ⟨s₂, ok₂, le₁.trans (ok₁.inv.steps moves).2⟩

theorem of_reachable (named : ms.Named) (reachable : Cluster.Reachable ms sm guard c)
    (guards : ∀ c a, guard c a → (A.matching → c.HeartbeatsAgree a) ∧ (A.lead → c.LeadsKept a))
    (batch : A.matching → ∀ id ∈ ms.ids, 1 ≤ (ms.config id).maxEntriesToSend) :
    ∃ s, ClusterOK A ms c s := by
  obtain ⟨c₀, init, steps⟩ := reachable
  obtain ⟨s, ok, _⟩ := (ClusterOK.initial named init batch).run guards steps
  exact ⟨s, ok⟩

theorem of_anyStep (named : ms.Named) (reachable : Cluster.Reachable ms sm Cluster.anyStep c) :
    ∃ s, ClusterOK ⟨False, False⟩ ms c s :=
  of_reachable named reachable (fun _ _ _ => ⟨False.elim, False.elim⟩) False.elim

theorem of_heartbeatsAgree (named : ms.Named)
    (batch : ∀ id ∈ ms.ids, 1 ≤ (ms.config id).maxEntriesToSend)
    (reachable : Cluster.Reachable ms sm Cluster.HeartbeatsAgree c) :
    ∃ s, ClusterOK ⟨True, False⟩ ms c s :=
  of_reachable named reachable (fun _ _ holds => ⟨fun _ => holds, False.elim⟩) fun _ => batch

end ClusterOK

end Hermes.Raft
