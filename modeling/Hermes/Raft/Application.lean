import Hermes.Raft.Totality
import Hermes.Raft.Safety

/-!
# What nodes have applied

A node applies the entries of its log one after the other and never goes back: what it
has applied stays where it is.
-/

namespace Hermes.Raft

open List
open Replication (Inv)
open Cluster (Reachable Run anyStep)

variable {σ : Type} {A : Assumptions} {ms : Membership} {sm : StateMachine σ}
  {s : Replication.State NodeID LogEntry}

/-- The entries of a batch stand behind the index that it starts from. -/
theorem AppendOK.behind {m : Message} {log : List LogEntry} (inv : Inv ms.rules s)
    (append : AppendOK A ms s.toHistory m log) {entry : LogEntry} (mem : entry ∈ m.entries) :
    m.logIndex < entry.index := by
  obtain ⟨before, after, batch⟩ := append_of_mem mem
  have inBatch : before ++ [entry] <+: m.entries := by
    refine ⟨after, ?_⟩
    rw [batch, append_assoc]
    rfl
  obtain ⟨rest, split⟩ := inBatch.trans append.entries
  have inLog : log.take m.logIndex ++ before ++ [entry] <+: log := by
    refine ⟨rest, ?_⟩
    rw [append_assoc, append_assoc, ← append_assoc before, split,
      take_append_drop]
  have inside : m.logIndex ≤ log.length := by
    rcases append.previous with ⟨bound, _⟩ | ⟨empty, _⟩
    · exact bound
    · rw [empty] at mem
      nomatch mem
  have fits : Fits (log.take m.logIndex ++ before) entry :=
    (inv.logs.leaderLog append.leader).fits _ entry inLog
  have index := fits.1
  rw [length_append, length_take] at index
  omega

theorem MsgOK.ordinary {m : Message} (inv : Inv ms.rules s) (ok : MsgOK A ms s.toHistory m) :
    Ordinary m := by
  have fact := ok.fact
  constructor
  · intro isSnapshot
    rw [MsgFact, isSnapshot] at fact
    exact fact
  · intro isAppend entry mem
    rw [MsgFact, isAppend] at fact
    obtain ⟨log, append⟩ := fact
    exact append.behind inv mem

/-- A node has applied more entries, and its counters say so. -/
structure RaftNode.Advances (n n' : RaftNode σ) (more : List LogEntry) : Prop where
  entries : n'.raft.log.appliedPart = n.raft.log.appliedPart ++ more
  appliedIndex : n.appliedIndex = n.raft.log.applied → n'.appliedIndex = n'.raft.log.applied

namespace RaftNode

variable {n n' n'' : RaftNode σ}

theorem Advances.of_extends {raft : Raft} (wf : n.raft.log.WellFormed)
    (extends' : n.raft.log.Extends raft.log) : n.Advances { n with raft := raft } [] where
  entries := by
    rw [append_nil]
    exact extends'.appliedPart_eq wf.regular
  appliedIndex := by
    intro index
    exact index.trans extends'.applied.symm

theorem Advances.of_ready {rd : Ready} (wf : n.raft.log.WellFormed)
    (taken : n.ready sm = .ok (rd, n')) : n.Advances n' rd.committedEntries := by
  have processed := Processed.of_ready wf.regular taken
  constructor
  · rw [processed.committedEntries, processed.raft]
    exact (wf.regular.appliedPart_append_pending wf.applied_le).symm
  · intro index
    rw [processed.raft]
    exact processed.appliedIndex index

theorem Advances.trans {more more' : List LogEntry} (first : n.Advances n' more)
    (second : n'.Advances n'' more') : n.Advances n'' (more ++ more') where
  entries := by rw [second.entries, first.entries, append_assoc]
  appliedIndex := fun index => second.appliedIndex (first.appliedIndex index)

end RaftNode

/-! ## Steps of a cluster -/

/-- The node that acts. -/
def Action.actor : Action → NodeID
  | .tick id => id
  | .propose id _ => id
  | .deliver m => m.toID
  | .ready id => id

variable {id : NodeID}

namespace ClusterOK

variable {c c' : Cluster σ}

/-- The node that steps on a proposal of its own. -/
theorem proposal_spec (ok : ClusterOK A ms c s) (member : id ∈ ms.ids) {entries : List LogEntry}
    {raft : Raft} {err : Option String}
    (stepped : (c.nodes id).raft.step ((c.nodes id).proposal entries) = .ok (raft, err)) :
    raft.log.WellFormed ∧ (c.nodes id).raft.log.Extends raft.log := by
  have node := ok.nodes id member
  obtain ⟨s', _, _, node'⟩ := ok.simulates_proposal member stepped
  have ordinary : Ordinary ((c.nodes id).proposal entries) :=
    ⟨nofun, nofun⟩
  exact ⟨node'.wellFormed, (step_extends node.wellFormed.bounded ordinary stepped).1⟩

/-- A step changes the state of one node, which may apply more entries of its log. -/
theorem step_advances (ok : ClusterOK A ms c s) {a : Action} (enabled : c.Enabled ms a)
    (eq : c.step sm a = .ok c') :
    ∃ n rd, c' = c.observe a.actor n rd ∧
      (c.nodes a.actor).Advances n rd.committedEntries := by
  cases Cluster.moves_of_step eq with
  | tick ran =>
    have wf := (ok.nodes _ enabled).wellFormed
    exact ⟨_, {}, rfl, .of_extends wf (tick_extends wf.bounded ran).1⟩
  | @deliver m _ _ ran =>
    have wf := (ok.nodes _ enabled.2).wellFormed
    have ordinary := (ok.sent m enabled.1).ordinary ok.inv
    exact ⟨_, {}, rfl, .of_extends wf (step_extends wf.bounded ordinary ran).1⟩
  | ready taken => exact ⟨_, _, rfl, .of_ready (ok.nodes _ enabled).wellFormed taken⟩
  | rejected stepped =>
    obtain ⟨_, grown⟩ := ok.proposal_spec enabled stepped
    exact ⟨_, {}, rfl, .of_extends (ok.nodes _ enabled).wellFormed grown⟩
  | @accepted id _ raft _ _ stepped taken =>
    obtain ⟨wf', grown⟩ := ok.proposal_spec enabled stepped
    have first : (c.nodes id).Advances { c.nodes id with raft := raft } [] :=
      .of_extends (ok.nodes id enabled).wellFormed grown
    exact ⟨_, _, rfl, first.trans (.of_ready wf' taken)⟩

/-- An enabled action never panics, once the election timeouts are positive. -/
theorem step_succeeds (ok : ClusterOK A ms c s)
    (ticks : ∀ id ∈ ms.ids, 0 < (ms.config id).electionTick) {a : Action}
    (enabled : c.Enabled ms a) : Succeeds (c.step sm a) := by
  have timeout : ∀ id ∈ ms.ids, 0 < (c.nodes id).raft.config.electionTick := by
    intro id member
    rw [(ok.nodes id member).config_eq]
    exact ticks id member
  cases a with
  | tick id =>
    have node := ok.nodes id enabled
    apply Succeeds.bind
    · apply (tick_succeeds node.wellFormed.snapshotIndex_eq (timeout id enabled)).bind
      intro raft _
      exact .ok _
    · intro n _
      exact .ok _
  | deliver m =>
    have node := ok.nodes _ enabled.2
    have notRead : m.type ≠ .readIndex := by
      intro isRead
      have fact := (ok.sent m enabled.1).fact
      rw [MsgFact, isRead] at fact
      exact fact
    apply Succeeds.bind
    · apply (Raft.step_succeeds (timeout _ enabled.2) node.wellFormed notRead).bind
      intro result _
      exact .ok _
    · intro n _
      exact .ok _
  | ready id =>
    obtain ⟨rd, n, taken, _⟩ := RaftNode.ready_processed sm (ok.nodes id enabled).wellFormed.regular
    exact Succeeds.bind ⟨_, taken⟩ fun _ _ => .ok _
  | propose id entries =>
    have node := ok.nodes id enabled
    have notRead : ((c.nodes id).proposal entries).type ≠ .readIndex := by
      show MsgType.propose ≠ MsgType.readIndex
      decide
    apply Succeeds.bind
    · apply (Raft.step_succeeds (timeout id enabled) node.wellFormed notRead).bind
      rintro ⟨raft, err⟩ stepped
      cases err with
      | some text => exact .ok _
      | none =>
        obtain ⟨wf', _⟩ := ok.proposal_spec enabled stepped
        obtain ⟨rd, n, taken, _⟩ :=
          RaftNode.ready_processed sm (n := { c.nodes id with raft := raft }) wf'.regular
        exact Succeeds.bind ⟨_, taken⟩ fun _ _ => .ok _
    · intro result _
      exact .ok _

end ClusterOK

/-! ## Runs -/

/-- The entries that a node has handed to `applyEntries`, in order. -/
def Cluster.handed (c : Cluster σ) (id : NodeID) : List LogEntry :=
  (c.applied.filter fun pair => pair.1 = id).map Prod.snd

theorem Cluster.handed_observe_self (c : Cluster σ) (id : NodeID) (n : RaftNode σ)
    (ready : Ready) : (c.observe id n ready).handed id = c.handed id ++ ready.committedEntries := by
  simp [handed, observe, filter_map]

theorem Cluster.handed_observe_of_ne {p : NodeID} (other : p ≠ id) (c : Cluster σ) (n : RaftNode σ)
    (ready : Ready) : (c.observe id n ready).handed p = c.handed p := by
  simp [handed, observe, other.symm]

/-- The storage of the node that acts is what the entries it hands on make of it. -/
theorem Cluster.step_storage {c c' : Cluster σ} {a : Action} (eq : c.step sm a = .ok c') :
    ∃ n rd, c' = c.observe a.actor n rd ∧
      n.storage = sm.applyAll (c.nodes a.actor).storage rd.committedEntries := by
  cases moves_of_step eq with
  | tick _ | deliver _ | rejected _ => exact ⟨_, {}, rfl, rfl⟩
  | ready taken => exact ⟨_, _, rfl, (RaftNode.ready_taken taken).2.2⟩
  | accepted _ taken => exact ⟨_, _, rfl, (RaftNode.ready_taken taken).2.2⟩

/-- Every member has applied what it has handed on, and counts it in both places. -/
def Cluster.AppliedOK (ms : Membership) (c : Cluster σ) : Prop :=
  ∀ id ∈ ms.ids, c.handed id = (c.nodes id).raft.log.appliedPart ∧
    (c.nodes id).appliedIndex = (c.nodes id).raft.log.applied

variable {c : Cluster σ}

theorem Cluster.AppliedOK.observe {n : RaftNode σ} {rd : Ready} (ok : c.AppliedOK ms)
    (advances : (c.nodes id).Advances n rd.committedEntries) :
    (c.observe id n rd).AppliedOK ms := by
  intro p member
  obtain ⟨handed, index⟩ := ok p member
  by_cases same : p = id
  · subst same
    rw [handed_observe_self, observe_nodes_self, handed]
    exact ⟨advances.entries.symm, advances.appliedIndex index⟩
  · rw [handed_observe_of_ne same, observe_nodes_of_ne same]
    exact ⟨handed, index⟩

theorem Cluster.AppliedOK.initial (init : c.Initial ms) : c.AppliedOK ms := by
  intro id member
  obtain ⟨nodes, _, applied, _⟩ := init
  obtain ⟨storage, rng, created⟩ := nodes id member
  obtain ⟨raft, new, same⟩ := bind_eq_ok.mp created
  rw [← Except.ok.inj same]
  have log : raft.log = .new := (SameView.resetElectionTimeout new).log
  rw [handed, applied, log]
  exact ⟨rfl, rfl⟩

/-- A node whose election timeout is not positive cannot be created. -/
theorem Cluster.Initial.ticks (init : c.Initial ms) :
    ∀ id ∈ ms.ids, 0 < (ms.config id).electionTick := by
  intro id member
  obtain ⟨storage, rng, created⟩ := init.1 id member
  obtain ⟨raft, new, _⟩ := bind_eq_ok.mp created
  obtain ⟨draw, drawn, _⟩ := bind_eq_ok.mp new
  by_contra notPositive
  have panics : rng.intn (ms.config id).electionTick = .error .invalidIntn :=
    if_pos (Int.not_lt.mp notPositive)
  have drawn : rng.intn (ms.config id).electionTick = .ok draw := drawn
  rw [panics] at drawn
  nomatch drawn

theorem ClusterOK.run_applied {c' : Cluster σ} (ok : ClusterOK ⟨False, False⟩ ms c s)
    (applied : c.AppliedOK ms) (run : Run ms sm anyStep c c') :
    ∃ s', ClusterOK ⟨False, False⟩ ms c' s' ∧ c'.AppliedOK ms := by
  induction run with
  | refl => exact ⟨s, ok, applied⟩
  | tail _ next ih =>
    obtain ⟨s₁, ok₁, applied₁⟩ := ih
    obtain ⟨a, enabled, _, stepped⟩ := next
    obtain ⟨s₂, ok₂, _⟩ := ok₁.step enabled False.elim False.elim stepped
    obtain ⟨n, rd, rfl, advances⟩ := ok₁.step_advances enabled stepped
    exact ⟨s₂, ok₂, applied₁.observe advances⟩

theorem RaftLog.WellFormed.appliedPart_eq {l : RaftLog} (wf : l.WellFormed) :
    l.appliedPart = l.body.take l.applied := by
  rw [appliedPart, wf.snapshotIndex_eq, wf.entries_eq, Nat.sub_zero, take_succ_cons, tail_cons]

/-- The applied entries of a well-formed log are numbered from one on. -/
theorem RaftLog.WellFormed.map_index_appliedPart {l : RaftLog} (wf : l.WellFormed) :
    l.appliedPart.map LogEntry.index = List.range' 1 l.applied := by
  have inside := wf.applied_le.trans wf.committed_le
  rw [wf.appliedPart_eq]
  apply ext_getElem
  · rw [length_map, length_take, length_range', min_eq_left inside]
  · intro i _ bound
    rw [length_range'] at bound
    rw [getElem_map, getElem_range', Nat.one_mul, Nat.add_comm, getElem_take]
    apply wf.index_eq
    rw [wf.entries_eq]
    exact getElem?_eq_getElem (bound.trans_le inside)

/-- Every node applies the entries of its log from index one to its applied index, each
once and in order, and no step of it panics. -/
theorem applied_in_order (named : ms.Named) {c : Cluster σ}
    (reachable : Reachable ms sm anyStep c) {id : NodeID} (member : id ∈ ms.ids) :
    (c.handed id).map LogEntry.index = List.range' 1 (c.nodes id).raft.log.applied ∧
      (∀ entry ∈ c.handed id, (c.nodes id).raft.log.entryAt entry.index = some entry) ∧
      (c.nodes id).appliedIndex = (c.nodes id).raft.log.applied ∧
      ∀ a, c.Enabled ms a → ∃ c', c.step sm a = .ok c' := by
  obtain ⟨c₀, init, run⟩ := reachable
  have start : ClusterOK ⟨False, False⟩ ms c₀ freshState := .initial named init False.elim
  obtain ⟨s, ok, applied⟩ := start.run_applied (.initial init) run
  have wf := (ok.nodes id member).wellFormed
  obtain ⟨handed, index⟩ := applied id member
  refine ⟨?_, ?_, index, ?_⟩
  · rw [handed]
    exact wf.map_index_appliedPart
  · intro entry mem
    rw [handed, wf.appliedPart_eq] at mem
    obtain ⟨i, inside⟩ := mem_iff_getElem?.mp (mem_of_mem_take mem)
    have atIndex : (c.nodes id).raft.log.entries[i + 1]? = some entry := by
      rw [wf.entries_eq]
      exact inside
    rw [wf.index_eq atIndex, wf.entryAt_eq]
    exact atIndex
  · intro a enabled
    exact ok.step_succeeds init.ticks enabled

theorem applied_in_order_trio : ∃ c, Reachable trio idle anyStep c ∧
    (c.nodes "a").raft.log.applied = 2 ∧
    (c.handed "a").map LogEntry.index = [1, 2] ∧ (c.nodes "a").appliedIndex = 2 := by
  obtain ⟨c, reachable, two⟩ := Cluster.exists_reachable_of_exec idle anyStep trio_initial
    (elect "a" "b" 1 ++ replicate "a" "b" 1 [120])
    (P := fun c => (c.nodes "a").raft.log.applied = 2) (by decide +kernel)
  obtain ⟨indices, _, index, _⟩ :=
    applied_in_order (by decide) reachable (by decide : "a" ∈ trio.ids)
  rw [two] at indices index
  exact ⟨c, reachable, two, indices, index⟩

end Hermes.Raft
