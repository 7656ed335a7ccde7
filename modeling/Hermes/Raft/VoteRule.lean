import Hermes.Raft.Safety
import Hermes.Raft.Terms

/-!
# Who gets a vote

A vote of a term is to be granted to a candidate with a log that is up to date, unless the
voter has voted for another candidate in that term.  The code looks at the vote of whatever
term the voter is in, and at the leader that it remembers, so it refuses some votes that the
rule grants.
-/

namespace Hermes.Raft

open List
open Cluster (Reachable Run anyStep)

variable {σ : Type} {ms : Membership} {sm : StateMachine σ}

/-- A message that shows this vote has been sent, or is queued. -/
def Cluster.Voted (c : Cluster σ) (voter candidate : NodeID) (term : ℕ) : Prop :=
  ∃ x ∈ c.sent ++ (c.nodes voter).raft.msgs, Ballot x voter candidate term

/-! ## The vote of a node and the messages about it -/

namespace VotesOK

variable {sent : List Message} {p : NodeID} {r r' : Raft}

variable (ok : VotesOK sent p r)

include ok

/-- Handing the queue to the transport. -/
theorem flush (id : r'.id = r.id) (config : r'.config = r.config) (term : r'.term = r.term)
    (vote : r'.vote = r.vote) (msgs : r'.msgs = []) : VotesOK (sent ++ r.msgs) p r' := by
  refine ⟨id.trans ok.id, ?_, ?_, ?_⟩
  · rw [msgs]
    exact fun x mem => nomatch mem
  · rw [msgs, append_nil, term, vote]
    exact ok.agrees
  · rw [msgs, append_nil, term, vote, config]
    exact ok.shown

theorem foreign {new : List Message}
    (others : ∀ x ∈ new, ∀ candidate term, ¬ Ballot x p candidate term) :
    VotesOK (sent ++ new) p r := by
  refine ⟨ok.id, ok.own, ?_, ?_⟩
  · intro x mem candidate term ballot
    refine ok.agrees x ?_ candidate term ballot
    rcases mem_append.mp mem with was | queued
    · rcases mem_append.mp was with older | fresh
      · exact mem_append_left _ older
      · exact absurd ballot (others x fresh candidate term)
    · exact mem_append_right _ queued
  · rcases ok.shown with none | alone | ⟨x, mem, ballot⟩
    · exact .inl none
    · exact .inr (.inl alone)
    · refine .inr (.inr ⟨x, ?_, ballot⟩)
      simp only [mem_append] at mem ⊢
      tauto

end VotesOK

/-! ## Runs -/

/-- Every member's votes agree with the messages. -/
def Cluster.VotesOK (ms : Membership) (c : Cluster σ) : Prop :=
  ∀ p ∈ ms.ids, Raft.VotesOK c.sent p (c.nodes p).raft

variable {s : Replication.State NodeID LogEntry}

namespace Cluster.VotesOK

variable {c c' : Cluster σ} {id : NodeID}

theorem initial (init : c.Initial ms) : c.VotesOK ms := by
  obtain ⟨nodes, sent, -⟩ := init
  intro p member
  obtain ⟨storage, rng, created⟩ := nodes p member
  obtain ⟨raft, new, same⟩ := bind_eq_ok.mp created
  have view := SameView.resetElectionTimeout new
  have queue : raft.msgs = [] := view.msgs
  rw [← Except.ok.inj same, sent]
  refine ⟨view.id.trans (ms.config_nodeID p member), ?_, ?_, .inl view.vote⟩
  · rw [queue]
    exact fun x mem => nomatch mem
  · rw [queue]
    exact fun x mem => nomatch mem

section

variable (ok : c.VotesOK ms)

include ok

theorem observe {n : RaftNode σ} {rd : Ready}
    (node : Raft.VotesOK (c.sent ++ rd.messages) id n.raft)
    (own : ∀ x ∈ rd.messages, ∀ voter candidate term, Ballot x voter candidate term → voter = id) :
    (c.observe id n rd).VotesOK ms := by
  intro p member
  by_cases same : p = id
  · subst same
    rw [observe_nodes_self]
    exact node
  · rw [observe_nodes_of_ne same]
    refine (ok p member).foreign ?_
    intro x mem candidate term ballot
    exact same (own x mem p candidate term ballot)

/-- A node takes a step and hands nothing on. -/
theorem turn (member : id ∈ ms.ids) {raft : Raft} (turn : Turn (c.nodes id).raft raft) :
    (c.observe id { c.nodes id with raft := raft } {}).VotesOK ms := by
  refine ok.observe ?_ (fun x mem => nomatch mem)
  rw [append_nil]
  exact turn _ _ (ok id member)

/-- A node takes a step, possibly, and then hands on what is ready. -/
theorem ready (member : id ∈ ms.ids) {n n' : RaftNode σ} {rd : Ready}
    (turn : Turn (c.nodes id).raft n.raft) (processed : RaftNode.Processed sm n rd n') :
    (c.observe id n' rd).VotesOK ms := by
  have before := turn _ _ (ok id member)
  have after : Raft.VotesOK (c.sent ++ n.raft.msgs) id n'.raft := by
    rw [processed.raft]
    exact before.flush rfl rfl rfl rfl rfl
  rw [← processed.messages] at after
  refine ok.observe after ?_
  rw [processed.messages]
  exact before.own

/-- Every action of a reachable cluster keeps the votes and the messages in agreement. -/
theorem step (cluster : ClusterOK ⟨False, False⟩ ms c s) {a : Action} (enabled : c.Enabled ms a)
    (eq : c.step sm a = .ok c') : c'.VotesOK ms := by
  cases moves_of_step eq with
  | tick ran => exact ok.turn enabled (tick_turn ran)
  | @deliver m _ _ ran =>
    refine ok.turn enabled.2 (step_turn (fun isVote => ?_) ran)
    refine (cluster.sent m enabled.1).term_pos fun isRsp => ?_
    rcases isVote with isVote | isVote
    · rw [isRsp] at isVote
      nomatch isVote
    · rw [isRsp] at isVote
      nomatch isVote
  | ready taken =>
    have regular := (cluster.nodes _ enabled).wellFormed.regular
    exact ok.ready enabled (Calm.refl _).turn (.of_ready regular taken)
  | rejected stepped =>
    exact ok.turn enabled (step_turn (by rintro (isVote | isVote) <;> nomatch isVote) stepped)
  | accepted stepped taken =>
    obtain ⟨s', -, -, node⟩ := cluster.simulates_proposal enabled stepped
    refine ok.ready enabled ?_ (.of_ready node.wellFormed.regular taken)
    exact step_turn (by rintro (isVote | isVote) <;> nomatch isVote) stepped

end

theorem of_reachable (named : ms.Named) (reachable : Reachable ms sm anyStep c) :
    (∃ s, ClusterOK ⟨False, False⟩ ms c s) ∧ c.VotesOK ms := by
  obtain ⟨c₀, init, run⟩ := reachable
  induction run with
  | refl => exact ⟨⟨freshState, ClusterOK.initial named init False.elim⟩, initial init⟩
  | tail _ next ih =>
    obtain ⟨⟨s, cluster⟩, votes⟩ := ih
    obtain ⟨a, enabled, -, stepped⟩ := next
    obtain ⟨s', cluster', -⟩ := cluster.step enabled False.elim False.elim stepped
    exact ⟨⟨s', cluster'⟩, votes.step cluster enabled stepped⟩

end Cluster.VotesOK

/-! ## The rule -/

/-- The candidate's last entry is of a higher term than the voter's, or of the same term and
not before it. -/
def UpToDate (r : Raft) (m : Message) : Prop :=
  r.log.lastTerm < m.lastLogTerm ∨
    r.log.lastTerm = m.lastLogTerm ∧ r.log.lastIndex ≤ m.lastLogIndex
  deriving Decidable

variable {m : Message} {r : Raft}

theorem isUpToDate_iff_upToDate :
    r.log.isUpToDate m.lastLogIndex m.lastLogTerm = true ↔ r.UpToDate m := by
  unfold RaftLog.isUpToDate UpToDate
  split
  · rename_i differ
    simp [Ne.symm differ]
  · rename_i same
    simp [not_not.mp same]

/-- The node answers the request with a vote. -/
def Grants (r : Raft) (m : Message) : Prop :=
  ∃ r' err new, r.step m = .ok (r', err) ∧ r'.msgs = r.msgs ++ new ∧
    ∃ x ∈ new, x.type = .voteRsp ∧ x.toID = m.fromID ∧ x.voteGranted = true

/-- The rule: the request is not of a lower term, its receiver has not voted for another
candidate in its term, and the candidate's log is up to date. -/
structure Cluster.MayGrant (c : Cluster σ) (m : Message) : Prop where
  term : (c.nodes m.toID).raft.term ≤ m.term
  unbound : ∀ candidate, c.Voted m.toID candidate m.term → candidate = m.fromID
  upToDate : (c.nodes m.toID).raft.UpToDate m

/-- When the code grants a vote. -/
theorem grants_iff (isVote : m.type = .vote) (real : m.preVote = false) (positive : 1 ≤ m.term) :
    r.Grants m ↔ r.term ≤ m.term ∧ r.Free m ∧ r.UpToDate m := by
  rw [← isUpToDate_iff_upToDate]
  constructor
  · rintro ⟨r', err, new, eq, msgs, x, mem, type, toID, granted⟩
    rcases lt_or_ge m.term r.term with lower | reached
    · unfold step at eq
      rw [if_neg (by omega), if_neg (by omega), if_pos lower] at eq
      cases eq
      rw [self_eq_append_right] at msgs
      rw [msgs] at mem
      nomatch mem
    · refine ⟨reached, ?_⟩
      by_contra rejects
      rw [step_vote isVote reached, handleVoteRequest_of_reject real rejects] at eq
      cases eq
      rw [← append_cancel_left msgs, mem_singleton] at mem
      rw [mem] at granted
      nomatch granted
  · rintro ⟨reached, free, upToDate⟩
    have handled := step_vote isVote reached
    rw [handleVoteRequest_of_grant real free upToDate] at handled
    exact ⟨_, _, _, handled, rfl, _, mem_cons_self, rfl, rfl, rfl⟩

variable {c : Cluster σ}

theorem mayGrant_iff (votes : VotesOK c.sent m.toID (c.nodes m.toID).raft)
    (others : (c.nodes m.toID).raft.config.peers ≠ []) :
    c.MayGrant m ↔ (c.nodes m.toID).raft.term ≤ m.term ∧
      ((c.nodes m.toID).raft.term = m.term → (c.nodes m.toID).raft.vote = "" ∨
        (c.nodes m.toID).raft.vote = m.fromID) ∧ (c.nodes m.toID).raft.UpToDate m := by
  constructor
  · rintro ⟨reached, unbound, upToDate⟩
    refine ⟨reached, fun same => ?_, upToDate⟩
    rcases votes.shown with none | alone | ⟨x, mem, ballot⟩
    · exact .inl none
    · exact absurd alone others
    · rw [same] at ballot
      exact .inr (unbound _ ⟨x, mem, ballot⟩)
  · rintro ⟨reached, free, upToDate⟩
    refine ⟨reached, ?_, upToDate⟩
    rintro candidate ⟨x, mem, ballot⟩
    obtain ⟨term_le, vote⟩ := votes.agrees x mem candidate m.term ballot
    have same : (c.nodes m.toID).raft.term = m.term := le_antisymm reached term_le
    rcases free same with none | voted
    · exact absurd ((vote same.symm).trans none) ballot.1
    · exact (vote same.symm).trans voted

theorem NodeOK.peers_ne_nil {A : Assumptions} {id p : NodeID} (ok : NodeOK A ms s id r)
    (member : p ∈ ms.ids) (other : p ≠ id) : r.config.peers ≠ [] := by
  have peer : p ∈ r.config.peers := by
    rw [ok.config_eq, (ms.config_peers id ok.member).mem_iff]
    exact (mem_erase_of_ne other).mpr member
  exact ne_nil_of_mem peer

/-- A delivered vote request in the fields of its receiver: what the code does, and what the
rule asks for. -/
theorem delivered_vote (named : ms.Named) (reachable : Reachable ms sm anyStep c)
    (enabled : c.Enabled ms (.deliver m)) (isVote : m.type = .vote) (real : m.preVote = false) :
    let r := (c.nodes m.toID).raft
    (r.Grants m ↔ r.term ≤ m.term ∧ r.Free m ∧ r.UpToDate m) ∧
      (c.MayGrant m ↔ r.term ≤ m.term ∧
        (r.term = m.term → r.vote = "" ∨ r.vote = m.fromID) ∧ r.UpToDate m) := by
  obtain ⟨⟨s, cluster⟩, votes⟩ := Cluster.VotesOK.of_reachable named reachable
  have notRsp : m.type ≠ .voteRsp := by simp [isVote]
  have reports := cluster.sent m enabled.1
  have others := (cluster.nodes _ enabled.2).peers_ne_nil reports.sender
    (reports.distinct (by simp [isVote]))
  exact ⟨grants_iff isVote real (reports.term_pos notRsp),
    mayGrant_iff (votes _ enabled.2) others⟩

/-- The code grants a vote by the rule unless the candidate's log is up to date and the
receiver remembers a leader, or has voted for another candidate in a lower term. -/
theorem grants_by_rule_iff (named : ms.Named) {c : Cluster σ}
    (reachable : Reachable ms sm anyStep c) {m : Message} (enabled : c.Enabled ms (.deliver m))
    (isVote : m.type = .vote) (real : m.preVote = false) :
    let r := (c.nodes m.toID).raft
    (r.Grants m ↔ c.MayGrant m) ↔
      (r.term ≤ m.term → r.UpToDate m →
        r.vote = "" ∧ r.lead = "" ∨ r.vote = m.fromID ∨ r.term = m.term ∧ r.vote ≠ "") := by
  intro r
  obtain ⟨code, rule⟩ := delivered_vote named reachable enabled isVote real
  rw [code, rule]
  constructor
  · intro agree reached upToDate
    by_cases bound : r.term = m.term ∧ r.vote ≠ ""
    · exact .inr (.inr bound)
    · have allowed : r.term = m.term → r.vote = "" ∨ r.vote = m.fromID :=
        fun same => .inl (not_not.mp fun voted => bound ⟨same, voted⟩)
      obtain ⟨-, free, -⟩ := agree.mpr ⟨reached, allowed, upToDate⟩
      exact free.imp_right .inl
  · intro condition
    constructor
    · rintro ⟨reached, free, upToDate⟩
      exact ⟨reached, fun _ => free.imp_left And.left, upToDate⟩
    · rintro ⟨reached, allowed, upToDate⟩
      refine ⟨reached, ?_, upToDate⟩
      rcases condition reached upToDate with none | same | ⟨current, voted⟩
      · exact .inl none
      · exact .inr same
      · exact .inr ((allowed current).resolve_left voted)

/-- The first vote of a node in a cluster of three. -/
theorem grants_by_rule_trio : ∃ c, Reachable trio idle anyStep c ∧
    (Grants (c.nodes "b").raft { type := .vote, toID := "b", fromID := "a", term := 1 } ↔
      c.MayGrant { type := .vote, toID := "b", fromID := "a", term := 1 }) := by
  obtain ⟨c, reachable, enabled, free⟩ := Cluster.exists_reachable_of_exec idle anyStep
    trio_initial [.tick "a", .ready "a"] (P := fun c => c.Enabled trio
      (.deliver { type := .vote, toID := "b", fromID := "a", term := 1 }) ∧
        (c.nodes "b").raft.vote = "" ∧ (c.nodes "b").raft.lead = "") (by decide +kernel)
  exact ⟨c, reachable,
    (grants_by_rule_iff (by decide) reachable enabled rfl rfl).mpr fun _ _ => .inl free⟩

/-- "c" votes for "a" in term one and is asked by "b" in term two.  It has not voted in that
term, and the log of "b" is as good as its own, but its vote of term one stands in the way. -/
theorem not_grants_by_rule : ∃ c m, Reachable trio idle anyStep c ∧
    c.Enabled trio (.deliver m) ∧ m.type = .vote ∧ m.preVote = false ∧
    ¬ (Grants (c.nodes m.toID).raft m ↔ c.MayGrant m) := by
  obtain ⟨c, reachable, enabled, vote, term, upToDate⟩ :=
    Cluster.exists_reachable_of_exec idle anyStep trio_initial
    [.tick "a", .ready "a", .deliver { type := .vote, toID := "c", fromID := "a", term := 1 },
      .tick "b", .tick "b", .ready "b"] (P := fun c => c.Enabled trio
      (.deliver { type := .vote, toID := "c", fromID := "b", term := 2 }) ∧
        (c.nodes "c").raft.vote = "a" ∧ (c.nodes "c").raft.term = 1 ∧
        (c.nodes "c").raft.UpToDate { type := .vote, toID := "c", fromID := "b", term := 2 })
    (by decide +kernel)
  refine ⟨c, _, reachable, enabled, rfl, rfl, fun agree => ?_⟩
  obtain ⟨code, rule⟩ := delivered_vote (by decide) reachable enabled rfl rfl
  have allowed := rule.mpr ⟨term ▸ by decide, fun same => ?_, upToDate⟩
  · obtain ⟨-, free, -⟩ := code.mp (agree.mpr allowed)
    rcases free with ⟨none, -⟩ | same
    · rw [vote] at none
      nomatch none
    · rw [vote] at same
      exact absurd same (by decide)
  · rw [term] at same
    exact absurd same (by decide)

end Hermes.Raft
