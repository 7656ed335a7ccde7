import Hermes.Raft.Cluster
import Hermes.Raft.LogCorrectness
import Hermes.Replication.Completeness

/-!
# Nodes and messages as replicas and history

Each node of a cluster implements a replica of the abstract protocol, and each
message it sends reports a fact about the history of that protocol.  Some of the
facts depend on conditions that the code does not establish by itself; they are
parameters of the relation, so that one simulation serves all of them.
-/

namespace Hermes.Raft

open Replication (History Replica Rules Steps)

/-- The abstract protocol of a cluster.  `hasQuorum` asks for more than half of
the members, `MaybeCommit` for at least half of them. -/
def Membership.rules (ms : Membership) : Rules NodeID LogEntry where
  termOf := LogEntry.term
  Fits := Fits
  Elects voters := voters ⊆ ms.ids.toFinset ∧ ms.ids.length < 2 * voters.card
  Commits holders :=
    holders ⊆ ms.ids.toFinset ∧ ms.ids.length ≤ 2 * holders.card ∧ holders.Nonempty
  elects_meet := by
    intro A B electsA electsB
    have size := List.toFinset_card_le ms.ids
    obtain ⟨q, mem⟩ := Finset.inter_nonempty_of_card_lt_card_add_card electsA.1 electsB.1
      (by omega)
    exact ⟨q, Finset.mem_inter.mp mem⟩
  elects_meet_commits := by
    intro A B electsA commitsB
    have size := List.toFinset_card_le ms.ids
    obtain ⟨q, mem⟩ := Finset.inter_nonempty_of_card_lt_card_add_card electsA.1 commitsB.1
      (by omega)
    exact ⟨q, Finset.mem_inter.mp mem⟩
  commits_nonempty commits := commits.2.2

def NodeState.role : NodeState → Replication.Role
  | .follower => .follower
  | .candidate => .candidate
  | .leader => .leader

/-- The replica that a node implements.  The empty identifier means "no vote",
and a node that knows a leader is attached. -/
def replica (r : Raft) : Replica NodeID LogEntry where
  term := r.term
  role := r.state.role
  vote := if r.vote = "" then none else some r.vote
  attached := r.lead ≠ ""
  log := r.log.body

/-- Conditions on a run under which more can be said about its nodes. -/
structure Assumptions where
  /-- Followers only acknowledge and commit what their leader's log holds. -/
  matching : Prop
  /-- A vote in a higher term is not cast by a node that keeps a former leader. -/
  lead : Prop

section Relation

variable (A : Assumptions) (ms : Membership) (h : History NodeID LogEntry)

/-- Index `n` lies behind the log with which `p` stood for election in term `t`. -/
def Behind (p : NodeID) (t n : ℕ) : Prop :=
  ∃ log, h.stood p t = some log ∧ log.length < n

/-- The commit index `n` of a leader of term `t` covers chosen entries only. -/
def CommitOK (t n : ℕ) (log : List LogEntry) : Prop :=
  n ≤ log.length ∧ h.Chosen ms.rules t (log.take n)

/-- What a `MsgAppend` reports: the batch stands in the log of the leader behind
`logIndex` and reaches an entry of its own term.  A leader that has taken a
follower's log for longer than its own sends an empty batch. -/
structure AppendOK (m : Message) (log : List LogEntry) : Prop where
  leader : h.leader m.term = some (m.fromID, log)
  entries : m.entries <+: log.drop m.logIndex
  previous : m.logIndex ≤ log.length ∧
      (m.logIndex ≠ 0 → (log[m.logIndex - 1]?.map LogEntry.term) = some m.logTerm) ∨
    m.entries = [] ∧ ¬A.matching
  own : A.matching → Behind h m.fromID m.term (m.logIndex + 1) ∧
    Behind h m.fromID m.term (m.logIndex + m.entries.length)
  commit : A.matching → CommitOK ms h m.term m.commitIndex log

/-- The fact about history that a message of the cluster reports. -/
def MsgFact (m : Message) : Prop :=
  match m.type with
  | .heartbeat => ∃ log, h.leader m.term = some (m.fromID, log) ∧
    (A.matching → CommitOK ms h m.term m.commitIndex log)
  | .append => ∃ log, AppendOK A ms h m log
  | .heartbeatRsp => ∃ log, h.leader m.term = some (m.toID, log)
  | .appendRsp => (∃ log, h.leader m.term = some (m.toID, log)) ∧
    (m.reject = true → m.index = 0) ∧
    (A.matching → m.reject = false →
      Behind h m.toID m.term m.index ∧ ∀ x ≤ m.index, h.acked m.fromID m.term x)
  | .vote => m.preVote = false ∧
    ∃ log, h.stood m.fromID m.term = some log ∧ m.lastLogIndex = log.length ∧
      m.lastLogTerm = Replication.lastTerm LogEntry.term log
  | .voteRsp => m.preVote = false ∧
    (m.voteGranted = true → 1 ≤ m.term ∧ h.votedFor m.fromID m.term = some m.toID)
  | .propose => A.lead → ∃ log, h.leader m.term = some (m.toID, log)
  | _ => False

/-- A message that a member may have sent. -/
structure MsgOK (m : Message) : Prop where
  sender : m.fromID ∈ ms.ids
  distinct : m.type ≠ .propose → m.fromID ≠ m.toID
  term_pos : m.type ≠ .voteRsp → 1 ≤ m.term
  fact : MsgFact A ms h m

/-- What the progress record of the leader `id` of term `t` for `peer` reports. -/
structure ProgressOK (id : NodeID) (t : ℕ) (log : List LogEntry) (peer : NodeID)
    (prog : Progress) : Prop where
  next_pos : 1 ≤ prog.nextIndex
  next_le : A.matching → prog.nextIndex ≤ log.length + 1
  acked : A.matching → ∀ x, 1 ≤ x → x ≤ prog.matchIndex → h.acked peer t x
  next_own : A.matching → peer ≠ id → Behind h id t prog.nextIndex
  match_own : A.matching → peer ≠ id → prog.state = .replicate → Behind h id t prog.matchIndex

/-- Node `r` implements replica `id` of the state `s`. -/
structure NodeOK (s : Replication.State NodeID LogEntry) (id : NodeID) (r : Raft) : Prop where
  member : id ∈ ms.ids
  named : ms.Named
  batch_pos : A.matching → 1 ≤ r.config.maxEntriesToSend
  config_eq : r.config = ms.config id
  id_eq : r.id = id
  replica_eq : s.replica id = r.replica
  wellFormed : r.log.WellFormed
  msgs : ∀ m ∈ r.msgs, MsgOK A ms s.toHistory m
  lead_term : r.lead ≠ "" → 1 ≤ r.term
  role_term : r.state ≠ .follower → 1 ≤ r.term
  committed : A.matching → s.Chosen ms.rules r.term (r.log.body.take r.log.committed)
  lead_elected : A.lead → r.lead ≠ "" → ∃ log, s.leader r.term = some (r.lead, log)
  votes_mem : ∀ q ∈ r.votes, q ∈ ms.ids
  votes_cast : r.state = .candidate → ∀ q, r.votes.lookup q = some true →
    s.votedFor q r.term = some id
  progress_mem : ∀ q ∈ r.progress, q ∈ ms.ids
  progress_all : r.state = .leader → ∀ q ∈ ms.ids, q ∈ r.progress
  progress_ok : r.state = .leader → ∀ q prog, r.progress.lookup q = some prog →
    ProgressOK A s.toHistory id r.term r.log.body q prog
  started : r.state = .leader → Behind s.toHistory id r.term r.log.body.length

/-- Only the log of the term that replica `id` leads in the end has changed. -/
def Announced (s s' : Replication.State NodeID LogEntry) (id : NodeID) : Prop :=
  ∀ t, s'.leader t = s.leader t ∨
    t = (s'.replica id).term ∧ (s'.replica id).role = .leader

/-- Node `r` implements replica `id` after some steps of that replica. -/
def Simulated (s : Replication.State NodeID LogEntry) (id : NodeID) (r : Raft) : Prop :=
  ∃ s', Steps ms.rules id s s' ∧ Announced s s' id ∧ NodeOK A ms s' id r

end Relation

variable {A : Assumptions} {ms : Membership} {s s' : Replication.State NodeID LogEntry}
  {id : NodeID} {r : Raft}

variable {state : NodeState}

@[simp]
theorem NodeState.role_eq_follower : state.role = .follower ↔ state = .follower := by
  cases state <;> simp [role]

@[simp]
theorem NodeState.role_eq_candidate : state.role = .candidate ↔ state = .candidate := by
  cases state <;> simp [role]

@[simp]
theorem NodeState.role_eq_leader : state.role = .leader ↔ state = .leader := by
  cases state <;> simp [role]

/-! ## Reports stay true -/

variable {m : Message}

section Mono

open Replication (Inv)

variable (inv : Inv ms.rules s) (le : s.Le s'.toHistory)

include inv le

omit inv in
theorem Behind.mono {p : NodeID} {t n n' : ℕ} (behind : Behind s.toHistory p t n)
    (further : n ≤ n') : Behind s'.toHistory p t n' := by
  obtain ⟨log, stood, less⟩ := behind
  exact ⟨log, le.stood stood, less.trans_le further⟩

variable {log : List LogEntry}

theorem CommitOK.mono {t n : ℕ} {log' : List LogEntry} (commit : CommitOK ms s.toHistory t n log)
    (longer : log <+: log') : CommitOK ms s'.toHistory t n log' := by
  obtain ⟨rest, rfl⟩ := longer
  refine ⟨commit.1.trans (by simp), ?_⟩
  rw [List.take_append_of_le_length commit.1]
  exact inv.chosen_mono le commit.2

theorem AppendOK.mono (append : AppendOK A ms s.toHistory m log) :
    ∃ log', AppendOK A ms s'.toHistory m log' := by
  obtain ⟨log', leader, longer⟩ := le.leader append.leader
  refine ⟨log', leader, append.entries.trans (longer.drop _), ?_,
    fun matching => (append.own matching).imp (·.mono le le_rfl) (·.mono le le_rfl),
    fun matching => (append.commit matching).mono inv le longer⟩
  rcases append.previous with ⟨bound, termEq⟩ | beyond
  · refine .inl ⟨bound.trans longer.length_le, fun notStart => ?_⟩
    obtain ⟨rest, rfl⟩ := longer
    rw [List.getElem?_append_left (by omega)]
    exact termEq notStart
  · exact .inr beyond

/-- What a message reports stays true when history grows. -/
theorem MsgOK.mono (ok : MsgOK A ms s.toHistory m) : MsgOK A ms s'.toHistory m := by
  refine ⟨ok.sender, ok.distinct, ok.term_pos, ?_⟩
  have fact := ok.fact
  unfold MsgFact at fact ⊢
  split at fact
  · obtain ⟨log, leader, commit⟩ := fact
    obtain ⟨log', leader', longer⟩ := le.leader leader
    exact ⟨log', leader', fun matching => (commit matching).mono inv le longer⟩
  · obtain ⟨log, append⟩ := fact
    exact append.mono inv le
  · exact le.leads fact
  · refine ⟨le.leads fact.1, fact.2.1, fun matching accepted => ?_⟩
    obtain ⟨behind, acked⟩ := fact.2.2 matching accepted
    exact ⟨behind.mono le le_rfl, fun x bound => le.acked (acked x bound)⟩
  · obtain ⟨notPre, log, stood, rest⟩ := fact
    exact ⟨notPre, log, le.stood stood, rest⟩
  · exact ⟨fact.1, fun granted => (fact.2 granted).imp_right le.votedFor⟩
  · exact fun assumed => le.leads (fact assumed)
  · exact fact

omit inv in
theorem ProgressOK.mono {t : ℕ} {peer : NodeID} {prog : Progress}
    (ok : ProgressOK A s.toHistory id t log peer prog) :
    ProgressOK A s'.toHistory id t log peer prog where
  __ := ok
  acked matching x positive bound := le.acked (ok.acked matching x positive bound)
  next_own matching other := (ok.next_own matching other).mono le le_rfl
  match_own matching other role := (ok.match_own matching other role).mono le le_rfl

/-- A node keeps implementing its replica while other replicas take steps. -/
theorem NodeOK.mono (ok : NodeOK A ms s id r) (same : s'.replica id = s.replica id) :
    NodeOK A ms s' id r where
  __ := ok
  replica_eq := same.trans ok.replica_eq
  msgs m mem := (ok.msgs m mem).mono inv le
  committed matching := inv.chosen_mono le (ok.committed matching)
  lead_elected assumed known := le.leads (ok.lead_elected assumed known)
  votes_cast role q granted := le.votedFor (ok.votes_cast role q granted)
  progress_ok role q prog known := (ok.progress_ok role q prog known).mono le
  started role := (ok.started role).mono le le_rfl

end Mono

theorem NodeOK.simulated (ok : NodeOK A ms s id r) : Simulated A ms s id r :=
  ⟨s, .refl, fun _ => .inl rfl, ok⟩

theorem Simulated.after (sim : Simulated A ms s' id r) (run : Steps ms.rules id s s')
    (leader : s'.leader = s.leader) : Simulated A ms s id r := by
  obtain ⟨s'', run', announced, ok⟩ := sim
  refine ⟨s'', run.trans run', fun t => ?_, ok⟩
  rw [← leader]
  exact announced t

/-! ## Changes that no replica notices -/

/-- The fields of a node that the relation speaks about. -/
structure SameView (r r' : Raft) : Prop where
  config : r'.config = r.config
  id : r'.id = r.id
  term : r'.term = r.term
  vote : r'.vote = r.vote
  log : r'.log = r.log
  state : r'.state = r.state
  lead : r'.lead = r.lead
  progress : r'.progress = r.progress
  votes : r'.votes = r.votes
  msgs : r'.msgs = r.msgs

/-- Timers and random draws do not matter. -/
theorem NodeOK.congr {r' : Raft} (ok : NodeOK A ms s id r) (view : SameView r r') :
    NodeOK A ms s id r' := by
  cases r'
  obtain ⟨rfl, rfl, rfl, rfl, rfl, rfl, rfl, rfl, rfl, rfl⟩ := view
  exact { ok with }

theorem SameView.resetElectionTimeout {r' : Raft} (eq : r.resetElectionTimeout = .ok r') :
    SameView r r' := by
  simp only [Raft.resetElectionTimeout, Rng.intn] at eq
  split at eq
  · cases eq
  · cases eq
    constructor <;> rfl

/-- The message that `send` queues. -/
def stamp (r : Raft) (m : Message) : Message :=
  let m := if m.fromID = "" then { m with fromID := r.id } else m
  if m.term = 0 then { m with term := r.term } else m

theorem send_eq (r : Raft) (m : Message) : r.send m = { r with msgs := r.msgs ++ [r.stamp m] } :=
  rfl

theorem stamp_eq (anonymous : m.fromID = "") (current : m.term = r.term) :
    r.stamp m = { m with fromID := r.id } := by
  by_cases zero : r.term = 0
  · simp [stamp, anonymous, current]
  · simp [stamp, anonymous, current]

theorem NodeOK.send (ok : NodeOK A ms s id r)
    (reports : MsgOK A ms s.toHistory (r.stamp m)) : NodeOK A ms s id (r.send m) := by
  refine { ok with msgs := List.forall_mem_append.mpr ⟨ok.msgs, ?_⟩ }
  rw [List.forall_mem_singleton]
  exact reports

/-- A message of the current term to another member. -/
theorem NodeOK.sendTo (ok : NodeOK A ms s id r) (anonymous : m.fromID = "")
    (current : m.term = r.term) (other : m.toID ≠ id) (positive : m.type ≠ .voteRsp → 1 ≤ r.term)
    (fact : MsgFact A ms s.toHistory { m with fromID := id }) : NodeOK A ms s id (r.send m) := by
  refine ok.send ?_
  rw [stamp_eq anonymous current, ok.id_eq]
  exact ⟨ok.member, fun _ => other.symm, fun notRsp => current ▸ positive notRsp, fact⟩

end Hermes.Raft
