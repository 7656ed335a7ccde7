import Hermes.Raft.Refinement.Runs

/-!
# Safety of a cluster

Election safety, log matching and append-only leaders hold along every run.  Leader
completeness, state machine safety and the soundness of match indices hold along runs
in which heartbeats only commit what the follower shares with its leader; a cluster
of three shows that the last two need that.  All of this comes from the abstract protocol,
which the cluster refines.
-/

namespace Hermes.Raft

open List
open Cluster (Reachable Run anyStep HeartbeatsAgree LeadsKept)

/-! ## A cluster of three -/

def trio : Membership :=
  .eager ["a", "b", "c"] (by decide)

theorem trio_initial : (Cluster.fresh trio ()).Initial trio :=
  Cluster.fresh_initial trio () (by decide)

/-- `voter` elects `candidate`, whose log is empty, in term `term`. -/
def elect (candidate voter : NodeID) (term : ℕ) : List Action :=
  [.tick candidate, .ready candidate,
    .deliver { type := .vote, toID := voter, fromID := candidate, term := term },
    .ready voter,
    .deliver
      { type := .voteRsp, toID := candidate, fromID := voter, term := term,
        voteGranted := true },
    .ready candidate]

/-- The log of a leader that has received one proposal in its first term. -/
def proposed (term : ℕ) (data : Bytes) : List LogEntry :=
  [{ index := 1, term := term, type := .noop }, { index := 2, term := term, data := data }]

/-- The leader replicates that log to `peer`, commits it and applies it. -/
def replicate (leader peer : NodeID) (term : ℕ) (data : Bytes) : List Action :=
  [.propose leader [{ data := data }],
    .deliver
      { type := .append, toID := peer, fromID := leader, term := term,
        entries := proposed term data },
    .ready peer,
    .deliver { type := .appendRsp, toID := leader, fromID := peer, term := term, index := 2 },
    .ready leader]

/-- A heartbeat of the leader announces commit index two to `peer`. -/
def announce (leader peer : NodeID) (term : ℕ) : List Action :=
  [.tick leader, .ready leader,
    .deliver
      { type := .heartbeat, toID := peer, fromID := leader, term := term, commitIndex := 2 },
    .ready peer]

variable {σ : Type} {ms : Membership} {sm : StateMachine σ}

/-! ## Elections and logs -/

/-- Along a run no two nodes are leader in the same term. -/
theorem leader_unique_in_term (named : ms.Named) {c₁ c₂ : Cluster σ}
    (reachable : Reachable ms sm anyStep c₁) (run : Run ms sm anyStep c₁ c₂) {a b : NodeID}
    (memA : a ∈ ms.ids) (memB : b ∈ ms.ids) (leadsA : (c₁.nodes a).raft.state = .leader)
    (leadsB : (c₂.nodes b).raft.state = .leader)
    (sameTerm : (c₁.nodes a).raft.term = (c₂.nodes b).raft.term) : a = b := by
  obtain ⟨s₁, ok₁⟩ := ClusterOK.of_anyStep named reachable
  obtain ⟨s₂, ok₂, le⟩ := ok₁.run (fun _ _ _ => ⟨False.elim, False.elim⟩) run
  obtain ⟨log, leader, _⟩ := le.leader ((ok₁.nodes a memA).leader_log ok₁.inv leadsA)
  have leader' := (ok₂.nodes b memB).leader_log ok₂.inv leadsB
  rw [← sameTerm, leader] at leader'
  cases leader'
  rfl

theorem leader_unique_in_term_trio : ∃ c₁ c₂, Reachable trio idle anyStep c₁ ∧
    Run trio idle anyStep c₁ c₂ ∧ (c₁.nodes "a").raft.state = .leader ∧
    (c₂.nodes "a").raft.state = .leader ∧
    (c₁.nodes "a").raft.term = (c₂.nodes "a").raft.term ∧
    ∀ b ∈ trio.ids, (c₂.nodes b).raft.state = .leader →
      (c₁.nodes "a").raft.term = (c₂.nodes b).raft.term → "a" = b := by
  obtain ⟨c₁, reachable, c₂, executed, leads₁, leads₂, sameTerm⟩ :=
    Cluster.exists_reachable_of_exec idle anyStep trio_initial (elect "a" "b" 1) (P := fun c₁ =>
      ∃ c₂, c₁.exec trio idle anyStep (replicate "a" "b" 1 [120]) = some c₂ ∧
        (c₁.nodes "a").raft.state = .leader ∧ (c₂.nodes "a").raft.state = .leader ∧
        (c₁.nodes "a").raft.term = (c₂.nodes "a").raft.term) (by decide +kernel)
  have run := Cluster.run_of_exec executed
  exact ⟨c₁, c₂, reachable, run, leads₁, leads₂, sameTerm,
    fun b member => leader_unique_in_term (by decide) reachable run (by decide) member leads₁⟩

/-- A cluster in which one node has the empty name. -/
def unnamed : Membership :=
  .eager ["", "b", "c"] (by decide)

/-- "c" votes for the node with the empty name, which reads like no vote, and then for "b". -/
def electTwice : List Action :=
  elect "" "c" 1 ++ elect "b" "c" 1

theorem leaders_differ_unnamed : ∃ c, Reachable unnamed idle anyStep c ∧
    (c.nodes "").raft.state = .leader ∧ (c.nodes "b").raft.state = .leader ∧
    (c.nodes "").raft.term = (c.nodes "b").raft.term :=
  Cluster.exists_reachable_of_exec idle anyStep (Cluster.fresh_initial unnamed () (by decide))
    electTwice (by decide +kernel)

/-- As long as a node leads a term, it only appends to its log. -/
theorem leader_appends (named : ms.Named) {c c' : Cluster σ}
    (reachable : Reachable ms sm anyStep c) (run : Run ms sm anyStep c c') {l : NodeID}
    (member : l ∈ ms.ids)
    (leads : (c.nodes l).raft.state = .leader) (leads' : (c'.nodes l).raft.state = .leader)
    (sameTerm : (c.nodes l).raft.term = (c'.nodes l).raft.term) :
    (c.nodes l).raft.log.body <+: (c'.nodes l).raft.log.body := by
  obtain ⟨s, ok⟩ := ClusterOK.of_anyStep named reachable
  obtain ⟨s', ok', le⟩ := ok.run (fun _ _ _ => ⟨False.elim, False.elim⟩) run
  obtain ⟨_, leader, longer⟩ := le.leader ((ok.nodes l member).leader_log ok.inv leads)
  rw [sameTerm, (ok'.nodes l member).leader_log ok'.inv leads'] at leader
  cases leader
  exact longer

theorem leader_appends_trio : ∃ c c' : Cluster Unit,
    (c.nodes "a").raft.log.body <+: (c'.nodes "a").raft.log.body ∧
    (c'.nodes "a").raft.log.lastIndex = 2 := by
  obtain ⟨c, reachable, c', executed, leads, leads', sameTerm, grown⟩ :=
    Cluster.exists_reachable_of_exec idle anyStep trio_initial (elect "a" "b" 1) (P := fun c =>
      ∃ c', c.exec trio idle anyStep (replicate "a" "b" 1 [120]) = some c' ∧
        (c.nodes "a").raft.state = .leader ∧ (c'.nodes "a").raft.state = .leader ∧
        (c.nodes "a").raft.term = (c'.nodes "a").raft.term ∧
        (c'.nodes "a").raft.log.lastIndex = 2) (by decide +kernel)
  have run := Cluster.run_of_exec executed
  exact ⟨c, c', leader_appends (by decide) reachable run (by decide) leads leads' sameTerm, grown⟩

/-- The leader that a node believes in was elected in the node's term, as long as
no node takes its leader along into the term of a vote it grants. -/
theorem lead_elected_in_term (named : ms.Named) {c : Cluster σ}
    (reachable : Reachable ms sm LeadsKept c) {id : NodeID} (member : id ∈ ms.ids)
    (known : (c.nodes id).raft.lead ≠ "") :
    ((c.nodes id).raft.lead, (c.nodes id).raft.term) ∈ c.elected := by
  obtain ⟨s, ok⟩ := ClusterOK.of_reachable (A := ⟨False, True⟩) named reachable
    (fun _ _ holds => ⟨False.elim, fun _ => holds⟩) False.elim
  exact ok.elected.mpr ((ok.nodes id member).lead_elected trivial known)

theorem lead_elected_in_term_trio : ∃ c, Reachable trio idle LeadsKept c ∧
    (c.nodes "b").raft.lead ≠ "" ∧
    ((c.nodes "b").raft.lead, (c.nodes "b").raft.term) ∈ c.elected := by
  obtain ⟨c, reachable, known⟩ := Cluster.exists_reachable_of_exec idle LeadsKept trio_initial
    (elect "a" "b" 1 ++ replicate "a" "b" 1 [120])
    (P := fun c => (c.nodes "b").raft.lead ≠ "") (by decide +kernel)
  exact ⟨c, reachable, known, lead_elected_in_term (by decide) reachable (by decide) known⟩

def quintet : Membership :=
  .eager ["a", "b", "c", "d", "e"] (by decide)

/-- `handleVoteRequest` moves the term and keeps `lead`.  Here "c" votes for "a" in
term one, learns that "b" leads that term, and then follows "a" into term two. -/
theorem lead_not_elected : ∃ c, Reachable quintet idle anyStep c ∧
    (c.nodes "c").raft.term = 2 ∧ (c.nodes "c").raft.lead = "b" ∧ ("b", 2) ∉ c.elected := by
  exact Cluster.exists_reachable_of_exec idle anyStep
    (Cluster.fresh_initial quintet () (by decide))
    [.tick "a", .ready "a", .tick "b", .ready "b",
      .deliver { type := .vote, toID := "c", fromID := "a", term := 1 },
      .deliver { type := .vote, toID := "d", fromID := "b", term := 1 }, .ready "d",
      .deliver { type := .vote, toID := "e", fromID := "b", term := 1 }, .ready "e",
      .deliver { type := .voteRsp, toID := "b", fromID := "d", term := 1, voteGranted := true },
      .deliver { type := .voteRsp, toID := "b", fromID := "e", term := 1, voteGranted := true },
      .tick "b", .ready "b",
      .deliver { type := .heartbeat, toID := "c", fromID := "b", term := 1 },
      .tick "a", .ready "a",
      .deliver { type := .vote, toID := "c", fromID := "a", term := 2 }] (by decide +kernel)

/-- Logs that hold entries of one index and term are equal up to that index. -/
theorem entryAt_eq_of_term_eq (named : ms.Named) {c : Cluster σ}
    (reachable : Reachable ms sm anyStep c) {a b : NodeID} (memA : a ∈ ms.ids) (memB : b ∈ ms.ids)
    {i : ℕ} {e e' : LogEntry}
    (entry : (c.nodes a).raft.log.entryAt i = some e)
    (entry' : (c.nodes b).raft.log.entryAt i = some e') (sameTerm : e.term = e'.term) :
    ∀ k ≤ i, (c.nodes a).raft.log.entryAt k = (c.nodes b).raft.log.entryAt k := by
  obtain ⟨s, ok⟩ := ClusterOK.of_anyStep named reachable
  have okA := ok.nodes a memA
  have okB := ok.nodes b memB
  cases i with
  | zero =>
    intro k bound
    exact okA.wellFormed.entryAt_eq_of_take_eq okB.wellFormed (n := 0) rfl bound
  | succ i =>
    obtain ⟨inLog, length⟩ := okA.wellFormed.concat_isPrefix_of_entryAt entry
    obtain ⟨inLog', length'⟩ := okB.wellFormed.concat_isPrefix_of_entryAt entry'
    have same := (okA.rooted ok.inv).eq_of_term_eq (okB.rooted ok.inv) inLog inLog'
      (length.trans length'.symm) sameTerm
    have whole := prefix_iff_eq_take.mp inLog
    have whole' := prefix_iff_eq_take.mp inLog'
    rw [length_append, length] at whole
    rw [length_append, length'] at whole'
    intro k bound
    exact okA.wellFormed.entryAt_eq_of_take_eq okB.wellFormed
      (whole.symm.trans (same.trans whole')) bound

theorem entryAt_eq_of_term_eq_trio : ∃ c e, Reachable trio idle anyStep c ∧
    (c.nodes "a").raft.log.entryAt 2 = some e ∧ (c.nodes "b").raft.log.entryAt 2 = some e ∧
    ∀ k ≤ 2, (c.nodes "a").raft.log.entryAt k = (c.nodes "b").raft.log.entryAt k := by
  obtain ⟨c, reachable, entryA, entryB⟩ := Cluster.exists_reachable_of_exec idle anyStep
    trio_initial (elect "a" "b" 1 ++ replicate "a" "b" 1 [120]) (P := fun c =>
      (c.nodes "a").raft.log.entryAt 2 = some { index := 2, term := 1, data := [120] } ∧
        (c.nodes "b").raft.log.entryAt 2 = some { index := 2, term := 1, data := [120] })
    (by decide +kernel)
  exact ⟨c, _, reachable, entryA, entryB,
    entryAt_eq_of_term_eq (by decide) reachable (by decide) (by decide) entryA entryB rfl⟩

/-- Two leaders of one term append different entries. -/
theorem entryAt_ne_unnamed : ∃ c e e', Reachable unnamed idle anyStep c ∧
    (c.nodes "").raft.log.entryAt 2 = some e ∧ (c.nodes "b").raft.log.entryAt 2 = some e' ∧
    e.term = e'.term ∧ e.data ≠ e'.data := by
  obtain ⟨c, reachable, entry, entry'⟩ := Cluster.exists_reachable_of_exec idle anyStep
    (Cluster.fresh_initial unnamed () (by decide))
    (electTwice ++ [.propose "" [{ data := [120] }], .propose "b" [{ data := [121] }]])
    (P := fun c =>
      (c.nodes "").raft.log.entryAt 2 = some { index := 2, term := 1, data := [120] } ∧
        (c.nodes "b").raft.log.entryAt 2 = some { index := 2, term := 1, data := [121] })
    (by decide +kernel)
  exact ⟨c, _, _, reachable, entry, entry', rfl, by decide⟩

/-! ## Application and replication -/

/-- Entries that nodes apply at one index are the same, as long as heartbeats only
commit what the follower shares with its leader. -/
theorem applied_entries_agree (named : ms.Named)
    (batch : ∀ id ∈ ms.ids, 1 ≤ (ms.config id).maxEntriesToSend) {c : Cluster σ}
    (reachable : Reachable ms sm HeartbeatsAgree c) {a b : NodeID} {e e' : LogEntry}
    (appliedA : (a, e) ∈ c.applied) (appliedB : (b, e') ∈ c.applied)
    (sameIndex : e.index = e'.index) :
    e.term = e'.term ∧ e.type = e'.type ∧ e.data = e'.data := by
  obtain ⟨s, ok⟩ := ClusterOK.of_heartbeatsAgree named batch reachable
  obtain ⟨_, before, chosen, indexEq⟩ := ok.applied trivial a e appliedA
  obtain ⟨_, before', chosen', indexEq'⟩ := ok.applied trivial b e' appliedB
  have length : (before ++ [e]).length = (before' ++ [e']).length := by
    rw [length_append, length_append]
    change before.length + 1 = before'.length + 1
    omega
  have same : before ++ [e] = before' ++ [e'] := by
    rcases ok.inv.chosen_comparable chosen chosen' with shorter | longer
    · exact shorter.eq_of_length length
    · exact (longer.eq_of_length length.symm).symm
  cases (append_inj' same rfl).2
  exact ⟨rfl, rfl, rfl⟩

theorem applied_entries_agree_trio : ∃ c e, Reachable trio idle HeartbeatsAgree c ∧
    ("a", e) ∈ c.applied ∧ ("b", e) ∈ c.applied ∧ e.index = 2 ∧
    ∀ e', ("b", e') ∈ c.applied → e.index = e'.index →
      e.term = e'.term ∧ e.type = e'.type ∧ e.data = e'.data := by
  obtain ⟨c, reachable, appliedA, appliedB⟩ := Cluster.exists_reachable_of_exec idle
    HeartbeatsAgree trio_initial
    (elect "a" "b" 1 ++ replicate "a" "b" 1 [120] ++ announce "a" "b" 1) (P := fun c =>
      ("a", { index := 2, term := 1, data := [120] }) ∈ c.applied ∧
        ("b", { index := 2, term := 1, data := [120] }) ∈ c.applied) (by decide +kernel)
  exact ⟨c, _, reachable, appliedA, appliedB, rfl,
    fun _ => applied_entries_agree (by decide) (by decide) reachable appliedA⟩

/-- The leader of term one keeps an entry to itself.  The leader of term two, which
does not know of it, commits its own entry with the third node. -/
def divergence : List Action :=
  elect "a" "b" 1 ++ [.propose "a" [{ data := [120] }]] ++ elect "b" "c" 2 ++
    replicate "b" "c" 2 [121] ++ announce "b" "a" 2

/-- `handleHeartbeat` commits whatever the follower holds up to the leader's commit
index, so the follower applies entries that no other node has. -/
theorem applied_entries_differ : ∃ c, Reachable trio idle anyStep c ∧
    ∃ e e', ("a", e) ∈ c.applied ∧ ("b", e') ∈ c.applied ∧ e.index = e'.index ∧
      e.term ≠ e'.term ∧ e.data ≠ e'.data := by
  obtain ⟨c, reachable, appliedA, appliedB⟩ := Cluster.exists_reachable_of_exec idle anyStep
    trio_initial divergence (P := fun c =>
      ("a", { index := 2, term := 1, data := [120] }) ∈ c.applied ∧
        ("b", { index := 2, term := 2, data := [121] }) ∈ c.applied) (by decide +kernel)
  exact ⟨c, reachable, _, _, appliedA, appliedB, rfl, by decide, by decide⟩

/-- A leader has in its log what the nodes of no higher term have committed. -/
theorem leader_complete (named : ms.Named)
    (batch : ∀ id ∈ ms.ids, 1 ≤ (ms.config id).maxEntriesToSend) {c : Cluster σ}
    (reachable : Reachable ms sm HeartbeatsAgree c) {l p : NodeID} (memL : l ∈ ms.ids)
    (memP : p ∈ ms.ids) (leads : (c.nodes l).raft.state = .leader)
    (reached : (c.nodes p).raft.term ≤ (c.nodes l).raft.term) :
    (c.nodes p).raft.log.body.take (c.nodes p).raft.log.committed <+:
      (c.nodes l).raft.log.body := by
  obtain ⟨s, ok⟩ := ClusterOK.of_heartbeatsAgree named batch reachable
  have chosen := (ok.nodes p memP).committed trivial
  have leader := (ok.nodes l memL).leader_log ok.inv leads
  exact ok.inv.chosen_isPrefix_leader chosen reached leader

theorem leader_complete_trio : ∃ c : Cluster Unit, (c.nodes "b").raft.log.committed = 2 ∧
    (c.nodes "b").raft.log.body.take 2 <+: (c.nodes "a").raft.log.body := by
  obtain ⟨c, reachable, two, leads, reached⟩ := Cluster.exists_reachable_of_exec idle
    HeartbeatsAgree trio_initial
    (elect "a" "b" 1 ++ replicate "a" "b" 1 [120] ++ announce "a" "b" 1)
    (P := fun c => (c.nodes "b").raft.log.committed = 2 ∧ (c.nodes "a").raft.state = .leader ∧
      (c.nodes "b").raft.term ≤ (c.nodes "a").raft.term) (by decide +kernel)
  exact ⟨c, two,
    two ▸ leader_complete (by decide) (by decide) reachable (by decide) (by decide) leads reached⟩

/-- A leader's match index for a member stays inside the leader's log, and a
member that is still in the leader's term has the leader's entries up to it. -/
theorem matchIndex_sound (named : ms.Named)
    (batch : ∀ id ∈ ms.ids, 1 ≤ (ms.config id).maxEntriesToSend) {c : Cluster σ}
    (reachable : Reachable ms sm HeartbeatsAgree c) {l p : NodeID} (memL : l ∈ ms.ids)
    (memP : p ∈ ms.ids) (leads : (c.nodes l).raft.state = .leader)
    {prog : Progress} (known : (c.nodes l).raft.progress.lookup p = some prog) :
    prog.matchIndex ≤ (c.nodes l).raft.log.lastIndex ∧
      ((c.nodes p).raft.term = (c.nodes l).raft.term → ∀ k ≤ prog.matchIndex,
        (c.nodes p).raft.log.entryAt k = (c.nodes l).raft.log.entryAt k) := by
  obtain ⟨s, ok⟩ := ClusterOK.of_heartbeatsAgree named batch reachable
  have okL := ok.nodes l memL
  have okP := ok.nodes p memP
  have leader := okL.leader_log ok.inv leads
  have progress := okL.progress_ok leads p prog known
  have bound := progress.match_le ok.inv leader trivial
  refine ⟨okL.wellFormed.lastIndex_eq ▸ bound, fun sameTerm k below => ?_⟩
  refine okP.wellFormed.entryAt_eq_of_take_eq okL.wellFormed (n := prog.matchIndex) ?_ below
  rcases Nat.eq_zero_or_pos prog.matchIndex with zero | positive
  · rw [zero, take_zero, take_zero]
  -- no later leader can have overwritten what a node of this term acknowledged
  have holds := ok.inv.acks.ack_log (progress.acked trivial _ positive le_rfl)
  rw [okP.replica_eq, Replication.History.upTo_eq leader] at holds
  have inLog : (c.nodes l).raft.log.body.take prog.matchIndex <+: (c.nodes p).raft.log.body := by
    refine holds fun u c M later exposed _ => ?_
    simp only [Replication.Replica.Exposed, replica] at exposed
    omega
  have same := prefix_iff_eq_take.mp inLog
  rw [length_take, min_eq_left bound] at same
  exact same.symm

theorem matchIndex_sound_trio : ∃ c prog, Reachable trio idle HeartbeatsAgree c ∧
    (c.nodes "a").raft.state = .leader ∧
    (c.nodes "a").raft.progress.lookup "b" = some prog ∧ prog.matchIndex = 2 ∧
    (c.nodes "b").raft.term = (c.nodes "a").raft.term ∧
    2 ≤ (c.nodes "a").raft.log.lastIndex ∧
    ∀ k ≤ 2, (c.nodes "b").raft.log.entryAt k = (c.nodes "a").raft.log.entryAt k := by
  obtain ⟨c, reachable, leads, prog, known, two, sameTerm⟩ := Cluster.exists_reachable_of_exec
    idle HeartbeatsAgree trio_initial (elect "a" "b" 1 ++ replicate "a" "b" 1 [120]) (P := fun c =>
      (c.nodes "a").raft.state = .leader ∧
        ∃ prog, (c.nodes "a").raft.progress.lookup "b" = some prog ∧ prog.matchIndex = 2 ∧
          (c.nodes "b").raft.term = (c.nodes "a").raft.term) (by decide +kernel)
  obtain ⟨bound, agree⟩ :=
    matchIndex_sound (by decide) (by decide) reachable (by decide) (by decide) leads known
  rw [two] at bound agree
  exact ⟨c, prog, reachable, leads, known, two, sameTerm, bound, agree sameTerm⟩

/-- A follower that has committed too much answers an append request from before
its commit index with that index.  The leader takes this for a match. -/
theorem matchIndex_unsound : ∃ c, Reachable trio idle anyStep c ∧
    (c.nodes "b").raft.state = .leader ∧
    (∃ prog, (c.nodes "b").raft.progress.lookup "a" = some prog ∧ prog.matchIndex = 2) ∧
    (c.nodes "a").raft.term = (c.nodes "b").raft.term ∧
    (c.nodes "a").raft.log.entryAt 2 ≠ (c.nodes "b").raft.log.entryAt 2 := by
  exact Cluster.exists_reachable_of_exec idle anyStep trio_initial (divergence ++
    [.deliver
        { type := .heartbeatRsp, toID := "b", fromID := "a", term := 2, commitIndex := 2 },
      .ready "b",
      .deliver
        { type := .append, toID := "a", fromID := "b", term := 2,
          entries := proposed 2 [121], commitIndex := 2 },
      .ready "a",
      .deliver { type := .appendRsp, toID := "b", fromID := "a", term := 2, index := 2 }])
    (by decide +kernel)

/-! ## Refinement -/

/-- A cluster does what the abstract protocol allows: some run of the replicas has made every
node what it is, and has had the leaders that the cluster has had. -/
theorem refines_protocol (named : ms.Named) {c : Cluster σ}
    (reachable : Reachable ms sm anyStep c) :
    ∃ s, Relation.ReflTransGen (fun s s' => ∃ p, Replication.Step ms.rules p s s') freshState s ∧
      (∀ id ∈ ms.ids, s.replica id = (c.nodes id).raft.replica) ∧
      ∀ p t, (p, t) ∈ c.elected ↔ ∃ log, s.leader t = some (p, log) := by
  obtain ⟨c₀, init, steps⟩ := reachable
  suffices related : ∃ s, Relation.ReflTransGen _ freshState s ∧ ClusterOK ⟨False, False⟩ ms c s by
    obtain ⟨s, run, ok⟩ := related
    exact ⟨s, run, fun id member => (ok.nodes id member).replica_eq, fun _ _ => ok.elected⟩
  induction steps with
  | refl => exact ⟨_, .refl, .initial named init False.elim⟩
  | tail _ next ih =>
    obtain ⟨s, run, ok⟩ := ih
    obtain ⟨a, enabled, -, stepped⟩ := next
    obtain ⟨s', ok', p, more⟩ := ok.step enabled False.elim False.elim stepped
    exact ⟨s', run.trans (Relation.ReflTransGen.mono (fun _ _ step => ⟨p, step⟩) _ _ more), ok'⟩

theorem refines_protocol_trio : ∃ s : Replication.State NodeID LogEntry,
    Relation.ReflTransGen (fun s s' => ∃ p, Replication.Step trio.rules p s s') freshState s ∧
      ∃ log, s.leader 1 = some ("a", log) := by
  obtain ⟨c, reachable, leads⟩ := Cluster.exists_reachable_of_exec idle anyStep trio_initial
    (elect "a" "b" 1) (P := (("a", 1) ∈ ·.elected)) (by decide +kernel)
  obtain ⟨s, run, -, leaders⟩ := refines_protocol (by decide) reachable
  exact ⟨s, run, (leaders "a" 1).mp leads⟩

end Hermes.Raft
