import Hermes.Replication.LogMatching

/-!
# Committed entries survive in every later leader

A prefix of a leader's log is committed once a committing set of replicas has
acknowledged it and its last entry is of the leader's own term.  Committing and
electing sets meet, so every later leader got a vote of a replica that had
acknowledged the prefix, and a vote only goes to a log that is up to date.

Whether a replica still holds what it acknowledged depends on the leaders of the
terms in between, whose own logs are covered by the induction on terms.  The
invariant therefore speaks about acknowledgements relative to those leaders.
-/

namespace Hermes.Replication

open List

universe u v

variable {ν : Type u} {ε : Type v} {R : Rules ν ε}

/-- The first `x` entries of the leader of term `t`. -/
def History.upTo (h : History ν ε) (t x : ℕ) : List ε :=
  (h.logOf t).take x

/-- The leaders of the later terms in `terms` have `l` at the start of their logs. -/
def History.Kept (h : History ν ε) (l : List ε) (t : ℕ) (terms : ℕ → Prop) : Prop :=
  ∀ ⦃u c M⦄, t < u → terms u → h.leader u = some (c, M) → l <+: M

/-- The terms whose leaders may have overwritten a part of the log of `r`. -/
def Replica.Exposed (r : Replica ν ε) (u : ℕ) : Prop :=
  u < r.term ∨ u = r.term ∧ r.attached

/-- A later state of a replica: no lower term, exposed to no fewer leaders, no shorter log. -/
structure Replica.Grows (r r' : Replica ν ε) : Prop where
  term_le : r.term ≤ r'.term
  exposed : ∀ u, r.Exposed u → r'.Exposed u
  log : r.log <+: r'.log

/-- What an acknowledgement means for the log and for the votes of a replica. -/
structure AckInv (R : Rules ν ε) (s : State ν ε) : Prop where
  ack_le : ∀ {p t x}, s.acked p t x → t ≤ (s.replica p).term
  ack_leader : ∀ {p t x}, s.acked p t x → ∃ c M, s.leader t = some (c, M) ∧ x ≤ M.length
  ack_log : ∀ {p t x}, s.acked p t x →
    s.Kept (s.upTo t x) t (s.replica p).Exposed → s.upTo t x <+: (s.replica p).log
  vote_log : ∀ {p t t' x c log l e}, s.votedFor p t' = some c → s.stood c t' = some log →
    s.acked p t x → t < t' → s.upTo t x = l ++ [e] → R.termOf e = t →
    s.Kept (s.upTo t x) t (· < t') → s.upTo t x <+: log

variable {c : ν} {M : List ε}

namespace History

variable {h h' : History ν ε} {t x : ℕ}

theorem upTo_eq (leads : h.leader t = some (c, M)) : h.upTo t x = M.take x := by
  rw [upTo, logOf_eq leads]

theorem upTo_isPrefix (leads : h.leader t = some (c, M)) : h.upTo t x <+: M := by
  rw [upTo_eq leads]
  exact take_prefix x M

/-- What the leader of a term has built does not change when history grows. -/
theorem Le.upTo_eq (le : h.Le h') (leads : h.leader t = some (c, M))
    (bound : x ≤ M.length) : h'.upTo t x = h.upTo t x := by
  obtain ⟨M', leads', rest, rfl⟩ := le.leader leads
  rw [History.upTo_eq leads, History.upTo_eq leads', take_append_of_le_length bound]

end History

theorem isPrefix_left_of_not_mem {l new l' : List ε} (inBoth : l' <+: l ++ new)
    (old : ∀ e ∈ l', e ∉ new) : l' <+: l := by
  rcases prefix_or_prefix_of_prefix inBoth (prefix_append l new) with left | right
  · exact left
  · obtain ⟨rest, rfl⟩ := right
    cases rest with
    | nil => simp
    | cons e rest =>
      have inNew := (prefix_append_right_inj l).mp inBoth
      exact absurd (inNew.subset (by simp)) (old e (by simp))

variable {s s' : State ν ε} {p : ν} {log : List ε} {e : ε} {t' : ℕ}

/-- The voter's log starts with `l ++ [e]`, an acknowledged prefix of the leader
of term `R.termOf e`; a log that is as up to date as the voter's starts with it too. -/
theorem LogInv.isPrefix_of_upToDate (logs : LogInv R s) {own l : List ε}
    (leads : s.leader (R.termOf e) = some (c, M)) (inLeader : l ++ [e] <+: M)
    (ownRooted : s.Rooted R.termOf own) (inOwn : l ++ [e] <+: own) (rooted : s.Rooted R.termOf log)
    (log_lt : ∀ f ∈ log, R.termOf f < t') (upToDate : UpToDate R.termOf log own)
    (kept : s.Kept (l ++ [e]) (R.termOf e) (· < t')) : l ++ [e] <+: log := by
  -- the last entry of the voter's log
  obtain ⟨own', f, rfl⟩ : ∃ own' f, own = own' ++ [f] := by
    rcases eq_nil_or_concat' own with rfl | ⟨own', f, rfl⟩
    · simp at inOwn
    · exact ⟨own', f, rfl⟩
  obtain ⟨_, _, leadsOwn, inLeaderOwn⟩ := ownRooted.whole
  have term_le : R.termOf e ≤ R.termOf f :=
    (logs.leaderLog leadsOwn).term_le e (inLeaderOwn.subset (inOwn.subset (by simp)))
  -- the last entry of the candidate's log
  obtain ⟨log', g, rfl⟩ : ∃ log' g, log = log' ++ [g] := by
    rcases eq_nil_or_concat' log with rfl | ⟨log', g, rfl⟩
    · simp [UpToDate, lastTerm] at upToDate
    · exact ⟨log', g, rfl⟩
  obtain ⟨_, M', leadsLog, inLeaderLog⟩ := rooted.whole
  simp only [UpToDate, lastTerm, getLast?_concat, Option.map_some, Option.getD_some]
    at upToDate
  have shorter := inOwn.length_le
  rcases lt_or_ge (R.termOf e) (R.termOf g) with later | notLater
  · -- a later leader built the candidate's log, and it kept the prefix
    have inLater := kept later (log_lt g (by simp)) leadsLog
    rcases prefix_or_prefix_of_prefix inLater inLeaderLog with done | proper
    · exact done
    · have old := (logs.leaderLog leads).term_le g (inLeader.subset (proper.subset (by simp)))
      omega
  · -- both logs stem from the leader of the prefix, and the candidate's is longer
    have sameTerm : R.termOf g = R.termOf e := by omega
    rw [sameTerm, leads] at leadsLog
    cases leadsLog
    exact prefix_of_prefix_length_le inLeader inLeaderLog (by omega)

/-- Later leaders that keep a prefix now have kept it all the time: what a leader
adds is of its own term. -/
theorem History.Kept.of_le {l : List ε} {t : ℕ} {terms terms' : ℕ → Prop}
    (kept : s'.Kept l t terms') (le : s.Le s'.toHistory) (logs : LogInv R s) (logs' : LogInv R s')
    (old : ∀ e ∈ l, R.termOf e ≤ t) (fewer : ∀ u, terms u → terms' u) : s.Kept l t terms := by
  intro u c M later inTerms leads
  obtain ⟨M', leads', _⟩ := le.leader leads
  have inLater := kept later (fewer u inTerms) leads'
  obtain ⟨log, new, stood, rfl, _⟩ := (logs.leaderLog leads).stood
  obtain ⟨log', new', stood', rfl, ofTerm⟩ := (logs'.leaderLog leads').stood
  rw [le.stood stood] at stood'
  cases stood'
  refine (isPrefix_left_of_not_mem inLater ?_).trans (prefix_append log new)
  intro e mem inNew
  have := old e mem
  have := ofTerm e inNew
  omega

variable {r : Replica ν ε}

theorem Replica.Grows.forall_set [DecidableEq ν] (own : (s.replica p).Grows r) :
    ∀ q, (s.replica q).Grows ((s.set p r).replica q) :=
  State.forall_set (P := fun q r => (s.replica q).Grows r)
    (fun _ _ => ⟨le_rfl, fun _ => id, prefix_rfl⟩) own

namespace AckInv

variable {t x : ℕ} {c : ν}

/-- A replica whose term is later than every exposed one is exposed to more. -/
theorem exposed_of_lt {r' : Replica ν ε} (later : r.term < r'.term) (u : ℕ)
    (exposed : r.Exposed u) :
    r'.Exposed u := by
  rcases exposed with before | ⟨now, _⟩ <;> exact .inl (by omega)

section

variable (inv : AckInv R s)

include inv

theorem le_length (ack : s.acked p t x) (leads : s.leader t = some (c, M)) : x ≤ M.length := by
  obtain ⟨_, M', leads', bound⟩ := inv.ack_leader ack
  rw [leads] at leads'
  cases leads'
  exact bound

/-- What `upTo` says about an acknowledged position does not change in a step. -/
theorem upTo_eq_of_le (le : s.Le s'.toHistory) (ack : s.acked p t x) :
    s'.upTo t x = s.upTo t x := by
  obtain ⟨c, M, leads, bound⟩ := inv.ack_leader ack
  exact le.upTo_eq leads bound

theorem ack (election : ElectionInv R s) (leader : s.leader (s.replica p).term = some (c, M))
    (bound : x ≤ M.length) (agrees : M.take x <+: (s.replica p).log) : AckInv R (s.ack p x) where
  ack_le ack := by
    rcases ack with old | ⟨rfl, rfl, _⟩
    · exact inv.ack_le old
    · exact le_rfl
  ack_leader ack := by
    rcases ack with old | ⟨rfl, rfl, below⟩
    · exact inv.ack_leader old
    · exact ⟨c, M, leader, below.trans bound⟩
  ack_log {q t y} ack kept := by
    rcases ack with old | ⟨rfl, rfl, below⟩
    · exact inv.ack_log old kept
    · change s.upTo _ y <+: _
      rw [History.upTo_eq leader]
      exact (take_prefix_take_left below).trans agrees
  vote_log := by
    intro q t t' y c log l e vote stood ack later last termEq kept
    rcases ack with old | ⟨rfl, rfl, below⟩
    · exact inv.vote_log vote stood old later last termEq kept
    · -- nobody has voted in a term after its current one
      exact absurd ((election.localInv q).votedFor_le vote) (not_le.mpr later)

/-- A follower that adopts entries of its leader keeps what it acknowledged. -/
theorem accept [DecidableEq ν] (attached : (s.replica p).attached)
    (leader : s.leader (s.replica p).term = some (c, M))
    (splices : Splices (s.replica p).log M log) :
    AckInv R (s.accept p log) where
  __ := inv
  ack_le {q t x} ack := (inv.ack_le ack).trans <| by
    refine State.forall_set (P := fun q r => (s.replica q).term ≤ r.term) ?_ ?_ q
    · exact fun _ _ => le_rfl
    · exact le_rfl
  ack_log {q t x} ack kept := by
    have ackBefore : s.acked q t x := ack
    by_cases same : q = p
    · subst same
      simp only [State.accept, State.set_replica_self] at kept ⊢
      refine splices.2 _ (inv.ack_log ackBefore kept) ?_
      rcases eq_or_lt_of_le (inv.ack_le ackBefore) with now | before
      · exact History.upTo_isPrefix (now ▸ leader)
      · exact kept before (.inr ⟨rfl, attached⟩) leader
    · simp only [State.accept, State.set_replica_of_ne _ _ same] at kept ⊢
      exact inv.ack_log ackBefore kept

variable (logs : LogInv R s)

include logs

theorem upTo_term_le (ack : s.acked p t x) : ∀ e ∈ s.upTo t x, R.termOf e ≤ t := by
  obtain ⟨c, M, leads, _⟩ := inv.ack_leader ack
  intro e mem
  exact (logs.leaderLog leads).term_le e ((History.upTo_isPrefix leads).subset mem)

section

variable (logs' : LogInv R s') (le : s.Le s'.toHistory)

include logs' le

/-- The acknowledgements known before a step keep their meaning for a replica
that is still exposed to the same leaders and still has its log. -/
theorem ack_log_of_le (ack : s.acked p t x) (grows : (s.replica p).Grows (s'.replica p))
    (kept : s'.Kept (s'.upTo t x) t (s'.replica p).Exposed) :
    s'.upTo t x <+: (s'.replica p).log := by
  rw [inv.upTo_eq_of_le le ack] at kept ⊢
  have keptBefore := kept.of_le le logs logs' (inv.upTo_term_le logs ack) grows.exposed
  exact (inv.ack_log ack keptBefore).trans grows.log

variable (election : ElectionInv R s)

include election

theorem vote_log_of_le {l : List ε} (vote : s.votedFor p t' = some c) (ack : s.acked p t x)
    (stood : s'.stood c t' = some log) (later : t < t') (last : s'.upTo t x = l ++ [e])
    (termEq : R.termOf e = t) (kept : s'.Kept (s'.upTo t x) t (· < t')) : s'.upTo t x <+: log := by
  obtain ⟨log', stoodBefore⟩ := election.votedFor_stood vote
  rw [le.stood stoodBefore] at stood
  cases stood
  rw [inv.upTo_eq_of_le le ack] at kept last ⊢
  exact inv.vote_log vote stoodBefore ack later last termEq
    (kept.of_le le logs logs' (inv.upTo_term_le logs ack) fun _ => id)

/-- What one step has to show: it lowers no term, exposes logs to no fewer
leaders, keeps acknowledged prefixes, and casts votes for up-to-date logs only. -/
theorem of_step (acked : ∀ {q t x}, s'.acked q t x → s.acked q t x)
    (grows : ∀ q, (s.replica q).Grows (s'.replica q))
    (vote : ∀ {q t t' x c log l e}, s'.votedFor q t' = some c → s.votedFor q t' ≠ some c →
      s'.stood c t' = some log → s.acked q t x → t < t' → s.upTo t x = l ++ [e] →
      R.termOf e = t → s.Kept (s.upTo t x) t (· < t') → s.upTo t x <+: log) :
    AckInv R s' where
  ack_le ack := (inv.ack_le (acked ack)).trans (grows _).term_le
  ack_leader ack := by
    obtain ⟨c, M, leads, bound⟩ := inv.ack_leader (acked ack)
    obtain ⟨M', leads', longer⟩ := le.leader leads
    exact ⟨c, M', leads', bound.trans longer.length_le⟩
  ack_log ack := inv.ack_log_of_le logs logs' le (acked ack) (grows _)
  vote_log := by
    intro q t t' x c log l e voted stood ack later last termEq kept
    by_cases known : s.votedFor q t' = some c
    · exact inv.vote_log_of_le logs logs' le election known (acked ack) stood later last
        termEq kept
    · rw [inv.upTo_eq_of_le le (acked ack)] at last kept ⊢
      exact vote voted known stood (acked ack) later last termEq
        (kept.of_le le logs logs' (inv.upTo_term_le logs (acked ack)) fun _ => id)

end

variable (election : ElectionInv R s) [DecidableEq ν]

include election

/-- A step that changes nothing but the local state of `p`. -/
theorem set (logs' : LogInv R (s.set p r)) (grows : (s.replica p).Grows r) : AckInv R (s.set p r) :=
  inv.of_step logs logs' (.refl _) election id grows.forall_set
    fun vote unknown => absurd vote unknown

theorem campaign : AckInv R (s.campaign p) := by
  refine inv.of_step logs (logs.campaign election) election.le_campaign election id ?_ ?_
  · exact Replica.Grows.forall_set
      ⟨Nat.le_succ _, exposed_of_lt (Nat.lt_succ_self _), prefix_rfl⟩
  · -- the candidate's own vote goes to its own log
    intro q t t' x c log l e vote unknown stood ack later last termEq kept
    rw [State.campaign_votedFor] at vote
    split at vote
    · rename_i new
      obtain ⟨rfl, rfl⟩ := new
      cases vote
      rw [State.campaign_stood, if_pos ⟨rfl, rfl⟩] at stood
      cases stood
      refine inv.ack_log ack fun u c M after exposed => kept after ?_
      rcases exposed with before | ⟨now, _⟩ <;> omega
    · exact absurd vote unknown

theorem grant (logs' : LogInv R (s.grant p c t)) (stood : s.stood c t = some log)
    (upToDate : UpToDate R.termOf log (s.replica p).log) (free : (s.replica p).Free c t) :
    AckInv R (s.grant p c t) := by
  have reached := free.le
  refine inv.of_step logs logs' (election.le_grant free) election id ?_ ?_
  · refine Replica.Grows.forall_set ⟨reached, fun u exposed => ?_, prefix_rfl⟩
    rcases exposed with before | ⟨now, attached⟩
    · exact .inl (before.trans_le reached)
    · rcases eq_or_lt_of_le reached with same | less
      · exact .inr ⟨now.trans same, attached⟩
      · exact .inl (now.trans_lt less)
  · intro q u t' x c' log' l e vote unknown stood' ack later last termEq kept
    rw [State.grant_votedFor] at vote
    split at vote
    · rename_i new
      obtain ⟨rfl, rfl⟩ := new
      cases vote
      cases stood.symm.trans stood'
      -- a new vote: the voter is not exposed to the term it votes in
      have inOwn : s.upTo u x <+: (s.replica q).log := by
        refine inv.ack_log ack fun w d M after exposed => kept after ?_
        have notVoted : (s.replica q).vote ≠ some c ∨ (s.replica q).term ≠ t' := by
          by_contra! voted
          exact unknown (voted.2 ▸ (election.localInv q).vote_eq.trans voted.1)
        rcases exposed with before | ⟨now, attached⟩
        · exact before.trans_le reached
        · rcases free with less | ⟨same, again | ⟨_, loose⟩⟩
          · exact now.trans_lt less
          · rcases notVoted with other | other
            · exact absurd again other
            · exact absurd same other
          · exact absurd attached loose
      obtain ⟨d, M, leads, _⟩ := inv.ack_leader ack
      have inLeader := History.upTo_isPrefix leads (x := x)
      subst termEq
      rw [last] at inOwn inLeader kept ⊢
      exact logs.isPrefix_of_upToDate leads inLeader (logs.localLog q).rooted inOwn
        (logs.stood_rooted stood) (logs.stood_lt stood) upToDate kept
    · exact absurd vote unknown

theorem win (candidate : (s.replica p).role = .candidate)
    (fresh : s.leader (s.replica p).term = none) : AckInv R (s.win p) := by
  refine inv.of_step logs (logs.win candidate fresh) (ElectionInv.le_win fresh) election id
    ?_ fun vote unknown => absurd vote unknown
  exact Replica.Grows.forall_set
    ⟨le_rfl, fun u => Or.imp_right fun now => ⟨now.1, trivial⟩, prefix_rfl⟩

theorem extend (logs' : LogInv R (s.extend p e)) (leads : (s.replica p).role = .leader) :
    AckInv R (s.extend p e) := by
  refine inv.of_step logs logs' (logs.le_extend leads) election id
    ?_ fun vote unknown => absurd vote unknown
  exact Replica.Grows.forall_set ⟨le_rfl, fun _ => id, prefix_append _ _⟩

/-- Every step keeps the meaning of acknowledgements. -/
theorem step (next : Step R p s s') : AckInv R s' := by
  have logs' := logs.step election next
  cases next with
  | advance higher =>
    exact inv.set logs election logs' ⟨higher.le, exposed_of_lt higher, prefix_rfl⟩
  | demote => exact inv.set logs election logs' ⟨le_rfl, fun _ => id, prefix_rfl⟩
  | attach =>
    exact inv.set logs election logs'
      ⟨le_rfl, fun _ => Or.imp_right fun now => ⟨now.1, trivial⟩, prefix_rfl⟩
  | campaign => exact inv.campaign logs election
  | grant _ stood upToDate free => exact inv.grant logs election logs' stood upToDate free
  | win voters candidate elected votes =>
    exact inv.win logs election candidate
      (election.leader_eq_none candidate elected votes)
  | extend leads => exact inv.extend logs election logs' leads
  | accept _ attached leader splices => exact inv.accept attached leader splices
  | ack leader bound agrees => exact inv.ack election leader bound agrees

end

end AckInv

/-! ## Leader completeness -/

/-- A committing set acknowledged the first `x` entries of the leader of term `t`,
and the last of them is of that term. -/
def History.Committed (R : Rules ν ε) (h : History ν ε) (t x : ℕ) : Prop :=
  (∃ l e, h.upTo t x = l ++ [e] ∧ R.termOf e = t) ∧
    ∃ Q, R.Commits Q ∧ ∀ q ∈ Q, h.acked q t x

/-- `log` is part of a prefix that was committed in a term up to `T`. -/
def History.Chosen (R : Rules ν ε) (h : History ν ε) (T : ℕ) (log : List ε) : Prop :=
  log = [] ∨ ∃ t x, t ≤ T ∧ h.Committed R t x ∧ log <+: h.upTo t x

theorem History.Chosen.of_isPrefix {h : History ν ε} {T T' : ℕ} {log' : List ε}
    (chosen : h.Chosen R T log) (shorter : log' <+: log) (le : T ≤ T') : h.Chosen R T' log' := by
  rcases chosen with rfl | ⟨t, x, bound, committed, inside⟩
  · exact .inl (prefix_nil.mp shorter)
  · exact .inr ⟨t, x, bound.trans le, committed, shorter.trans inside⟩

/-- All three invariants of a replicated log. -/
structure Inv (R : Rules ν ε) (s : State ν ε) : Prop where
  election : ElectionInv R s
  logs : LogInv R s
  acks : AckInv R s

namespace Inv

variable (inv : Inv R s) {t x T : ℕ} {c : ν} {log M : List ε}

include inv

theorem isPrefix_leader (committed : s.Committed R t x) (later : t < t')
    (leads : s.leader t' = some (c, M)) : s.upTo t x <+: M := by
  induction t' using Nat.strong_induction_on generalizing c M with
  | _ t' ih =>
    obtain ⟨⟨l, e, last, termEq⟩, B, commitsB, acks⟩ := committed
    obtain ⟨A, electsA, votes⟩ := inv.election.leader_quorum leads
    obtain ⟨q, inA, inB⟩ := R.elects_meet_commits electsA commitsB
    obtain ⟨log, new, stood, rfl, _⟩ := (inv.logs.leaderLog leads).stood
    have inCandidate := inv.acks.vote_log (votes q inA) stood (acks q inB) later last termEq
      fun u d M' after before leads' => ih u before after leads'
    exact inCandidate.trans (prefix_append log new)

theorem leader_of_committed (committed : s.Committed R t x) :
    ∃ c M, s.leader t = some (c, M) ∧ x ≤ M.length := by
  obtain ⟨_, B, commits, acks⟩ := committed
  obtain ⟨q, mem⟩ := R.commits_nonempty commits
  exact inv.acks.ack_leader (acks q mem)

/-- A leader has everything that was chosen up to its own term. -/
theorem chosen_isPrefix_leader (chosen : s.Chosen R T log) (le : T ≤ t)
    (leads : s.leader t = some (c, M)) : log <+: M := by
  rcases chosen with rfl | ⟨t', x, bound, committed, inside⟩
  · exact nil_prefix
  · rcases eq_or_lt_of_le (bound.trans le) with rfl | later
    · exact inside.trans (History.upTo_isPrefix leads)
    · exact inside.trans (inv.isPrefix_leader committed later leads)

theorem chosen_comparable {T' : ℕ} {log' : List ε} (first : s.Chosen R T log)
    (second : s.Chosen R T' log') : log <+: log' ∨ log' <+: log := by
  rcases first with rfl | ⟨t, x, _, committed, inFirst⟩
  · exact .inl nil_prefix
  rcases second with rfl | ⟨t', x', _, committed', inSecond⟩
  · exact .inr nil_prefix
  -- the leader of the later of the two terms has both
  have chosen : s.Chosen R t log := .inr ⟨t, x, le_rfl, committed, inFirst⟩
  have chosen' : s.Chosen R t' log' := .inr ⟨t', x', le_rfl, committed', inSecond⟩
  rcases le_total t t' with le | le
  · obtain ⟨c, M, leads, _⟩ := inv.leader_of_committed committed'
    exact prefix_or_prefix_of_prefix (inv.chosen_isPrefix_leader chosen le leads)
      (inv.chosen_isPrefix_leader chosen' le_rfl leads)
  · obtain ⟨c, M, leads, _⟩ := inv.leader_of_committed committed
    exact prefix_or_prefix_of_prefix (inv.chosen_isPrefix_leader chosen le_rfl leads)
      (inv.chosen_isPrefix_leader chosen' le leads)

/-- What is chosen stays chosen. -/
theorem chosen_mono (le : s.Le s'.toHistory) (chosen : s.Chosen R T log) : s'.Chosen R T log := by
  rcases chosen with rfl | ⟨t, x, bound, committed, inside⟩
  · exact .inl rfl
  · obtain ⟨c, M, leads, short⟩ := inv.leader_of_committed committed
    have same := le.upTo_eq leads short
    obtain ⟨⟨l, e, last, termEq⟩, B, commits, acks⟩ := committed
    exact .inr ⟨t, x, bound, ⟨⟨l, e, same.trans last, termEq⟩, B, commits,
      fun q mem => le.acked (acks q mem)⟩, same.symm ▸ inside⟩

variable [DecidableEq ν]

theorem step (next : Step R p s s') : Inv R s' where
  election := inv.election.step next
  logs := inv.logs.step inv.election next
  acks := inv.acks.step inv.logs inv.election next

/-- A run keeps the invariants, and history grows along it. -/
theorem steps (run : Steps R p s s') : Inv R s' ∧ s.Le s'.toHistory := by
  induction run with
  | refl => exact ⟨inv, .refl _⟩
  | tail _ next ih =>
    exact ⟨ih.1.step next, ih.2.trans (next.le ih.1.election ih.1.logs)⟩

end Inv

/-! ## The initial state -/

/-- Nothing has happened yet. -/
structure State.Fresh (s : State ν ε) : Prop where
  votedFor : ∀ p t, s.votedFor p t = none
  stood : ∀ p t, s.stood p t = none
  leader : ∀ t, s.leader t = none
  acked : ∀ p t x, ¬s.acked p t x
  role : ∀ p, (s.replica p).role = .follower
  vote : ∀ p, (s.replica p).vote = none
  log : ∀ p, (s.replica p).log = []

theorem State.Fresh.inv (fresh : s.Fresh) : Inv R s where
  election := by
    refine ⟨fun p => ?_, ?_, ?_⟩
    · constructor <;> simp [fresh.votedFor, fresh.stood, fresh.leader, fresh.role, fresh.vote]
    all_goals simp [fresh.votedFor, fresh.leader]
  logs := by
    refine ⟨fun p => ?_, ?_, ?_, ?_⟩
    · constructor
      · rw [fresh.log]
        exact .nil
      all_goals simp [fresh.role, fresh.log]
    all_goals simp [fresh.stood, fresh.leader]
  acks := by
    constructor <;> simp [fresh.acked]

end Hermes.Replication
