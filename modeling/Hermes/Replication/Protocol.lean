import Mathlib

/-!
# Leader-based replication of a log

An abstract account of log replication by elected leaders.  Every replica has a
current term, a role, a vote and a log.  A state also carries the history that
the safety arguments speak about: who voted for whom in which term, with which
log a candidate stood, which log the leader of a term has built, and up to which
position a replica has acknowledged that log.

Nothing here fixes how replicas communicate.  A step is any action whose
precondition holds of the history, so an implementation with lossy messages is
an instance once its messages are shown to report history truthfully.
-/

namespace Hermes.Replication

open Function

universe u v

/-- The role of a replica in its current term. -/
inductive Role where
  | follower
  | candidate
  | leader
  deriving DecidableEq

/-- The local state of one replica.  It is attached once it has accepted some
leader of its current term, so that its log may hold entries of that leader. -/
structure Replica (ν : Type u) (ε : Type v) where
  term : ℕ
  role : Role
  vote : Option ν
  attached : Prop
  log : List ε

/-- What has happened so far, indexed by term. -/
structure History (ν : Type u) (ε : Type v) where
  /-- The candidate a replica voted for in a term. -/
  votedFor : ν → ℕ → Option ν
  /-- The log with which a candidate stood for election in a term. -/
  stood : ν → ℕ → Option (List ε)
  /-- The leader of a term, with the log it has built so far. -/
  leader : ℕ → Option (ν × List ε)
  /-- The replica has acknowledged a prefix of the log of the leader of a term. -/
  acked : ν → ℕ → ℕ → Prop

structure State (ν : Type u) (ε : Type v) extends History ν ε where
  replica : ν → Replica ν ε

variable {ν : Type u} {ε : Type v}

/-- The log that the leader of term `t` has built, empty when there is none. -/
def History.logOf (h : History ν ε) (t : ℕ) : List ε :=
  ((h.leader t).map Prod.snd).getD []

theorem History.logOf_eq {h : History ν ε} {t : ℕ} {c : ν} {M : List ε}
    (leads : h.leader t = some (c, M)) : h.logOf t = M := by
  simp [logOf, leads]

section Logs

variable (termOf : ε → ℕ)

/-- The term of the last entry, zero for an empty log. -/
def lastTerm (log : List ε) : ℕ :=
  (log.getLast?.map termOf).getD 0

/-- The candidate's log is at least as up to date as the voter's own. -/
def UpToDate (candidate own : List ε) : Prop :=
  lastTerm termOf own < lastTerm termOf candidate ∨
    lastTerm termOf own = lastTerm termOf candidate ∧ own.length ≤ candidate.length

/-- `log` is a part of the leader's log that keeps everything on which the
replica's own log already agrees with it. -/
def Splices (own leaderLog log : List ε) : Prop :=
  log <+: leaderLog ∧ ∀ l, l <+: own → l <+: leaderLog → l <+: log

/-- Every entry stems from the leader of its term, together with all entries
before it. -/
def History.Rooted (h : History ν ε) (log : List ε) : Prop :=
  ∀ l e, l ++ [e] <+: log → ∃ c M, h.leader (termOf e) = some (c, M) ∧ l ++ [e] <+: M

end Logs

namespace State

variable [DecidableEq ν]

/-- Replace the local state of one replica. -/
def set (s : State ν ε) (p : ν) (r : Replica ν ε) : State ν ε :=
  { s with replica := Function.update s.replica p r }

@[simp]
theorem set_replica_self (s : State ν ε) (p : ν) (r : Replica ν ε) : (s.set p r).replica p = r := by
  simp [set]

variable {p q : ν}

theorem set_replica_of_ne (s : State ν ε) (r : Replica ν ε) (ne : q ≠ p) :
    (s.set p r).replica q = s.replica q := by
  simp [set, ne]

/-- Adopt a higher term as a follower that has not voted yet. -/
def advance (s : State ν ε) (p : ν) (t : ℕ) : State ν ε :=
  s.set p { s.replica p with term := t, role := .follower, vote := none, attached := False }

/-- Give up a candidacy. -/
def demote (s : State ν ε) (p : ν) : State ν ε :=
  s.set p { s.replica p with role := .follower }

/-- Accept some leader in the current term. -/
def attach (s : State ν ε) (p : ν) : State ν ε :=
  s.set p { s.replica p with attached := True }

/-- Record a vote of `p` for `c` in term `t`. -/
def recordVote (s : State ν ε) (p c : ν) (t : ℕ) : State ν ε :=
  { s with
    votedFor := Function.update s.votedFor p
      (Function.update (s.votedFor p) t (some c)) }

/-- Stand for election in the next term, with a vote for oneself. -/
def campaign (s : State ν ε) (p : ν) : State ν ε :=
  let r := s.replica p
  let s' := s.recordVote p p (r.term + 1)
  { s' with
    stood := Function.update s.stood p
      (Function.update (s.stood p) (r.term + 1) (some r.log)) }.set p
    { r with term := r.term + 1, role := .candidate, vote := some p, attached := False }

/-- Vote for `c` in term `t`. -/
def grant (s : State ν ε) (p c : ν) (t : ℕ) : State ν ε :=
  (s.recordVote p c t).set p { s.replica p with term := t, vote := some c }

/-- Record the log of the leader of a term. -/
def recordLeader (s : State ν ε) (p : ν) (t : ℕ) (log : List ε) : State ν ε :=
  { s with leader := Function.update s.leader t (some (p, log)) }

/-- Become leader of the current term. -/
def win (s : State ν ε) (p : ν) : State ν ε :=
  let r := s.replica p
  (s.recordLeader p r.term r.log).set p { r with role := .leader, attached := True }

/-- Append an entry as leader. -/
def extend (s : State ν ε) (p : ν) (e : ε) : State ν ε :=
  let r := s.replica p
  (s.recordLeader p r.term (r.log ++ [e])).set p { r with log := r.log ++ [e] }

/-- Adopt a log as a follower. -/
def accept (s : State ν ε) (p : ν) (log : List ε) : State ν ε :=
  s.set p { s.replica p with log := log }

/-- Acknowledge the leader's log at every position up to `x`. -/
def ack (s : State ν ε) (p : ν) (x : ℕ) : State ν ε :=
  { s with acked := fun q t y =>
      s.acked q t y ∨ q = p ∧ t = (s.replica p).term ∧ y ≤ x }

theorem campaign_votedFor (s : State ν ε) (p q : ν) (t : ℕ) :
    (s.campaign p).votedFor q t =
      if q = p ∧ t = (s.replica p).term + 1 then some p else s.votedFor q t := by
  by_cases same : q = p
  · subst same
    simp [campaign, recordVote, set, update_apply]
  · simp [campaign, recordVote, set, same]

theorem campaign_stood (s : State ν ε) (p q : ν) (t : ℕ) :
    (s.campaign p).stood q t =
      if q = p ∧ t = (s.replica p).term + 1 then some (s.replica p).log
      else s.stood q t := by
  by_cases same : q = p
  · subst same
    simp [campaign, set, update_apply]
  · simp [campaign, set, same]

theorem grant_votedFor (s : State ν ε) (p q c : ν) (t u : ℕ) :
    (s.grant p c t).votedFor q u = if q = p ∧ u = t then some c else s.votedFor q u := by
  by_cases same : q = p
  · subst same
    simp [grant, recordVote, set, update_apply]
  · simp [grant, recordVote, set, same]

theorem win_leader (s : State ν ε) (p : ν) (t : ℕ) :
    (s.win p).leader t =
      if t = (s.replica p).term then some (p, (s.replica p).log) else s.leader t := by
  simp [win, recordLeader, set, update_apply]

theorem extend_leader (s : State ν ε) (p : ν) (e : ε) (t : ℕ) :
    (s.extend p e).leader t =
      if t = (s.replica p).term then some (p, (s.replica p).log ++ [e])
      else s.leader t := by
  simp [extend, recordLeader, set, update_apply]

end State

/-- What a protocol fixes: the term of an entry, which entry a leader may append
to its log, which sets of voters elect a leader and which sets of replicas commit
an entry.  Electing sets meet each other and every committing set. -/
structure Rules (ν : Type u) (ε : Type v) where
  termOf : ε → ℕ
  Fits : List ε → ε → Prop
  Elects : Finset ν → Prop
  Commits : Finset ν → Prop
  elects_meet : ∀ {A B}, Elects A → Elects B → ∃ q, q ∈ A ∧ q ∈ B
  elects_meet_commits : ∀ {A B}, Elects A → Commits B → ∃ q, q ∈ A ∧ q ∈ B
  commits_nonempty : ∀ {B}, Commits B → B.Nonempty

variable [DecidableEq ν]

/-- The steps of replica `p`. -/
inductive Step (R : Rules ν ε) (p : ν) : State ν ε → State ν ε → Prop where
  | advance {s t} (higher : (s.replica p).term < t) :
    Step R p s (s.advance p t)
  | demote {s} (candidate : (s.replica p).role = .candidate) :
    Step R p s (s.demote p)
  | attach {s} : Step R p s (s.attach p)
  | campaign {s} (notLeader : (s.replica p).role ≠ .leader) :
    Step R p s (s.campaign p)
  | grant {s c t log} (follower : (s.replica p).role = .follower)
    (stood : s.stood c t = some log)
    (upToDate : UpToDate R.termOf log (s.replica p).log)
    (free : (s.replica p).term < t ∨
      (s.replica p).term = t ∧
        ((s.replica p).vote = some c ∨
          (s.replica p).vote = none ∧ ¬(s.replica p).attached)) :
    Step R p s (s.grant p c t)
  | win {s} (voters : Finset ν) (candidate : (s.replica p).role = .candidate)
    (elected : R.Elects voters)
    (votes : ∀ q ∈ voters, s.votedFor q (s.replica p).term = some p) :
    Step R p s (s.win p)
  | extend {s e} (leads : (s.replica p).role = .leader)
    (termEq : R.termOf e = (s.replica p).term) (fits : R.Fits (s.replica p).log e) :
    Step R p s (s.extend p e)
  | accept {s c M log} (follower : (s.replica p).role = .follower)
    (attached : (s.replica p).attached)
    (leader : s.leader (s.replica p).term = some (c, M))
    (splices : Splices (s.replica p).log M log) :
    Step R p s (s.accept p log)
  | ack {s c M x} (leader : s.leader (s.replica p).term = some (c, M))
    (bound : x ≤ M.length)
    (agrees : M.take x <+: (s.replica p).log) :
    Step R p s (s.ack p x)

/-- Finitely many steps of replica `p`. -/
def Steps (R : Rules ν ε) (p : ν) : State ν ε → State ν ε → Prop :=
  Relation.ReflTransGen (Step R p)

variable {R : Rules ν ε} {s s' : State ν ε}

theorem Step.replica_of_ne (next : Step R p s s') (ne : q ≠ p) :
    s'.replica q = s.replica q := by
  cases next <;> first | rfl | exact State.set_replica_of_ne _ _ ne

theorem Steps.replica_of_ne (run : Steps R p s s') (ne : q ≠ p) :
    s'.replica q = s.replica q := by
  induction run with
  | refl => rfl
  | tail _ next ih => exact (next.replica_of_ne ne).trans ih

/-! ## History only grows -/

/-- The later history keeps every vote, candidacy and acknowledgement, and the
leaders' logs only get longer. -/
structure History.Le (h h' : History ν ε) : Prop where
  votedFor : ∀ {p t c}, h.votedFor p t = some c → h'.votedFor p t = some c
  stood : ∀ {p t log}, h.stood p t = some log → h'.stood p t = some log
  leader : ∀ {t c M}, h.leader t = some (c, M) → ∃ M', h'.leader t = some (c, M') ∧ M <+: M'
  acked : ∀ {p t x}, h.acked p t x → h'.acked p t x

omit [DecidableEq ν] in
theorem History.Le.refl (h : History ν ε) : h.Le h :=
  ⟨id, id, fun leader => ⟨_, leader, List.prefix_rfl⟩, id⟩

omit [DecidableEq ν] in
theorem History.Le.leads {h h' : History ν ε} (le : h.Le h') {t : ℕ} {c : ν}
    (elected : ∃ M, h.leader t = some (c, M)) : ∃ M, h'.leader t = some (c, M) := by
  obtain ⟨M, leader⟩ := elected
  obtain ⟨M', leader', _⟩ := le.leader leader
  exact ⟨M', leader'⟩

omit [DecidableEq ν] in
theorem History.Le.trans {h₁ h₂ h₃ : History ν ε} (first : h₁.Le h₂) (second : h₂.Le h₃) :
    h₁.Le h₃ where
  votedFor vote := second.votedFor (first.votedFor vote)
  stood log := second.stood (first.stood log)
  leader leads := by
    obtain ⟨M₂, leads₂, prefix₂⟩ := first.leader leads
    obtain ⟨M₃, leads₃, prefix₃⟩ := second.leader leads₂
    exact ⟨M₃, leads₃, prefix₂.trans prefix₃⟩
  acked acks := second.acked (first.acked acks)

end Hermes.Replication
