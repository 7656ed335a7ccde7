import Hermes.Replication.Protocol

/-!
# At most one leader in a term

A replica votes at most once in a term, because its vote is part of the history
and only changes together with its term.  Two electing sets of voters share a
member, so no term has two leaders; and a leader keeps its role until it leaves
the term, so nobody is elected twice either.
-/

namespace Hermes.Replication

universe u v

variable {ν : Type u} {ε : Type v}

/-- The replica may vote for `c` in term `t`. -/
def Replica.Free (r : Replica ν ε) (c : ν) (t : ℕ) : Prop :=
  r.term < t ∨ r.term = t ∧ (r.vote = some c ∨ r.vote = none ∧ ¬ r.attached)

variable {r : Replica ν ε} {t : ℕ}

theorem Replica.Free.le {c : ν} (free : r.Free c t) : r.term ≤ t :=
  free.elim le_of_lt fun now => now.1.le

/-- What history and the local state of a replica have to do with each other. -/
structure LocalElection (h : History ν ε) (p : ν) (r : Replica ν ε) : Prop where
  vote_eq : h.votedFor p r.term = r.vote
  votedFor_le : ∀ {t c}, h.votedFor p t = some c → t ≤ r.term
  stood_le : ∀ {t log}, h.stood p t = some log → t ≤ r.term
  vote_self : r.role ≠ .follower → r.vote = some p
  leads : r.role = .leader → ∃ M, h.leader r.term = some (p, M)
  leader_le : ∀ {t M}, h.leader t = some (p, M) → t ≤ r.term
  leader_tenure : ∀ {M}, h.leader r.term = some (p, M) → r.role = .leader

/-- Votes go to candidates that stood, and leaders have an electing set of votes. -/
structure ElectionInv (R : Rules ν ε) (s : State ν ε) : Prop where
  localInv : ∀ p, LocalElection s.toHistory p (s.replica p)
  votedFor_stood : ∀ {p t c}, s.votedFor p t = some c → ∃ log, s.stood c t = some log
  leader_quorum : ∀ {t c M}, s.leader t = some (c, M) →
    ∃ Q, R.Elects Q ∧ ∀ q ∈ Q, s.votedFor q t = some c

namespace LocalElection

variable {h : History ν ε} {p : ν} {r : Replica ν ε}

section

variable (inv : LocalElection h p r)

include inv

/-- A replica has not voted in a term it has not reached. -/
theorem votedFor_eq_none (later : r.term < t) : h.votedFor p t = none := by
  cases vote : h.votedFor p t with
  | none => rfl
  | some c => exact absurd (inv.votedFor_le vote) (not_le.mpr later)

/-- Entering a later term as a follower without a vote. -/
theorem advance (higher : r.term < t) :
    LocalElection h p { r with term := t, role := .follower, vote := none, attached := False } where
  vote_eq := inv.votedFor_eq_none higher
  votedFor_le vote := (inv.votedFor_le vote).trans higher.le
  stood_le stood := (inv.stood_le stood).trans higher.le
  vote_self notFollower := absurd rfl notFollower
  leads leader := nomatch leader
  leader_le leader := (inv.leader_le leader).trans higher.le
  leader_tenure leader := absurd (inv.leader_le leader) (not_le.mpr higher)

theorem demote (candidate : r.role = .candidate) :
    LocalElection h p { r with role := .follower } where
  __ := inv
  vote_self notFollower := absurd rfl notFollower
  leads leader := nomatch leader
  leader_tenure leader := by
    have leads := inv.leader_tenure leader
    rw [candidate] at leads
    nomatch leads

/-- The fields that elections do not look at may change freely. -/
theorem congr (attached : Prop) (log : List ε) :
    LocalElection h p { r with attached := attached, log := log } :=
  { inv with }

/-- Only the part of history that concerns the replica itself matters. -/
theorem of_history_eq {h' : History ν ε} (votedFor : ∀ t, h'.votedFor p t = h.votedFor p t)
    (stood : ∀ t, h'.stood p t = h.stood p t)
    (leader : ∀ t M, h'.leader t = some (p, M) → ∃ M', h.leader t = some (p, M'))
    (leader' : ∀ t M, h.leader t = some (p, M) → ∃ M', h'.leader t = some (p, M')) :
    LocalElection h' p r where
  vote_eq := by rw [votedFor, inv.vote_eq]
  votedFor_le vote := inv.votedFor_le (by rwa [votedFor] at vote)
  stood_le log := inv.stood_le (by rwa [stood] at log)
  vote_self := inv.vote_self
  leads role := by
    obtain ⟨M, leads⟩ := inv.leads role
    exact leader' _ _ leads
  leader_le leads := by
    obtain ⟨M', leads'⟩ := leader _ _ leads
    exact inv.leader_le leads'
  leader_tenure leads := by
    obtain ⟨M', leads'⟩ := leader _ _ leads
    exact inv.leader_tenure leads'

end

end LocalElection

variable [DecidableEq ν]

/-- A property of all replicas survives a change of one replica that keeps it. -/
theorem State.forall_set {P : ν → Replica ν ε → Prop} {s : State ν ε} {p : ν}
    (all : ∀ q, q ≠ p → P q (s.replica q)) (own : P p r) : ∀ q, P q ((s.set p r).replica q) := by
  intro q
  by_cases same : q = p
  · subst same
    simpa using own
  · rw [State.set_replica_of_ne _ _ same]
    exact all q same

namespace ElectionInv

variable {R : Rules ν ε} {s : State ν ε} {p c : ν} {t : ℕ} (inv : ElectionInv R s)

include inv

theorem set (own : LocalElection s.toHistory p r) : ElectionInv R (s.set p r) where
  __ := inv
  localInv := State.forall_set (fun q _ => inv.localInv q) own

theorem campaign : ElectionInv R (s.campaign p) where
  localInv := by
    have own := inv.localInv p
    refine State.forall_set (fun q ne => ?_) ?_
    · exact (inv.localInv q).of_history_eq
        (fun t => (s.campaign_votedFor p q t).trans (by simp [ne]))
        (fun t => (s.campaign_stood p q t).trans (by simp [ne]))
        (fun t M leads => ⟨M, leads⟩) (fun t M leads => ⟨M, leads⟩)
    · refine ⟨(s.campaign_votedFor p p _).trans (by simp), ?_, ?_, fun _ => rfl,
        nofun, fun leads => (own.leader_le leads).trans (Nat.le_succ _),
        fun leads => absurd (own.leader_le leads) (Nat.not_succ_le_self _)⟩
      · intro t c vote
        rw [show _ = _ from s.campaign_votedFor p p t] at vote
        split at vote
        · rename_i new
          exact new.2.le
        · exact (own.votedFor_le vote).trans (Nat.le_succ _)
      · intro t log stood
        rw [show _ = _ from s.campaign_stood p p t] at stood
        split at stood
        · rename_i new
          exact new.2.le
        · exact (own.stood_le stood).trans (Nat.le_succ _)
  votedFor_stood := by
    intro q t c vote
    rw [State.campaign_votedFor] at vote
    rw [State.campaign_stood]
    split at vote
    · rename_i new
      cases vote
      exact ⟨_, if_pos ⟨rfl, new.2⟩⟩
    · obtain ⟨log, stood⟩ := inv.votedFor_stood vote
      have old : ¬(c = p ∧ t = (s.replica p).term + 1) := by
        rintro ⟨rfl, rfl⟩
        exact absurd ((inv.localInv c).stood_le stood) (Nat.not_succ_le_self _)
      exact ⟨log, by rw [if_neg old, stood]⟩
  leader_quorum := by
    intro t c M leads
    obtain ⟨Q, elected, votes⟩ := inv.leader_quorum leads
    refine ⟨Q, elected, fun q mem => ?_⟩
    have old : ¬(q = p ∧ t = (s.replica p).term + 1) := by
      rintro ⟨rfl, rfl⟩
      exact absurd ((inv.localInv q).votedFor_le (votes q mem)) (Nat.not_succ_le_self _)
    rw [State.campaign_votedFor, if_neg old]
    exact votes q mem

omit [DecidableEq ν] in
/-- A vote cast now does not contradict an earlier vote in the same term. -/
theorem vote_stable {c' : ν} (free : (s.replica p).Free c t) (vote : s.votedFor p t = some c') :
    c' = c := by
  have own := inv.localInv p
  rcases free with later | ⟨rfl, same | ⟨fresh, _⟩⟩
  · rw [own.votedFor_eq_none later] at vote
    nomatch vote
  · rw [own.vote_eq, same] at vote
    exact (Option.some.inj vote).symm
  · rw [own.vote_eq, fresh] at vote
    nomatch vote

theorem grant {log : List ε} (follower : (s.replica p).role = .follower)
    (stood : s.stood c t = some log) (free : (s.replica p).Free c t) :
    ElectionInv R (s.grant p c t) where
  localInv := by
    have own := inv.localInv p
    have reached := free.le
    refine State.forall_set (fun q ne => ?_) ?_
    · exact (inv.localInv q).of_history_eq
        (fun u => (s.grant_votedFor p q c t u).trans (by simp [ne])) (fun _ => rfl)
        (fun t M leads => ⟨M, leads⟩) (fun t M leads => ⟨M, leads⟩)
    · refine ⟨(s.grant_votedFor p p c t t).trans (by simp), ?_,
        fun log => (own.stood_le log).trans reached,
        fun notFollower => absurd follower notFollower,
        fun leads => absurd (follower.symm.trans leads) (by simp),
        fun leads => (own.leader_le leads).trans reached, ?_⟩
      · intro u c' vote
        rw [show _ = _ from s.grant_votedFor p p c t u] at vote
        split at vote
        · rename_i new
          exact new.2.le
        · exact (own.votedFor_le vote).trans reached
      · intro M leads
        -- a leader of the new term would still be leading, but a follower votes
        have termEq : (s.replica p).term = t := le_antisymm reached (own.leader_le leads)
        exact own.leader_tenure (termEq.symm ▸ leads)
  votedFor_stood := by
    intro q u c' vote
    rw [State.grant_votedFor] at vote
    split at vote
    · rename_i new
      cases vote
      exact ⟨log, new.2 ▸ stood⟩
    · exact inv.votedFor_stood vote
  leader_quorum := by
    intro u c' M leads
    obtain ⟨Q, elected, votes⟩ := inv.leader_quorum leads
    refine ⟨Q, elected, fun q mem => ?_⟩
    rw [State.grant_votedFor]
    split
    · rename_i new
      obtain ⟨rfl, rfl⟩ := new
      rw [inv.vote_stable free (votes q mem)]
    · exact votes q mem

section

variable {voters : Finset ν} (candidate : (s.replica p).role = .candidate)
  (elected : R.Elects voters) (votes : ∀ q ∈ voters, s.votedFor q (s.replica p).term = some p)

include candidate elected votes

omit [DecidableEq ν] in
/-- No leader of a term precedes the one that wins it now. -/
theorem leader_eq_none : s.leader (s.replica p).term = none := by
  cases leads : s.leader (s.replica p).term with
  | none => rfl
  | some leaderOf =>
    obtain ⟨c, M⟩ := leaderOf
    obtain ⟨others, othersElect, otherVotes⟩ := inv.leader_quorum leads
    obtain ⟨q, inVoters, inOthers⟩ := R.elects_meet elected othersElect
    have sameLeader : c = p :=
      Option.some.inj ((otherVotes q inOthers).symm.trans (votes q inVoters))
    subst sameLeader
    have role := (inv.localInv c).leader_tenure leads
    rw [candidate] at role
    nomatch role

theorem win : ElectionInv R (s.win p) where
  localInv := by
    have own := inv.localInv p
    have fresh := inv.leader_eq_none candidate elected votes
    refine State.forall_set (fun q ne => ?_) ?_
    · refine (inv.localInv q).of_history_eq (fun _ => rfl) (fun _ => rfl) ?_ ?_
      · intro t M leads
        rw [show _ = _ from s.win_leader p t] at leads
        split at leads
        · cases leads
          exact absurd rfl ne
        · exact ⟨M, leads⟩
      · intro t M leads
        have old : t ≠ (s.replica p).term := by
          rintro rfl
          rw [fresh] at leads
          nomatch leads
        exact ⟨M, (s.win_leader p t).trans (by rw [if_neg old, leads])⟩
    · refine ⟨own.vote_eq, own.votedFor_le, own.stood_le,
        fun _ => own.vote_self (by simp [candidate]),
        fun _ => ⟨_, (s.win_leader p _).trans (if_pos rfl)⟩, ?_, fun _ => rfl⟩
      intro t M leads
      rw [show _ = _ from s.win_leader p t] at leads
      split at leads
      · rename_i now
        exact now.le
      · exact own.leader_le leads
  votedFor_stood := inv.votedFor_stood
  leader_quorum := by
    intro t c M leads
    rw [State.win_leader] at leads
    split at leads
    · rename_i now
      cases leads
      exact ⟨voters, elected, fun q mem => now ▸ votes q mem⟩
    · exact inv.leader_quorum leads

end

theorem extend {e : ε} (leads : (s.replica p).role = .leader) : ElectionInv R (s.extend p e) where
  localInv := by
    have own := inv.localInv p
    obtain ⟨M, current⟩ := own.leads leads
    have same : ∀ q t M', (s.extend p e).leader t = some (q, M') →
        ∃ M'', s.leader t = some (q, M'') := by
      intro q t M' leads'
      rw [State.extend_leader] at leads'
      split at leads'
      · rename_i now
        cases leads'
        exact ⟨M, now ▸ current⟩
      · exact ⟨M', leads'⟩
    have same' : ∀ q t M', s.leader t = some (q, M') →
        ∃ M'', (s.extend p e).leader t = some (q, M'') := by
      intro q t M' leads'
      rw [State.extend_leader]
      split
      · rename_i now
        subst now
        rw [current] at leads'
        cases leads'
        exact ⟨_, rfl⟩
      · exact ⟨M', leads'⟩
    refine State.forall_set (fun q _ => ?_) ?_
    · exact (inv.localInv q).of_history_eq (fun _ => rfl) (fun _ => rfl) (same q) (same' q)
    · exact (own.congr _ _).of_history_eq (fun _ => rfl) (fun _ => rfl) (same p) (same' p)
  votedFor_stood := inv.votedFor_stood
  leader_quorum := by
    intro t c M leads'
    rw [State.extend_leader] at leads'
    split at leads'
    · rename_i now
      cases leads'
      obtain ⟨M, current⟩ := (inv.localInv p).leads leads
      exact inv.leader_quorum (now ▸ current)
    · exact inv.leader_quorum leads'

/-- Every step keeps the election invariant. -/
theorem step {s' : State ν ε} (next : Step R p s s') : ElectionInv R s' := by
  cases next with
  | advance higher => exact inv.set ((inv.localInv p).advance higher)
  | demote candidate => exact inv.set ((inv.localInv p).demote candidate)
  | attach | accept => exact inv.set ((inv.localInv p).congr _ _)
  | campaign => exact inv.campaign
  | grant follower stood _ free => exact inv.grant follower stood free
  | win voters candidate elected votes => exact inv.win candidate elected votes
  | extend leads => exact inv.extend leads
  | ack =>
    refine ⟨fun q => ?_, inv.votedFor_stood, inv.leader_quorum⟩
    exact (inv.localInv q).of_history_eq (fun _ => rfl) (fun _ => rfl)
      (fun t M leads => ⟨M, leads⟩) (fun t M leads => ⟨M, leads⟩)

end ElectionInv

end Hermes.Replication
