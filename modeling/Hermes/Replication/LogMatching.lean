import Hermes.Data.Runs
import Hermes.Replication.Election

/-!
# Logs stem from the leaders' logs

Each entry of a log was created by the leader of its term, and a log that holds
it agrees with that leader's log up to it.  Two logs that hold entries of one
term at one position therefore agree up to that position.
-/

namespace Hermes.Replication

open List

universe u v

variable {ν : Type u} {ε : Type v} {termOf : ε → ℕ} {R : Rules ν ε}

namespace History.Rooted

variable {h h' : History ν ε} {log l : List ε} {e : ε}

theorem nil : h.Rooted termOf [] := by
  intro l e inNil
  simp at inNil

/-- A rooted log that ends in an entry is part of the log of that entry's leader. -/
theorem whole (rooted : h.Rooted termOf (l ++ [e])) :
    ∃ c M, h.leader (termOf e) = some (c, M) ∧ l ++ [e] <+: M :=
  rooted l e prefix_rfl

variable (rooted : h.Rooted termOf log)

include rooted

theorem mono (le : h.Le h') : h'.Rooted termOf log := by
  intro l e inLog
  obtain ⟨c, M, leads, inLeader⟩ := rooted l e inLog
  obtain ⟨M', leads', longer⟩ := le.leader leads
  exact ⟨c, M', leads', inLeader.trans longer⟩

theorem of_isPrefix {log' : List ε} (shorter : log' <+: log) : h.Rooted termOf log' :=
  fun l e inLog => rooted l e (inLog.trans shorter)

/-- Appending an entry of a term whose leader has the resulting log. -/
theorem concat {c : ν} (leads : h.leader (termOf e) = some (c, log ++ [e])) :
    h.Rooted termOf (log ++ [e]) :=
  Runs.forall_prefix_concat.mpr ⟨rooted, c, _, leads, prefix_rfl⟩

/-- Log matching: rooted logs agree up to any position at which they hold
entries of the same term. -/
theorem eq_of_term_eq {log' l' : List ε} {e' : ε} (rooted' : h.Rooted termOf log')
    (inLog : l ++ [e] <+: log) (inLog' : l' ++ [e'] <+: log') (position : l.length = l'.length)
    (sameTerm : termOf e = termOf e') : l ++ [e] = l' ++ [e'] := by
  obtain ⟨c, M, leads, inLeader⟩ := rooted l e inLog
  obtain ⟨c', M', leads', inLeader'⟩ := rooted' l' e' inLog'
  rw [sameTerm, leads'] at leads
  cases leads
  have lengths : (l ++ [e]).length = (l' ++ [e']).length := by simp [position]
  exact (prefix_of_prefix_length_le inLeader inLeader' lengths.le).eq_of_length lengths

end History.Rooted

/-- What the log of a replica has to do with history. -/
structure LocalLog (R : Rules ν ε) (h : History ν ε) (p : ν) (r : Replica ν ε) : Prop where
  rooted : h.Rooted R.termOf r.log
  term_le : ∀ e ∈ r.log, R.termOf e ≤ r.term
  candidate_log : r.role = .candidate → h.stood p r.term = some r.log
  leader_log : r.role = .leader → h.leader r.term = some (p, r.log)

/-- What the log `M` of the leader `c` of term `t` has to do with history: it is
the log with which `c` stood, followed by entries of term `t`. -/
structure LeaderLog (R : Rules ν ε) (h : History ν ε) (t : ℕ) (c : ν) (M : List ε) :
    Prop where
  rooted : h.Rooted R.termOf M
  term_le : ∀ e ∈ M, R.termOf e ≤ t
  fits : ∀ l e, l ++ [e] <+: M → R.Fits l e
  stood : ∃ log new, h.stood c t = some log ∧ M = log ++ new ∧ ∀ e ∈ new, R.termOf e = t

/-- What the logs of replicas, candidates and leaders look like. -/
structure LogInv (R : Rules ν ε) (s : State ν ε) : Prop where
  localLog : ∀ p, LocalLog R s.toHistory p (s.replica p)
  stood_rooted : ∀ {c t log}, s.stood c t = some log → s.Rooted R.termOf log
  stood_lt : ∀ {c t log}, s.stood c t = some log → ∀ e ∈ log, R.termOf e < t
  leaderLog : ∀ {t c M}, s.leader t = some (c, M) → LeaderLog R s.toHistory t c M

variable {h h' : History ν ε} {t : ℕ} {c : ν}

namespace LeaderLog

variable {M : List ε} {e : ε} (inv : LeaderLog R h t c M)

include inv

theorem mono (le : h.Le h') : LeaderLog R h' t c M where
  __ := inv
  rooted := inv.rooted.mono le
  stood := by
    obtain ⟨log, new, stood, rest⟩ := inv.stood
    exact ⟨log, new, le.stood stood, rest⟩

theorem concat (termEq : R.termOf e = t) (fits : R.Fits M e)
    (leads : h.leader t = some (c, M ++ [e])) : LeaderLog R h t c (M ++ [e]) where
  rooted := inv.rooted.concat (termEq ▸ leads)
  term_le := by
    rw [forall_mem_append, forall_mem_singleton]
    exact ⟨inv.term_le, termEq.le⟩
  fits := Runs.forall_prefix_concat.mpr ⟨inv.fits, fits⟩
  stood := by
    obtain ⟨log, new, stood, split, ofTerm⟩ := inv.stood
    refine ⟨log, new ++ [e], stood, by rw [split, append_assoc], ?_⟩
    rw [forall_mem_append, forall_mem_singleton]
    exact ⟨ofTerm, termEq⟩

theorem term_eq {log l : List ε} (stood : h.stood c t = some log) (inLeader : l ++ [e] <+: M)
    (behind : log.length ≤ l.length) : R.termOf e = t := by
  obtain ⟨log', new, stood', rfl, ofTerm⟩ := inv.stood
  rw [stood] at stood'
  cases stood'
  have start : log <+: l :=
    prefix_of_prefix_length_le (prefix_append log new)
      ((prefix_append l [e]).trans inLeader) behind
  obtain ⟨rest, rfl⟩ := start
  rw [append_assoc, prefix_append_right_inj] at inLeader
  exact ofTerm e (inLeader.subset (by simp))

end LeaderLog

variable {r : Replica ν ε}

theorem LocalLog.mono {p : ν} (inv : LocalLog R h p r) (le : h.Le h')
    (leader : r.role = .leader → h'.leader r.term = h.leader r.term) : LocalLog R h' p r where
  rooted := inv.rooted.mono le
  term_le := inv.term_le
  candidate_log role := le.stood (inv.candidate_log role)
  leader_log role := (leader role).trans (inv.leader_log role)

variable [DecidableEq ν] {s : State ν ε} {p : ν}

/-! ## Steps extend history -/

namespace ElectionInv

theorem le_campaign (inv : ElectionInv R s) : s.Le (s.campaign p).toHistory where
  votedFor := by
    intro q t c vote
    rw [State.campaign_votedFor, if_neg, vote]
    rintro ⟨rfl, rfl⟩
    exact absurd ((inv.localInv q).votedFor_le vote) (Nat.not_succ_le_self _)
  stood := by
    intro q t log stood
    rw [State.campaign_stood, if_neg, stood]
    rintro ⟨rfl, rfl⟩
    exact absurd ((inv.localInv q).stood_le stood) (Nat.not_succ_le_self _)
  leader leads := ⟨_, leads, prefix_rfl⟩
  acked := id

theorem le_grant (inv : ElectionInv R s) (free : (s.replica p).Free c t) :
    s.Le (s.grant p c t).toHistory where
  votedFor := by
    intro q u c' vote
    rw [State.grant_votedFor]
    split
    · rename_i new
      obtain ⟨rfl, rfl⟩ := new
      rw [inv.vote_stable free vote]
    · exact vote
  stood := id
  leader leads := ⟨_, leads, prefix_rfl⟩
  acked := id

theorem le_win (fresh : s.leader (s.replica p).term = none) : s.Le (s.win p).toHistory where
  votedFor := id
  stood := id
  leader := by
    intro t c M leads
    refine ⟨M, ?_, prefix_rfl⟩
    rw [State.win_leader, if_neg, leads]
    rintro rfl
    rw [fresh] at leads
    nomatch leads
  acked := id

end ElectionInv

variable {e : ε}

theorem LogInv.le_extend (inv : LogInv R s) (leads : (s.replica p).role = .leader) :
    s.Le (s.extend p e).toHistory where
  votedFor := id
  stood := id
  leader := by
    intro t c M current
    rw [State.extend_leader]
    split
    · rename_i now
      subst now
      rw [(inv.localLog p).leader_log leads] at current
      cases current
      exact ⟨_, rfl, prefix_append _ _⟩
    · exact ⟨M, current, prefix_rfl⟩
  acked := id

variable {s' : State ν ε}

/-- No step forgets history. -/
theorem Step.le (election : ElectionInv R s) (logs : LogInv R s) (next : Step R p s s') :
    s.Le s'.toHistory := by
  cases next with
  | campaign => exact election.le_campaign
  | grant _ _ _ free => exact election.le_grant free
  | win voters candidate elected votes =>
    exact ElectionInv.le_win (election.leader_eq_none candidate elected votes)
  | extend leads => exact logs.le_extend leads
  | ack => exact ⟨id, id, fun leads => ⟨_, leads, prefix_rfl⟩, Or.inl⟩
  | _ => exact .refl _

/-! ## Steps keep logs rooted -/

namespace LogInv

omit [DecidableEq ν] in
/-- Every entry of a rooted log fits behind the entries before it. -/
theorem fits (inv : LogInv R s) {log l : List ε} (rooted : s.Rooted R.termOf log)
    (inLog : l ++ [e] <+: log) : R.Fits l e := by
  obtain ⟨c, M, leads, inLeader⟩ := rooted l e inLog
  exact (inv.leaderLog leads).fits l e inLeader

section

variable (inv : LogInv R s)

include inv

theorem set (own : LocalLog R s.toHistory p r) : LogInv R (s.set p r) where
  __ := inv
  localLog := State.forall_set (fun q _ => inv.localLog q) own

theorem campaign (election : ElectionInv R s) : LogInv R (s.campaign p) := by
  have le := election.le_campaign (p := p)
  have own := inv.localLog p
  refine ⟨State.forall_set (fun q _ => (inv.localLog q).mono le fun _ => rfl) ?_, ?_, ?_,
    fun leads => (inv.leaderLog leads).mono le⟩
  · exact ⟨own.rooted.mono le, fun e mem => (own.term_le e mem).trans (Nat.le_succ _),
      fun _ => (s.campaign_stood p p _).trans (if_pos ⟨rfl, rfl⟩), nofun⟩
  · intro c t log stood
    rw [State.campaign_stood] at stood
    split at stood
    · cases stood
      exact own.rooted.mono le
    · exact (inv.stood_rooted stood).mono le
  · intro c t log stood e mem
    rw [State.campaign_stood] at stood
    split at stood
    · rename_i new
      cases stood
      exact new.2 ▸ Nat.lt_succ_of_le (own.term_le e mem)
    · exact inv.stood_lt stood e mem

theorem grant (le : s.Le (s.grant p c t).toHistory) (follower : (s.replica p).role = .follower)
    (reached : (s.replica p).term ≤ t) : LogInv R (s.grant p c t) where
  localLog := by
    have own := inv.localLog p
    refine State.forall_set (fun q _ => (inv.localLog q).mono le fun _ => rfl) ?_
    exact ⟨own.rooted.mono le, fun e mem => (own.term_le e mem).trans reached,
      fun role => absurd (follower.symm.trans role) (by simp),
      fun role => absurd (follower.symm.trans role) (by simp)⟩
  stood_rooted stood := (inv.stood_rooted stood).mono le
  stood_lt := inv.stood_lt
  leaderLog leads := (inv.leaderLog leads).mono le

theorem win (candidate : (s.replica p).role = .candidate)
    (fresh : s.leader (s.replica p).term = none) : LogInv R (s.win p) := by
  have le := ElectionInv.le_win fresh
  have own := inv.localLog p
  refine ⟨State.forall_set (fun q _ => (inv.localLog q).mono le ?_) ?_,
    fun stood => (inv.stood_rooted stood).mono le, inv.stood_lt, ?_⟩
  · intro role
    refine (s.win_leader p _).trans (if_neg ?_)
    intro sameTerm
    have leads := (inv.localLog q).leader_log role
    rw [sameTerm, fresh] at leads
    nomatch leads
  · exact ⟨own.rooted.mono le, own.term_le, nofun,
      fun _ => (s.win_leader p _).trans (if_pos rfl)⟩
  · intro t c M leads
    rw [State.win_leader] at leads
    split at leads
    · rename_i now
      cases leads
      exact ⟨own.rooted.mono le, now ▸ own.term_le, fun l e inLog => inv.fits own.rooted inLog,
        _, [], now ▸ own.candidate_log candidate, (append_nil _).symm, by simp⟩
    · exact (inv.leaderLog leads).mono le

theorem extend (leads : (s.replica p).role = .leader) (termEq : R.termOf e = (s.replica p).term)
    (fits : R.Fits (s.replica p).log e) : LogInv R (s.extend p e) := by
  have le := inv.le_extend leads (e := e)
  have current := (inv.localLog p).leader_log leads
  have leads' := (s.extend_leader p e (s.replica p).term).trans (if_pos rfl)
  have longer := ((inv.leaderLog current).mono le).concat termEq fits leads'
  refine ⟨State.forall_set (fun q ne => (inv.localLog q).mono le ?_) ?_,
    fun stood => (inv.stood_rooted stood).mono le, inv.stood_lt, ?_⟩
  · intro role
    refine (s.extend_leader p e _).trans (if_neg ?_)
    intro sameTerm
    have other := (inv.localLog q).leader_log role
    rw [sameTerm, current] at other
    cases other
    exact ne rfl
  · exact ⟨longer.rooted, longer.term_le, fun role => absurd (leads.symm.trans role) (by simp),
      fun _ => leads'⟩
  · intro t c M recorded
    rw [State.extend_leader] at recorded
    split at recorded
    · rename_i now
      cases recorded
      exact now ▸ longer
    · exact (inv.leaderLog recorded).mono le

/-- A follower that adopts a part of its leader's log. -/
theorem accept {M log : List ε} (follower : (s.replica p).role = .follower)
    (leader : s.leader (s.replica p).term = some (c, M))
    (splices : Splices (s.replica p).log M log) : LogInv R (s.accept p log) := by
  have leaderLog := inv.leaderLog leader
  exact inv.set ⟨leaderLog.rooted.of_isPrefix splices.1,
    fun e mem => leaderLog.term_le e (splices.1.subset mem),
    fun role => absurd (follower.symm.trans role) (by simp),
    fun role => absurd (follower.symm.trans role) (by simp)⟩

/-- Every step keeps the log invariant. -/
theorem step (election : ElectionInv R s) (next : Step R p s s') : LogInv R s' := by
  have le := next.le election inv
  have own := inv.localLog p
  cases next with
  | advance higher =>
    exact inv.set ⟨own.rooted, fun e mem => (own.term_le e mem).trans higher.le,
      nofun, nofun⟩
  | demote =>
    exact inv.set ⟨own.rooted, own.term_le, nofun,
      nofun⟩
  | attach =>
    exact inv.set { own with }
  | campaign => exact inv.campaign election
  | grant follower _ _ free => exact inv.grant le follower (Replica.Free.le free)
  | win voters candidate elected votes =>
    exact inv.win candidate (election.leader_eq_none candidate elected votes)
  | extend leads termEq fits => exact inv.extend leads termEq fits
  | accept follower _ leader splices => exact inv.accept follower leader splices
  | ack =>
    exact ⟨fun q => (inv.localLog q).mono le fun _ => rfl,
      fun stood => (inv.stood_rooted stood).mono le, inv.stood_lt,
      fun leads => (inv.leaderLog leads).mono le⟩

end

omit [DecidableEq ν] in
/-- A replica that holds an entry of its current term has nothing but entries of
the leader of that term. -/
theorem isPrefix_of_current (inv : LogInv R s) {M l : List ε}
    (leads : s.leader (s.replica p).term = some (c, M)) (inLog : l ++ [e] <+: (s.replica p).log)
    (current : R.termOf e = (s.replica p).term) : (s.replica p).log <+: M := by
  have own := inv.localLog p
  rcases eq_nil_or_concat' (s.replica p).log with empty | ⟨before, last, split⟩
  · rw [empty]
    exact nil_prefix
  · rw [split] at inLog ⊢
    have rooted := own.rooted
    rw [split] at rooted
    obtain ⟨c', M', leads', inLeader⟩ := rooted.whole
    have lower : R.termOf e ≤ R.termOf last :=
      (inv.leaderLog leads').term_le e (inLeader.subset (inLog.subset (by simp)))
    have upper := own.term_le last (by simp [split])
    rw [le_antisymm upper (current ▸ lower), leads] at leads'
    cases leads'
    exact inLeader

end LogInv

end Hermes.Replication
