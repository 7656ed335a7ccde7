import Hermes.Raft.Refinement.Roles

/-!
# Which entries a leader commits

`MaybeCommit` counts one for the leader and one more for every match index in a list that
holds the leader's own as well, and compares with a majority of a list that is longer by
one.  For an odd number of members the two errors cancel.  For an even number, half of the
members are enough.
-/

namespace Hermes.Raft

open List

namespace RaftLog

variable {l : RaftLog} {matchIndexes : List ℕ} {currentTerm k n : ℕ}

/-- The test that the loop of `MaybeCommit` makes. -/
def Passes (l : RaftLog) (matchIndexes : List ℕ) (currentTerm n : ℕ) : Prop :=
  commitCount matchIndexes n ≥ (matchIndexes.length + 1) / 2 + 1 ∧ l.termOf n = currentTerm

/-- The loop stops at the first index from above that passes its test. -/
theorem le_maybeCommitFrom (above : l.committed < n) (inside : n ≤ k)
    (passes : l.Passes matchIndexes currentTerm n) :
    n ≤ (l.maybeCommitFrom matchIndexes currentTerm k).1.committed := by
  induction k with
  | zero => omega
  | succ k ih =>
    rw [maybeCommitFrom, if_pos (by omega)]
    split
    · exact inside
    · rename_i fails
      rcases lt_or_eq_of_le inside with below | rfl
      · exact ih (Nat.le_of_lt_succ below)
      · exact absurd passes fails

theorem maybeCommitFrom_passes
    (moved : (l.maybeCommitFrom matchIndexes currentTerm k).1.committed ≠ l.committed) :
    l.committed < (l.maybeCommitFrom matchIndexes currentTerm k).1.committed ∧
      (l.maybeCommitFrom matchIndexes currentTerm k).1.committed ≤ k ∧
      l.Passes matchIndexes currentTerm
        (l.maybeCommitFrom matchIndexes currentTerm k).1.committed := by
  rcases l.maybeCommitFrom_cases matchIndexes currentTerm k with
    same | ⟨n, above, inside, count, term, eq⟩
  · rw [same] at moved
    exact absurd rfl moved
  · rw [eq]
    exact ⟨above, inside, count, term⟩

/-- The entry at index `n` has term `t`. -/
def HasTerm (l : RaftLog) (n t : ℕ) : Prop :=
  ∃ entry, l.entries[n - l.snapshotIndex]? = some entry ∧ entry.term = t

/-- Behind the snapshot, and up to the last entry, terms are those of entries. -/
theorem termOf_eq_iff_hasTerm (behind : l.snapshotIndex < n) (inside : n ≤ l.lastIndex) {t : ℕ} :
    l.termOf n = t ↔ l.HasTerm n t := by
  have bound : n - l.snapshotIndex < l.entries.length := by
    unfold lastIndex at inside
    omega
  unfold termOf HasTerm
  rw [if_neg (by omega), if_neg (by omega), getElem?_eq_getElem bound]
  simp

theorem HasTerm.le_lastIndex {t : ℕ} (has : l.HasTerm n t) (behind : l.snapshotIndex < n) :
    n ≤ l.lastIndex := by
  obtain ⟨entry, found, -⟩ := has
  have bound := (List.getElem?_eq_some_iff.mp found).1
  unfold lastIndex
  omega

end RaftLog

variable {r : Raft} {k n : ℕ}

/-- The number of members. -/
def clusterSize (r : Raft) : ℕ :=
  1 + r.config.peers.length

/-- The number of members whose match index has reached `n`. -/
def holderCount (r : Raft) (n : ℕ) : ℕ :=
  r.progress.entries.countP fun prog => decide (n ≤ prog.2.matchIndex)

theorem holderCount_antitone (r : Raft) (order : n ≤ k) : r.holderCount k ≤ r.holderCount n := by
  apply countP_mono_left
  intro prog _ reached
  exact decide_eq_true (order.trans (of_decide_eq_true reached))

/-- More than half of the members hold the entry at `n`, and it is of the current term. -/
def Committable (r : Raft) (n : ℕ) : Prop :=
  r.clusterSize < 2 * r.holderCount n ∧ r.log.HasTerm n r.term

/-- `maybeCommit` moves the commit index to the highest entry that more than half of the
members hold, if that is above it and of the current term, and otherwise not at all. -/
structure CommitsByMajority (r : Raft) : Prop where
  only : r.maybeCommit.log.committed ≠ r.log.committed →
    r.log.committed < r.maybeCommit.log.committed ∧ r.Committable r.maybeCommit.log.committed
  largest : ∀ n, r.log.committed < n → r.Committable n → n ≤ r.maybeCommit.log.committed

theorem length_matchIndexes_of_perm (members : r.progress.keys.Perm (r.id :: r.config.peers)) :
    r.matchIndexes.length = r.clusterSize := by
  rw [matchIndexes, length_map, clusterSize, Nat.add_comm, ← length_cons,
    ← members.length_eq, AList.keys, keys, length_map]

/-- What the loop asks for: at least half of the members, whether there are more of them or
not. -/
theorem passes_iff (members : r.progress.keys.Perm (r.id :: r.config.peers))
    (behind : r.log.snapshotIndex < n) (inside : n ≤ r.log.lastIndex) :
    r.log.Passes r.matchIndexes r.term n ↔
      r.clusterSize ≤ 2 * r.holderCount n ∧ r.log.HasTerm n r.term := by
  have count : RaftLog.commitCount r.matchIndexes n = 1 + r.holderCount n := by
    rw [RaftLog.commitCount, matchIndexes, countP_map]
    rfl
  unfold RaftLog.Passes
  rw [RaftLog.termOf_eq_iff_hasTerm behind inside, length_matchIndexes_of_perm members]
  constructor
  · rintro ⟨enough, term⟩
    exact ⟨by omega, term⟩
  · rintro ⟨enough, term⟩
    exact ⟨by omega, term⟩

/-- A leader commits by majority unless exactly half of the members hold an entry of its term
that is not committed yet. -/
theorem commitsByMajority_iff (members : r.progress.keys.Perm (r.id :: r.config.peers))
    (started : r.log.snapshotIndex ≤ r.log.committed) :
    r.CommitsByMajority ↔
      ∀ n, r.log.committed < n → r.log.HasTerm n r.term → 2 * r.holderCount n ≠ r.clusterSize := by
  have stops : ∀ n, r.log.committed < n → r.log.HasTerm n r.term →
      r.clusterSize ≤ 2 * r.holderCount n → n ≤ r.maybeCommit.log.committed := by
    intro n above term enough
    have behind := started.trans_lt above
    have inside := term.le_lastIndex behind
    exact RaftLog.le_maybeCommitFrom above inside
      ((passes_iff members behind inside).mpr ⟨enough, term⟩)
  constructor
  · intro majority n above term half
    have reached := stops n above term (le_of_eq half.symm)
    -- the commit index has passed `n`, so at most half of the members hold what is there
    obtain ⟨-, more, -⟩ := majority.only (by omega)
    have fewer := r.holderCount_antitone reached
    omega
  · intro notHalf
    constructor
    · intro moved
      obtain ⟨above, inside, passes⟩ := RaftLog.maybeCommitFrom_passes moved
      obtain ⟨enough, term⟩ := (passes_iff members (started.trans_lt above) inside).mp passes
      have uneven := notHalf _ above term
      exact ⟨above, lt_of_le_of_ne enough uneven.symm, term⟩
    · rintro n above ⟨more, term⟩
      exact stops n above term more.le

/-- A leader of two members that has just appended an entry. -/
def lonelyLeader : Raft where
  config := defaultConfig "a" ["b"]
  id := "a"
  term := 1
  vote := "a"
  log := { entries := [{}, { index := 1, term := 1 }] }
  state := .leader
  lead := "a"
  progress := AList.insert "b" { nextIndex := 1, matchIndex := 0, state := .probe }
    (AList.insert "a" { nextIndex := 2, matchIndex := 1, state := .replicate } ∅)
  rng := fun _ => 0

/-- With three members the same leader does not commit alone. -/
theorem commitsByMajority_three :
    CommitsByMajority { lonelyLeader with
      config := defaultConfig "a" ["b", "c"]
      progress := AList.insert "c" { nextIndex := 1, matchIndex := 0, state := .probe }
        lonelyLeader.progress } := by
  refine (commitsByMajority_iff (by decide) (by decide)).mpr ?_
  intro n _ _ half
  have odd : 2 * holderCount _ n = 3 := half
  omega

/-- A leader of two members commits an entry that only it holds. -/
theorem not_commitsByMajority :
    lonelyLeader.progress.keys.Perm (lonelyLeader.id :: lonelyLeader.config.peers) ∧
      ¬ lonelyLeader.CommitsByMajority := by
  refine ⟨by decide, fun majority => ?_⟩
  obtain ⟨-, more, -⟩ := majority.only (by decide)
  exact absurd more (by decide)

end Hermes.Raft
