import Hermes.Raft.Backtracking
import Hermes.Raft.Totality

/-!
# How a log is laid out

The entry at offset `j` of a log has the index `snapshotIndex + j`, and the counters of a
log lie in order between its snapshot and its last entry.  Every operation keeps this, but
for one case: a batch that starts behind the end of the log passes the consistency check if
it names the term zero, because that is what `termOf` returns for an entry that is missing.
-/

namespace Hermes.Raft

open List

namespace RaftLog

/-- The log holds an entry with this index and term; the sentinel stands for the last entry of
the snapshot. -/
def Holds (l : RaftLog) (index term : ℕ) : Prop :=
  l.snapshotIndex ≤ index ∧ index ≤ l.lastIndex ∧ l.termOf index = term

variable {l l' : RaftLog}

theorem regular_new : new.Regular where
  sentinel := cons_ne_nil _ _
  index := by
    intro j entry positive found
    obtain ⟨inside, -⟩ := List.getElem?_eq_some_iff.mp found
    exact absurd inside (not_lt.mpr positive)
  snapshot_le := le_rfl
  applied_le := le_rfl
  committed_le := le_rfl

/-- A log has no term beyond its last entry. -/
theorem termOf_eq_zero {i : ℕ} (sentinel : l.entries ≠ []) (beyond : l.lastIndex < i) :
    l.termOf i = 0 := by
  have positive := length_pos_iff.mpr sentinel
  unfold lastIndex at beyond
  unfold termOf
  rw [if_neg (by omega), if_neg (by omega), getElem?_eq_none (by omega)]

theorem take_lastIndex (l : RaftLog) :
    l.entries.take (l.lastIndex + 1 - l.snapshotIndex) = l.entries := by
  apply take_of_length_le
  unfold lastIndex
  omega

namespace Regular

section

variable (regular : l.Regular)

include regular

variable {start : ℕ} {new : List LogEntry}

/-- Replacing what is behind an index above the commit index. -/
theorem splice (above : l.committed < start) (inside : start ≤ l.lastIndex + 1)
    (consecutive : Consecutive new start) (nonempty : new ≠ []) :
    Regular { l with entries := l.entries.take (start - l.snapshotIndex) ++ new } := by
  have started := regular.bounded.snapshot_le
  have positive := length_pos_iff.mpr regular.sentinel
  have length : (l.entries.take (start - l.snapshotIndex)).length = start - l.snapshotIndex := by
    unfold lastIndex at inside
    rw [List.length_take]
    omega
  refine ⟨append_ne_nil_of_right_ne_nil _ nonempty, ?_, regular.snapshot_le,
    regular.applied_le, ?_⟩
  · intro j entry positive found
    dsimp only at found ⊢
    rcases lt_or_ge j (start - l.snapshotIndex) with old | fresh
    · rw [getElem?_append_left (by omega), getElem?_take_of_lt old] at found
      exact regular.index j entry positive found
    · rw [getElem?_append_right (by omega)] at found
      have index := consecutive _ entry found
      omega
  · dsimp only [lastIndex]
    rw [length_append]
    omega

/-- Entries at the end of the log. -/
theorem concat (consecutive : Consecutive new (l.lastIndex + 1)) (nonempty : new ≠ []) :
    Regular { l with entries := l.entries ++ new } := by
  have committed := regular.committed_le
  have spliced := regular.splice (by omega) le_rfl consecutive nonempty
  rw [take_lastIndex] at spliced
  exact spliced

theorem appendOne {entry : LogEntry} (eq : l.appendOne entry = .ok l') : l'.Regular := by
  obtain ⟨rfl, index⟩ := appendOne_eq_ok eq
  refine regular.concat ?_ (cons_ne_nil _ _)
  intro i e found
  rw [getElem?_singleton] at found
  split at found
  · rename_i first
    cases found
    rw [first, index]
  · nomatch found

variable {n : ℕ}

theorem withCommitted (above : l.committed ≤ n) (inside : n ≤ l.lastIndex) :
    Regular { l with committed := n } :=
  ⟨regular.sentinel, regular.index, regular.snapshot_le, regular.applied_le.trans above, inside⟩

theorem moved (moved : n = l.committed ∨ l.committed < n ∧ n ≤ l.lastIndex) :
    Regular { l with committed := n } := by
  rcases moved with rfl | ⟨above, inside⟩
  · exact regular
  · exact regular.withCommitted above.le inside

variable {entries : List LogEntry}

theorem commitTo (eq : l.commitTo n = .ok (l', entries)) : l'.Regular := by
  have inside := regular.committed_le
  rcases commitTo_cases eq with rfl | ⟨above, rfl⟩
  · exact regular
  · exact regular.withCommitted (by omega) (min_le_right _ _)

theorem maybeCommitFrom (matchIndexes : List ℕ) (currentTerm : ℕ) :
    Regular (l.maybeCommitFrom matchIndexes currentTerm l.lastIndex).1 := by
  rcases l.maybeCommitFrom_cases matchIndexes currentTerm l.lastIndex with
    same | ⟨k, above, inside, _, _, moved⟩
  · rw [same]
    exact regular
  · rw [moved]
    exact regular.withCommitted above.le inside

/-- Appending a batch that is numbered from an index up to the end of the log. -/
theorem append (consecutive : Consecutive entries start) (above : l.committed < start)
    (inside : start ≤ l.lastIndex + 1) : ∃ l', l.append entries = .ok l' ∧ l'.Regular := by
  induction entries generalizing start with
  | nil => exact ⟨l, rfl, regular⟩
  | cons entry rest ih =>
    have index : entry.index = start := consecutive 0 entry rfl
    have started := regular.bounded.snapshot_le
    have tail : Consecutive rest (start + 1) := by
      intro i e found
      rw [consecutive (i + 1) e found]
      omega
    rw [RaftLog.append, index]
    split
    · split
      · exact ih tail (by omega) (by omega)
      · rw [if_neg (by omega)]
        exact ⟨_, rfl, regular.splice above inside consecutive (cons_ne_nil _ _)⟩
    · have last : start = l.lastIndex + 1 := by omega
      rw [last] at consecutive
      exact ⟨_, rfl, regular.concat consecutive (cons_ne_nil _ _)⟩

/-- A batch that starts further behind leaves a gap. -/
theorem not_append (consecutive : Consecutive entries start) (nonempty : entries ≠ [])
    (beyond : l.lastIndex + 1 < start) :
    ∃ l', l.append entries = .ok l' ∧ l'.snapshotIndex = l.snapshotIndex ∧
      l'.committed = l.committed ∧ ∀ n, ¬ Regular { l' with committed := n } := by
  cases entries with
  | nil => exact absurd rfl nonempty
  | cons entry rest =>
    have index : entry.index = start := consecutive 0 entry rfl
    rw [RaftLog.append, if_neg (by omega)]
    refine ⟨_, rfl, rfl, rfl, fun n wrong => ?_⟩
    have positive := length_pos_iff.mpr regular.sentinel
    have misplaced := wrong.index l.entries.length entry positive (by
      rw [getElem?_append_right le_rfl, Nat.sub_self]
      rfl)
    unfold lastIndex at beyond
    dsimp only at misplaced
    omega

/-- Installing a snapshot keeps the layout. -/
theorem compact (snapshotIndex snapshotTerm : ℕ) :
    (l.compact snapshotIndex snapshotTerm).Regular := by
  have applied_le := regular.applied_le
  have committed_le := regular.committed_le
  unfold lastIndex at committed_le
  unfold RaftLog.compact
  split
  · exact regular
  · by_cases inside : snapshotIndex - l.snapshotIndex < l.entries.length
    · simp only [if_pos inside]
      refine ⟨cons_ne_nil _ _, ?_, ?_, ?_, ?_⟩
      · intro j entry positive found
        obtain ⟨j, rfl⟩ := Nat.exists_eq_add_of_le' positive
        dsimp only at found ⊢
        rw [getElem?_cons_succ, getElem?_drop] at found
        have index := regular.index _ entry (by omega) found
        omega
      · dsimp only
        split <;> omega
      · dsimp only
        split <;> split <;> omega
      · dsimp only [lastIndex]
        rw [length_cons, length_drop]
        split <;> omega
    · simp only [if_neg inside]
      refine ⟨cons_ne_nil _ _, ?_, ?_, ?_, ?_⟩
      · intro j entry positive found
        obtain ⟨short, -⟩ := List.getElem?_eq_some_iff.mp found
        exact absurd short (not_lt.mpr positive)
      · dsimp only
        split <;> omega
      · dsimp only
        split <;> split <;> omega
      · dsimp only [lastIndex]
        rw [length_singleton]
        split <;> omega

/-- Everything that is committed has been applied. -/
theorem withApplied : Regular { l with applied := l.committed } :=
  ⟨regular.sentinel, regular.index, regular.snapshot_le.trans regular.applied_le, le_rfl,
    regular.committed_le⟩

end

end Regular

/-- A batch of a message is numbered from its start, and it does not name the term zero
behind the end of the log. -/
def Admits (l : RaftLog) (m : Message) : Prop :=
  m.type = .append → Consecutive m.entries (m.logIndex + 1) ∧
    (m.logIndex ≤ l.lastIndex ∨ m.logTerm ≠ 0 ∨ m.entries = [])
  deriving Decidable

/-- The changes that such a message makes keep the layout. -/
theorem Changes.regular {m : Message} (changes : Changes m l l') (admits : l.Admits m)
    (regular : l.Regular) : l'.Regular := by
  induction changes with
  | refl => exact regular
  | append type fresh consistent eq =>
    obtain ⟨consecutive, starts⟩ := admits type
    by_cases inside : m.logIndex ≤ l.lastIndex
    · obtain ⟨l₁, appended, regular'⟩ := regular.append consecutive (by omega) (by omega)
      rw [appended] at eq
      cases eq
      exact regular'
    · have zero : m.logTerm = 0 := by
        rcases consistent with first | term
        · omega
        · rw [← term, termOf_eq_zero regular.sentinel (by omega)]
      rcases starts with short | named | none
      · exact absurd short inside
      · exact absurd zero named
      · rw [none] at eq
        cases eq
        exact regular
  | compact => exact regular.compact _ _
  | appendOne _ eq ih => exact ih.appendOne eq
  | commitTo _ eq ih => exact ih.commitTo eq
  | maybeCommit _ matchIndexes currentTerm ih => exact ih.maybeCommitFrom matchIndexes currentTerm

end RaftLog

/-! ## Handling a batch -/

variable {r : Raft} {m : Message}

/-- What a follower makes of a batch that passes its checks. -/
theorem handleAppendEntries_of_append (fresh : r.log.committed ≤ m.logIndex)
    (consistent : r.logConsistencyCheck m.logIndex m.logTerm = true) {log : RaftLog}
    (appended : r.log.append m.entries = .ok log) (started : log.snapshotIndex ≤ log.committed) :
    ∃ r' n, r.handleAppendEntries m = .ok r' ∧ r'.log = { log with committed := n } ∧
      (n = log.committed ∨ log.committed < n ∧ n ≤ log.lastIndex) := by
  have appended' :
      (if m.entries.length > 0 then r.log.append m.entries else .ok r.log) = .ok log := by
    split
    · exact appended
    · rename_i none
      rw [length_eq_zero_iff.mp (Nat.eq_zero_of_not_pos none)] at appended
      exact appended
  have notStale : ¬ m.logIndex < r.log.stats.commitIndex := not_lt.mpr fresh
  unfold handleAppendEntries
  rw [if_neg notStale, consistent, appended']
  simp only [bind, Except.bind]
  by_cases moves : m.commitIndex > log.stats.commitIndex
  · rw [if_pos moves]
    obtain ⟨⟨log', entries⟩, moved⟩ := RaftLog.commitTo_succeeds started
      (if log.lastIndex < m.commitIndex then log.lastIndex else m.commitIndex)
    simp only [moved]
    rcases RaftLog.commitTo_cases moved with rfl | ⟨above, rfl⟩
    · exact ⟨_, _, rfl, rfl, .inl rfl⟩
    · refine ⟨_, _, rfl, rfl, .inr ?_⟩
      split at above <;> split <;> omega
  · rw [if_neg moves]
    exact ⟨_, _, rfl, rfl, .inl rfl⟩

/-- The log stays regular, and entries are only appended behind one that it holds. -/
structure KeepsLayout (r : Raft) (m : Message) (r' : Raft) : Prop where
  regular : r'.log.Regular
  held : r'.log.entries ≠ r.log.entries → m.logIndex = 0 ∨ r.log.Holds m.logIndex m.logTerm

theorem termOf_of_consistent (consistent : r.logConsistencyCheck m.logIndex m.logTerm = true) :
    m.logIndex = 0 ∨ r.log.termOf m.logIndex = m.logTerm := by
  unfold logConsistencyCheck at consistent
  split at consistent
  · exact .inl ‹_›
  · exact .inr (of_decide_eq_true consistent)

section

variable (regular : r.log.Regular) (fresh : r.log.committed ≤ m.logIndex)
  (consistent : r.logConsistencyCheck m.logIndex m.logTerm = true)

include regular fresh consistent

/-- A batch that starts within the log. -/
theorem keepsLayout_of_le (consecutive : Consecutive m.entries (m.logIndex + 1))
    (within : m.logIndex ≤ r.log.lastIndex) :
    ∃ r', r.handleAppendEntries m = .ok r' ∧ KeepsLayout r m r' := by
  have started := regular.bounded.snapshot_le
  obtain ⟨log, appended, regular'⟩ := regular.append consecutive (by omega) (by omega)
  obtain ⟨r', n, handled, log_eq, moved⟩ :=
    handleAppendEntries_of_append fresh consistent appended regular'.bounded.snapshot_le
  refine ⟨r', handled, ?_, fun _ => ?_⟩
  · rw [log_eq]
    exact regular'.moved moved
  · exact (termOf_of_consistent consistent).imp_right fun term => ⟨by omega, within, term⟩

theorem keepsLayout_of_nil (empty : m.entries = []) :
    ∃ r', r.handleAppendEntries m = .ok r' ∧ KeepsLayout r m r' := by
  have appended : r.log.append m.entries = .ok r.log := by
    rw [empty]
    rfl
  obtain ⟨r', n, handled, log_eq, moved⟩ :=
    handleAppendEntries_of_append fresh consistent appended regular.bounded.snapshot_le
  refine ⟨r', handled, ?_, fun changed => ?_⟩
  · rw [log_eq]
    exact regular.moved moved
  · rw [log_eq] at changed
    exact absurd rfl changed

end

/-- Entries that start behind the end of the log are appended with a gap before them. -/
theorem not_keepsLayout_of_lt (regular : r.log.Regular)
    (consistent : r.logConsistencyCheck m.logIndex m.logTerm = true)
    (consecutive : Consecutive m.entries (m.logIndex + 1)) (nonempty : m.entries ≠ [])
    (beyond : r.log.lastIndex < m.logIndex) :
    ∃ r', r.handleAppendEntries m = .ok r' ∧ ¬ KeepsLayout r m r' := by
  have started := regular.bounded.snapshot_le
  have inside := regular.committed_le
  obtain ⟨log, appended, snapshot, committed, irregular⟩ :=
    regular.not_append consecutive nonempty (by omega)
  obtain ⟨r', n, handled, log_eq, -⟩ :=
    handleAppendEntries_of_append (by omega) consistent appended (by omega)
  exact ⟨r', handled, fun keeps => irregular n (log_eq ▸ keeps.regular)⟩

/-- A follower keeps the layout of its log, unless a batch of entries starts behind its end and
names the term zero. -/
theorem keepsLayout_iff (regular : r.log.Regular)
    (consecutive : Consecutive m.entries (m.logIndex + 1)) :
    ∃ r', r.handleAppendEntries m = .ok r' ∧ (KeepsLayout r m r' ↔
      m.logIndex ≤ r.log.lastIndex ∨ m.logTerm ≠ 0 ∨ m.entries = []) := by
  have inside := regular.committed_le
  rcases lt_or_ge m.logIndex r.log.committed with stale | fresh
  · -- the batch is answered with the commit index
    refine ⟨_, if_pos stale, fun _ => .inl (by omega), fun _ => ⟨regular, fun changed => ?_⟩⟩
    exact absurd rfl changed
  cases consistent : r.logConsistencyCheck m.logIndex m.logTerm with
  | false =>
    refine ⟨_, handleAppendEntries_of_rejects ⟨fresh, consistent⟩, fun _ => ?_,
      fun _ => ⟨regular, fun changed => absurd rfl changed⟩⟩
    by_contra! gap
    obtain ⟨beyond, zero, -⟩ := gap
    rw [logConsistencyCheck, if_neg (by omega), zero,
      RaftLog.termOf_eq_zero regular.sentinel beyond] at consistent
    cases consistent
  | true =>
    rcases lt_or_ge r.log.lastIndex m.logIndex with beyond | within
    · by_cases empty : m.entries = []
      · obtain ⟨r', handled, keeps⟩ := keepsLayout_of_nil regular fresh consistent empty
        exact ⟨r', handled, fun _ => .inr (.inr empty), fun _ => keeps⟩
      · obtain ⟨r', handled, gap⟩ :=
          not_keepsLayout_of_lt regular consistent consecutive empty beyond
        have zero : m.logTerm = 0 := by
          rcases termOf_of_consistent consistent with first | term
          · omega
          · rw [← term, RaftLog.termOf_eq_zero regular.sentinel beyond]
        refine ⟨r', handled, fun keeps => absurd keeps gap, ?_⟩
        rintro (short | named | none)
        · omega
        · exact absurd zero named
        · exact absurd none empty
    · obtain ⟨r', handled, keeps⟩ :=
        keepsLayout_of_le regular fresh consistent consecutive within
      exact ⟨r', handled, fun _ => .inl within, fun _ => keeps⟩

/-- A batch that starts at the end of an empty log. -/
theorem keepsLayout_observer : ∃ r',
    observer.handleAppendEntries
      { type := .append, fromID := "a", entries := [{ index := 1, term := 1 }] } = .ok r' ∧
    KeepsLayout observer
      { type := .append, fromID := "a", entries := [{ index := 1, term := 1 }] } r' := by
  obtain ⟨r', handled, iff⟩ := keepsLayout_iff (r := observer)
    (m := { type := .append, fromID := "a", entries := [{ index := 1, term := 1 }] })
    RaftLog.regular_new (by decide)
  exact ⟨r', handled, iff.mpr (.inl (by decide))⟩

/-- The entry with index six is appended to an empty log. -/
theorem not_keepsLayout : observer.log.Regular ∧
    Consecutive [{ index := 6, term := 1 }] (5 + 1) ∧ ∃ r',
      observer.handleAppendEntries
        { type := .append, fromID := "a", logIndex := 5, entries := [{ index := 6, term := 1 }] } =
          .ok r' ∧ r'.log.entries = [{}, { index := 6, term := 1 }] ∧ ¬ r'.log.Regular := by
  refine ⟨RaftLog.regular_new, by decide, _, rfl, rfl, fun regular => ?_⟩
  have misplaced := regular.index 1 { index := 6, term := 1 } le_rfl rfl
  exact absurd misplaced (by decide)

end Hermes.Raft
