import Hermes.Data.Runs
import Hermes.Raft.Log

/-!
# Correctness of the log operations

A log that was never compacted is its sentinel followed by a body in which the
entry at offset `j` has index `j + 1` and a positive term.  On such logs every
operation of `RaftLog` is described by what it does to the body.
-/

namespace Hermes.Raft

open List

/-- `entry` may follow the entries `before` in a log. -/
def Fits (before : List LogEntry) (entry : LogEntry) : Prop :=
  entry.index = before.length + 1 ∧ 1 ≤ entry.term

namespace RaftLog

/-- The entries behind the sentinel. -/
def body (l : RaftLog) : List LogEntry :=
  l.entries.tail

/-- The entry with the given index, the sentinel included. -/
def entryAt (l : RaftLog) (index : ℕ) : Option LogEntry :=
  l.entries.find? fun entry => decide (entry.index = index)

/-- A log that holds all entries from index one on. -/
structure WellFormed (l : RaftLog) : Prop where
  entries_eq : l.entries = {} :: l.body
  snapshotIndex_eq : l.snapshotIndex = 0
  snapshotTerm_eq : l.snapshotTerm = 0
  fits : ∀ before entry, before ++ [entry] <+: l.body → Fits before entry
  committed_le : l.committed ≤ l.body.length
  applied_le : l.applied ≤ l.committed

/-- `new` agrees with the body up to every position at which the terms agree. -/
def Matches (l : RaftLog) (new : List LogEntry) : Prop :=
  ∀ ⦃before before' entry entry'⦄, before ++ [entry] <+: l.body →
    before' ++ [entry'] <+: new → before.length = before'.length →
    entry.term = entry'.term → before ++ [entry] = before' ++ [entry']

theorem wellFormed_new : WellFormed new := by
  refine ⟨rfl, rfl, rfl, ?_, le_rfl, le_rfl⟩
  intro before entry inBody
  simp [new, body] at inBody

namespace WellFormed

variable {l : RaftLog}

theorem lastIndex_eq (wf : l.WellFormed) : l.lastIndex = l.body.length := by
  rw [lastIndex, wf.entries_eq, wf.snapshotIndex_eq]
  simp

@[simp]
theorem termOf_zero (wf : l.WellFormed) : l.termOf 0 = 0 := by
  simp [termOf, wf.snapshotIndex_eq, wf.snapshotTerm_eq]

theorem termOf_succ (wf : l.WellFormed) (i : ℕ) :
    l.termOf (i + 1) = (l.body[i]?.map LogEntry.term).getD 0 := by
  simp only [termOf, wf.snapshotIndex_eq, Nat.sub_zero]
  rw [wf.entries_eq, getElem?_cons_succ]
  cases l.body[i]? <;> rfl

variable {entry : LogEntry}

/-- Terms are looked up by position in the body. -/
theorem termOf_concat (wf : l.WellFormed) {before : List LogEntry}
    (inBody : before ++ [entry] <+: l.body) : l.termOf (before.length + 1) = entry.term := by
  obtain ⟨rest, eq⟩ := inBody
  rw [wf.termOf_succ, ← eq]
  simp

variable {i : ℕ}

/-- Every position inside the body splits it. -/
theorem exists_concat_isPrefix (_wf : l.WellFormed) (inside : i < l.body.length) :
    ∃ entry, l.body.take i ++ [entry] <+: l.body :=
  ⟨l.body[i], by rw [← take_succ_eq_append_getElem inside]; exact take_prefix _ _⟩

section

variable (wf : l.WellFormed)

include wf

/-- A positive term belongs to an entry of the body. -/
theorem exists_of_termOf_pos (positive : 1 ≤ l.termOf i) :
    ∃ before entry, before ++ [entry] <+: l.body ∧ i = before.length + 1 ∧
      entry.term = l.termOf i := by
  cases i with
  | zero => simp [wf.termOf_zero] at positive
  | succ i =>
    have inside : i < l.body.length := by
      by_contra! outside
      rw [wf.termOf_succ, getElem?_eq_none outside] at positive
      simp at positive
    obtain ⟨entry, inBody⟩ := wf.exists_concat_isPrefix inside
    have length : (l.body.take i).length = i := by simp [inside.le]
    refine ⟨_, entry, inBody, by rw [length], ?_⟩
    rw [← wf.termOf_concat inBody, length]

/-- Entries stand at the offset that their index says. -/
theorem index_eq (found : l.entries[i]? = some entry) : entry.index = i := by
  rw [wf.entries_eq] at found
  cases i with
  | zero =>
    cases found
    rfl
  | succ i =>
    rw [getElem?_cons_succ] at found
    obtain ⟨inside, rfl⟩ := List.getElem?_eq_some_iff.mp found
    have inBody : l.body.take i ++ [l.body[i]] <+: l.body := by
      rw [← take_succ_eq_append_getElem inside]
      exact take_prefix _ _
    rw [(wf.fits _ _ inBody).1, length_take, min_eq_left inside.le]

theorem entryAt_eq (i : ℕ) : l.entryAt i = l.entries[i]? := by
  cases found : l.entries[i]? with
  | none =>
    refine find?_eq_none.mpr fun entry mem => ?_
    obtain ⟨j, atJ⟩ := mem_iff_getElem?.mp mem
    have outside := getElem?_eq_none_iff.mp found
    have inside := (List.getElem?_eq_some_iff.mp atJ).1
    simp only [decide_eq_true_eq, wf.index_eq atJ]
    omega
  | some entry =>
    obtain ⟨inside, atI⟩ := List.getElem?_eq_some_iff.mp found
    refine find?_eq_some_iff_getElem.mpr
      ⟨by simp [wf.index_eq found], i, inside, atI, fun j before => ?_⟩
    have atJ := getElem?_eq_getElem (before.trans inside)
    simp only [wf.index_eq atJ, Bool.not_eq_true', decide_eq_false_iff_not]
    omega

/-- Logs that agree on the first `n` entries agree at every index up to `n`. -/
theorem entryAt_eq_of_take_eq {l' : RaftLog} (wf' : l'.WellFormed) {n : ℕ}
    (agree : l.body.take n = l'.body.take n) {k : ℕ} (bound : k ≤ n) :
    l.entryAt k = l'.entryAt k := by
  rw [wf.entryAt_eq, wf'.entryAt_eq, wf.entries_eq, wf'.entries_eq]
  cases k with
  | zero => rfl
  | succ k =>
    rw [getElem?_cons_succ, getElem?_cons_succ,
      ← getElem?_take_of_lt bound, agree, getElem?_take_of_lt bound]

theorem concat_isPrefix_of_entryAt (found : l.entryAt (i + 1) = some entry) :
    l.body.take i ++ [entry] <+: l.body ∧ (l.body.take i).length = i := by
  rw [wf.entryAt_eq, wf.entries_eq, getElem?_cons_succ] at found
  obtain ⟨inside, rfl⟩ := List.getElem?_eq_some_iff.mp found
  rw [← take_succ_eq_append_getElem inside]
  exact ⟨List.take_prefix _ _, by simp [inside.le]⟩

theorem slice_eq {lo : ℕ} (positive : 1 ≤ lo) (hi : ℕ) :
    l.slice lo hi = .ok ((l.body.drop (lo - 1)).take (hi - lo)) := by
  obtain ⟨lo, rfl⟩ : ∃ k, lo = k + 1 := ⟨lo - 1, by omega⟩
  have length : l.entries.length = l.body.length + 1 := by
    rw [wf.entries_eq]
    rfl
  simp only [slice, wf.snapshotIndex_eq, wf.lastIndex_eq, Nat.sub_zero]
  split
  · rename_i empty
    rw [Nat.sub_eq_zero_of_le empty]
    simp
  · rw [if_neg (by omega : ¬lo + 1 < 1)]
    split
    · rw [drop_eq_nil_of_le (by omega)]
      simp
    · have order : ¬(if hi > l.body.length + 1 then l.body.length + 1 else hi) < lo + 1 := by
        split <;> omega
      rw [if_neg order, wf.entries_eq]
      rw [drop_take, drop_succ_cons, Nat.add_sub_cancel]
      split
      · rw [take_of_length_le (by simp), take_of_length_le (by simp; omega)]
      · rfl

theorem commitTo_eq (n : ℕ) :
    ∃ committed, l.commitTo n =
      .ok ({ l with committed := max l.committed (min n l.body.length) }, committed) := by
  simp only [commitTo, wf.lastIndex_eq]
  have bound := wf.committed_le
  split
  · refine ⟨[], ?_⟩
    rw [max_eq_left (by omega)]
  · have next : (if n > l.body.length then l.body.length else n) =
        max l.committed (min n l.body.length) := by
      split <;> omega
    rw [next]
    have wf' : WellFormed { l with committed := max l.committed (min n l.body.length) } :=
      { wf with
        committed_le := max_le bound (min_le_right _ _)
        applied_le := wf.applied_le.trans (le_max_left _ _) }
    exact ⟨_, by rw [wf'.slice_eq (by omega)]; rfl⟩

/-- Moving the commit index inside the body. -/
theorem withCommitted {n : ℕ} (applied : l.applied ≤ n) (bound : n ≤ l.body.length) :
    WellFormed { l with committed := n } :=
  { wf with committed_le := bound, applied_le := applied }

/-- Replacing the body by one that reaches the commit index. -/
theorem withBody {body : List LogEntry}
    (fits : ∀ before entry, before ++ [entry] <+: body → Fits before entry)
    (committed : l.committed ≤ body.length) : WellFormed { l with entries := {} :: body } :=
  ⟨rfl, wf.snapshotIndex_eq, wf.snapshotTerm_eq, fits, committed, wf.applied_le⟩

/-- Appending an entry that fits. -/
theorem concat (fits : Fits l.body entry) :
    WellFormed { l with entries := {} :: (l.body ++ [entry]) } := by
  refine wf.withBody ?_ (wf.committed_le.trans (by simp))
  exact Runs.forall_prefix_concat.mpr ⟨wf.fits, fits⟩

theorem appendOne_eq (fits : Fits l.body entry) :
    l.appendOne entry = .ok { l with entries := {} :: (l.body ++ [entry]) } := by
  simp only [appendOne, wf.lastIndex_eq, fits.1, ne_eq]
  rw [wf.entries_eq]
  rfl

/-! ## Appending a leader's entries -/

variable {before entries : List LogEntry}

theorem append_of_isPrefix (holds : before ++ entries <+: l.body) :
    l.append entries = .ok l := by
  induction entries generalizing before with
  | nil => rfl
  | cons entry rest ih =>
    have holds' : (before ++ [entry]) ++ rest <+: l.body := by simpa using holds
    have inBody : before ++ [entry] <+: l.body := (prefix_append _ _).trans holds'
    have inside := inBody.length_le
    rw [length_append, length_singleton] at inside
    rw [append, (wf.fits _ _ inBody).1, wf.lastIndex_eq, if_pos inside,
      wf.termOf_concat inBody, if_pos rfl]
    exact ih holds'

/-- Otherwise the body becomes what precedes the entries, followed by them. -/
theorem append_of_not_isPrefix (start : before <+: l.body)
    (fits : ∀ b entry, b ++ [entry] <+: before ++ entries → Fits b entry)
    (agree : l.Matches (before ++ entries)) (lacks : ¬before ++ entries <+: l.body) :
    l.append entries = .ok { l with entries := {} :: (before ++ entries) } := by
  induction entries generalizing before with
  | nil => exact absurd (by simpa using start) lacks
  | cons entry rest ih =>
    have split : before ++ entry :: rest = (before ++ [entry]) ++ rest := by simp
    have inNew : before ++ [entry] <+: before ++ entry :: rest :=
      split ▸ prefix_append _ _
    have indexEq := (fits _ _ inNew).1
    have startEq : l.body.take before.length = before := (prefix_iff_eq_take.mp start).symm
    rw [append, wf.lastIndex_eq, indexEq]
    by_cases inside : before.length + 1 ≤ l.body.length
    · rw [if_pos inside]
      obtain ⟨own, inBody⟩ := wf.exists_concat_isPrefix (i := before.length) inside
      rw [startEq] at inBody
      rw [wf.termOf_concat inBody]
      by_cases sameTerm : own.term = entry.term
      · -- no conflict here, so go on behind this entry
        rw [if_pos sameTerm, split]
        have inBody' : before ++ [entry] <+: l.body :=
          agree inBody inNew rfl sameTerm ▸ inBody
        exact ih inBody' (split ▸ fits) (split ▸ agree) (split ▸ lacks)
      · rw [if_neg sameTerm, wf.snapshotIndex_eq, wf.entries_eq, Nat.sub_zero,
          take_succ_cons, startEq]
        rfl
    · rw [if_neg inside]
      have whole : before = l.body :=
        start.eq_of_length_le (by omega)
      rw [wf.entries_eq, whole]
      rfl

end

end WellFormed

/-! ## Committing by majority -/

/-- What the loop of `MaybeCommit` can return. -/
theorem maybeCommitFrom_cases (l : RaftLog) (matchIndexes : List ℕ) (currentTerm n : ℕ) :
    (l.maybeCommitFrom matchIndexes currentTerm n).1 = l ∨
      ∃ k, l.committed < k ∧ k ≤ n ∧
        commitCount matchIndexes k ≥ (matchIndexes.length + 1) / 2 + 1 ∧
        l.termOf k = currentTerm ∧
        (l.maybeCommitFrom matchIndexes currentTerm n).1 = { l with committed := k } := by
  induction n with
  | zero => exact .inl rfl
  | succ n ih =>
    rw [maybeCommitFrom]
    split
    · rename_i above
      split
      · rename_i commits
        exact .inr ⟨n + 1, above, le_rfl, commits.1, commits.2, rfl⟩
      · rcases ih with same | ⟨k, low, high, rest⟩
        · exact .inl same
        · exact .inr ⟨k, low, high.trans (Nat.le_succ n), rest⟩
    · exact .inl rfl

/-! ## The layout of a log -/

/-- The layout of a log, compacted or not. -/
structure Regular (l : RaftLog) : Prop where
  sentinel : l.entries ≠ []
  index : ∀ j entry, 1 ≤ j → l.entries[j]? = some entry → entry.index = l.snapshotIndex + j
  snapshot_le : l.snapshotIndex ≤ l.applied
  applied_le : l.applied ≤ l.committed
  committed_le : l.committed ≤ l.lastIndex

/-- The entries of the log that have been applied. -/
def appliedPart (l : RaftLog) : List LogEntry :=
  (l.entries.take (l.applied + 1 - l.snapshotIndex)).tail

/-- The entries behind the applied index, up to `last`. -/
def pending (l : RaftLog) (last : ℕ) : List LogEntry :=
  (l.entries.take (last + 1 - l.snapshotIndex)).drop (l.applied + 1 - l.snapshotIndex)

variable {l : RaftLog}

theorem WellFormed.regular (wf : l.WellFormed) : l.Regular where
  sentinel := by
    rw [wf.entries_eq]
    exact cons_ne_nil _ _
  index := by
    intro j entry _ found
    rw [wf.index_eq found, wf.snapshotIndex_eq, Nat.zero_add]
  snapshot_le := wf.snapshotIndex_eq ▸ Nat.zero_le _
  applied_le := wf.applied_le
  committed_le := wf.lastIndex_eq ▸ wf.committed_le

namespace Regular

variable {last : ℕ} (regular : l.Regular)

include regular

/-- What is not applied yet is pending. -/
theorem appliedPart_append_pending (behind : l.applied ≤ last) :
    l.appliedPart ++ l.pending last = (l.entries.take (last + 1 - l.snapshotIndex)).tail := by
  have snapshot_le := regular.snapshot_le
  obtain ⟨k, size⟩ : ∃ k, l.applied + 1 - l.snapshotIndex = k + 1 :=
    ⟨l.applied - l.snapshotIndex, by omega⟩
  have part : l.appliedPart =
      ((l.entries.take (last + 1 - l.snapshotIndex)).take (k + 1)).tail := by
    rw [appliedPart, take_take, size, min_eq_left (by omega)]
  rw [part, pending, size]
  cases l.entries.take (last + 1 - l.snapshotIndex) with
  | nil => rfl
  | cons sentinel rest =>
    rw [take_succ_cons, tail_cons, drop_succ_cons, tail_cons, take_append_drop]

section

variable (inside : last ≤ l.lastIndex)

include inside

/-- The entries of a log up to `last`, with the sentinel, are as many as their indices say. -/
theorem length_take :
    (l.entries.take (last + 1 - l.snapshotIndex)).length = last + 1 - l.snapshotIndex := by
  have positive := length_pos_iff.mpr regular.sentinel
  unfold lastIndex at inside
  rw [List.length_take]
  omega

theorem slice_pending :
    (if last > l.applied then l.slice (l.applied + 1) (last + 1) else pure []) =
      Except.ok (l.pending last) := by
  have snapshot_le := regular.snapshot_le
  have length := regular.length_take inside
  split
  · have short : ¬ l.applied + 1 - l.snapshotIndex ≥ l.entries.length := by
      rw [List.length_take] at length
      omega
    unfold slice
    rw [if_neg (by omega)]
    simp only [if_neg (show ¬ l.applied + 1 < l.snapshotIndex + 1 by omega),
      if_neg (show ¬ last + 1 > l.lastIndex + 1 by omega)]
    rw [if_neg short, if_neg (by omega)]
    rfl
  · have none : l.pending last = [] := drop_of_length_le (by omega)
    rw [none]
    rfl

/-- The indices of the entries behind the applied index. -/
theorem map_index_pending :
    (l.pending last).map LogEntry.index = List.range' (l.applied + 1) (last - l.applied) := by
  have snapshot_le := regular.snapshot_le
  have length := regular.length_take inside
  have size : (l.pending last).length = last - l.applied := by
    rw [pending, length_drop]
    omega
  apply ext_getElem
  · rw [length_map, size, length_range']
  · intro i first _
    have here : i < (l.pending last).length := by rwa [length_map] at first
    have found : l.entries[l.applied + 1 - l.snapshotIndex + i]? = (l.pending last)[i]? := by
      rw [pending, getElem?_drop, getElem?_take_of_lt (by omega)]
    rw [getElem?_eq_getElem here] at found
    rw [getElem_map, getElem_range', regular.index _ _ (by omega) found]
    omega

end

/-- The last entry that waits to be applied is the one at the commit index. -/
theorem getLast?_pending (more : l.applied < l.committed) :
    (l.pending l.committed).getLast?.map LogEntry.index = some l.committed := by
  rw [← getLast?_map, regular.map_index_pending regular.committed_le, getLast?_range',
    if_neg (by omega)]
  congr 1
  omega

theorem pending_eq_nil : l.pending l.committed = [] ↔ l.committed = l.applied := by
  have applied_le := regular.applied_le
  rw [← map_eq_nil_iff, regular.map_index_pending regular.committed_le, range'_eq_nil_iff]
  omega

end Regular

end RaftLog

end Hermes.Raft
