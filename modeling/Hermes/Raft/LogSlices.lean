import Hermes.Raft.Representation

/-!
# Slices of a log

`Entries` returns the entries of a range of indices that the log has.  Of a range that lies
wholly before the snapshot it clips the lower bound only, so that the bounds cross.  If the log
reaches the last index that there is, the end of the log wraps around to zero.
-/

namespace Hermes.Raft.RaftLog

open List

variable {l : RaftLog}

/-- The entries of a log whose indices are in a range. -/
def entriesIn (l : RaftLog) (lo hi : ℕ) : List LogEntry :=
  l.entries.tail.filter fun entry => lo ≤ entry.index ∧ entry.index < hi

/-- A filter that looks at the position only. -/
theorem filter_eq_drop_take {α : Type} {p : α → Bool} {entries : List α} {i j : ℕ}
    (inside : ∀ k entry, entries[k]? = some entry → (p entry ↔ i ≤ k ∧ k < j)) :
    entries.filter p = (entries.take j).drop i := by
  induction entries generalizing i j with
  | nil => simp
  | cons entry rest ih =>
    have here := inside 0 entry rfl
    have later := ih (i := i - 1) (j := j - 1) fun k entry found => by
      rw [inside (k + 1) entry found]
      omega
    rw [filter_cons, later]
    cases j with
    | zero => simp [here]
    | succ j =>
      cases i with
      | zero => simp [here]
      | succ i => simp [here]

theorem Regular.entriesIn_eq (regular : l.Regular) {lo hi : ℕ} (after : l.snapshotIndex < lo) :
    l.entriesIn lo hi =
      (l.entries.take (hi - l.snapshotIndex)).drop (lo - l.snapshotIndex) := by
  obtain ⟨sentinel, body, entries⟩ := exists_cons_of_ne_nil regular.sentinel
  obtain ⟨i, rfl⟩ := Nat.exists_eq_add_of_lt after
  have inside : ∀ k entry, body[k]? = some entry →
      (decide (l.snapshotIndex + i + 1 ≤ entry.index ∧ entry.index < hi) = true ↔
        i ≤ k ∧ k < hi - l.snapshotIndex - 1) := by
    intro k entry found
    rw [decide_eq_true_iff, regular.index (k + 1) entry (Nat.le_add_left 1 k) (entries ▸ found)]
    omega
  rw [entriesIn, entries, tail_cons, filter_eq_drop_take inside,
    show l.snapshotIndex + i + 1 - l.snapshotIndex = i + 1 by omega]
  cases hi - l.snapshotIndex with
  | zero => simp
  | succ j => rfl

/-- `Entries` returns what the log has of a range exactly if the range does not lie wholly
before the snapshot of a log with entries.  Otherwise it panics. -/
theorem slice_eq_entriesIn_iff (regular : l.Regular) (lo hi : ℕ) :
    l.slice lo hi = .ok (l.entriesIn (max lo (l.snapshotIndex + 1)) (min hi (l.lastIndex + 1))) ↔
      (lo < hi → hi ≤ l.snapshotIndex → l.lastIndex = l.snapshotIndex) := by
  have positive := length_pos_iff.mpr regular.sentinel
  have last : l.lastIndex = l.snapshotIndex + l.entries.length - 1 := rfl
  have clipped : (if lo < l.snapshotIndex + 1 then l.snapshotIndex + 1 else lo) =
      max lo (l.snapshotIndex + 1) := by
    split <;> omega
  have clipped' : (if hi > l.lastIndex + 1 then l.lastIndex + 1 else hi) =
      min hi (l.lastIndex + 1) := by
    split <;> omega
  rw [regular.entriesIn_eq (by omega), slice]
  split
  · refine iff_of_true ?_ (by omega)
    rw [drop_eq_nil_of_le]
    rw [length_take]
    omega
  · simp only [clipped, clipped']
    split
    · refine iff_of_true ?_ (by omega)
      rw [drop_eq_nil_of_le]
      rw [length_take]
      omega
    · split
      · exact iff_of_false (by rintro ⟨⟩) (by omega)
      · exact iff_of_true rfl (by omega)

/-- `slice` as it is computed, modulo `2 ^ 64`. -/
def slice64 (l : RaftLog) (lo hi : ℕ) : Except Panic (List LogEntry) :=
  if lo ≥ hi then .ok []
  else
    let first := (l.snapshotIndex + 1) % 2 ^ 64
    let lo := if lo < first then first else lo
    let stop := (l.lastIndex + 1) % 2 ^ 64
    let hi := if hi > stop then stop else hi
    let loOffset := (lo + 2 ^ 64 - l.snapshotIndex) % 2 ^ 64
    let hiOffset := (hi + 2 ^ 64 - l.snapshotIndex) % 2 ^ 64
    if loOffset ≥ l.entries.length then .ok []
    else if hiOffset < loOffset ∨ l.entries.length < hiOffset then .error .outOfRange
    else .ok ((l.entries.take hiOffset).drop loOffset)

/-- Below the last index nothing wraps around. -/
theorem slice64_eq_slice (sentinel : l.entries ≠ []) (room : l.lastIndex + 1 < 2 ^ 64)
    {lo hi : ℕ} (fits : hi < 2 ^ 64) : l.slice64 lo hi = l.slice lo hi := by
  have positive := length_pos_iff.mpr sentinel
  have last : l.lastIndex = l.snapshotIndex + l.entries.length - 1 := rfl
  unfold slice64 slice
  by_cases empty : lo ≥ hi
  · rw [if_pos empty, if_pos empty]
  · rw [if_neg empty]
    dsimp only
    rw [Nat.mod_eq_of_lt (by omega : l.snapshotIndex + 1 < 2 ^ 64), Nat.mod_eq_of_lt room]
    generalize lower : (if lo < l.snapshotIndex + 1 then l.snapshotIndex + 1 else lo) = lo'
    generalize upper : (if hi > l.lastIndex + 1 then l.lastIndex + 1 else hi) = hi'
    have above : l.snapshotIndex < lo' ∧ lo' < 2 ^ 64 := by split at lower <;> omega
    have below : hi' ≤ l.lastIndex + 1 := by split at upper <;> omega
    have offset : (lo' + 2 ^ 64 - l.snapshotIndex) % 2 ^ 64 = lo' - l.snapshotIndex := by omega
    rw [offset]
    split
    · rfl
    · by_cases crossed : hi' < lo'
      · rw [if_pos (by omega), if_pos crossed]
      · have offset' : (hi' + 2 ^ 64 - l.snapshotIndex) % 2 ^ 64 = hi' - l.snapshotIndex := by omega
        rw [offset', if_neg (by omega), if_neg crossed]

/-- `Entries` returns what the log has of a range exactly if the range does not lie wholly
before the snapshot of a log with entries, and such a log ends below the last index. -/
theorem slice64_eq_entriesIn_iff (regular : l.Regular) (inside : l.lastIndex < 2 ^ 64) {lo hi : ℕ}
    (fits : hi < 2 ^ 64) :
    l.slice64 lo hi =
        .ok (l.entriesIn (max lo (l.snapshotIndex + 1)) (min hi (l.lastIndex + 1))) ↔
      (lo < hi → l.lastIndex = l.snapshotIndex ∨
        l.snapshotIndex < hi ∧ l.lastIndex + 1 < 2 ^ 64) := by
  have positive := length_pos_iff.mpr regular.sentinel
  have last : l.lastIndex = l.snapshotIndex + l.entries.length - 1 := rfl
  by_cases room : l.lastIndex + 1 < 2 ^ 64
  · rw [slice64_eq_slice regular.sentinel room fits, slice_eq_entriesIn_iff regular]
    omega
  · rw [regular.entriesIn_eq (by omega), slice64]
    split
    · refine iff_of_true ?_ (by omega)
      rw [drop_eq_nil_of_le]
      rw [length_take]
      omega
    · have stop : (l.lastIndex + 1) % 2 ^ 64 = 0 := by omega
      rw [stop]
      dsimp only
      rw [if_pos (by omega : hi > 0)]
      generalize lower : (if lo < (l.snapshotIndex + 1) % 2 ^ 64 then
        (l.snapshotIndex + 1) % 2 ^ 64 else lo) = lo'
      by_cases short : (lo' + 2 ^ 64 - l.snapshotIndex) % 2 ^ 64 ≥ l.entries.length
      · have empty : l.lastIndex = l.snapshotIndex := by split at lower <;> omega
        rw [if_pos short, drop_eq_nil_of_le (by rw [length_take]; omega)]
        exact iff_of_true rfl fun _ => .inl empty
      · -- all the entries behind the lower bound are returned, also the last one
        have offset : (lo' + 2 ^ 64 - l.snapshotIndex) % 2 ^ 64 =
            max lo (l.snapshotIndex + 1) - l.snapshotIndex := by split at lower <;> omega
        refine iff_of_false (fun same => ?_) (by omega)
        rw [if_neg short] at same
        split at same
        · nomatch same
        · have length := congrArg List.length (Except.ok.inj same)
          simp only [length_drop, length_take] at length
          omega

/-- A log of two entries of which the first one has been compacted. -/
def shortened : RaftLog :=
  { entries := [{}, { index := 1 }, { index := 2 }] : RaftLog }.compact 1 0

theorem regular_shortened : shortened.Regular := by
  refine ⟨by decide, ?_, by decide, by decide, by decide⟩
  intro j entry positive found
  have short : j < 2 := (List.getElem?_eq_some_iff.mp found).1
  obtain rfl : j = 1 := by omega
  cases found
  rfl

theorem slice_shortened : shortened.Regular ∧
    shortened.slice64 0 9 = .ok (shortened.entriesIn (max 0 2) (min 9 3)) :=
  ⟨regular_shortened,
    (slice64_eq_entriesIn_iff regular_shortened (by decide) (by decide)).mpr (by decide)⟩

/-- The range before the snapshot makes `Entries` panic. -/
theorem slice_shortened_panics :
    shortened.Regular ∧ shortened.slice64 0 1 = .error .outOfRange ∧
      shortened.entriesIn (max 0 2) (min 1 3) = [] :=
  ⟨regular_shortened, by decide, by decide⟩

end Hermes.Raft.RaftLog
