import Hermes.Data.Runs
import Hermes.Raft.LogChanges

/-!
# What a node has committed stays

A step of a node may cut its log, but only behind the commit index, and the commit
index never falls.  Only the loop around the state machine moves the applied index.
This holds for every message but a snapshot, as long as the entries of a batch are
numbered behind the index that the batch starts from.
-/

namespace Hermes.Raft

open List

/-- `l'` has come from `l` by changes behind the commit index. -/
structure RaftLog.Extends (l l' : RaftLog) : Prop where
  applied : l'.applied = l.applied
  snapshotIndex : l'.snapshotIndex = l.snapshotIndex
  committed : l.committed ≤ l'.committed
  settled : l.entries.take (l.committed - l.snapshotIndex + 1) <+: l'.entries

/-- The commit index lies between the snapshot and the last entry. -/
structure RaftLog.Bounded (l : RaftLog) : Prop where
  sentinel : l.entries ≠ []
  snapshot_le : l.snapshotIndex ≤ l.committed
  committed_le : l.committed ≤ l.lastIndex

variable {entry : LogEntry}

namespace RaftLog

variable {l l' l'' : RaftLog}

theorem Regular.bounded (regular : l.Regular) : l.Bounded :=
  ⟨regular.sentinel, regular.snapshot_le.trans regular.applied_le, regular.committed_le⟩

theorem WellFormed.bounded (wf : l.WellFormed) : l.Bounded :=
  wf.regular.bounded

theorem Extends.refl (l : RaftLog) : l.Extends l :=
  ⟨rfl, rfl, le_rfl, take_prefix _ _⟩

theorem Extends.trans (first : l.Extends l') (second : l'.Extends l'') : l.Extends l'' where
  applied := second.applied.trans first.applied
  snapshotIndex := second.snapshotIndex.trans first.snapshotIndex
  committed := first.committed.trans second.committed
  settled := by
    refine IsPrefix.trans ?_ second.settled
    apply prefix_take_iff.mpr
    refine ⟨first.settled, ?_⟩
    have moved := first.committed
    rw [first.snapshotIndex, length_take]
    omega

theorem Extends.appliedPart_eq (grown : l.Extends l') (regular : l.Regular) :
    l'.appliedPart = l.appliedPart := by
  have snapshot_le := regular.snapshot_le
  have applied_le := regular.applied_le
  have length := regular.length_take regular.committed_le
  have size : l.committed - l.snapshotIndex + 1 = l.committed + 1 - l.snapshotIndex := by omega
  obtain ⟨rest, eq⟩ := grown.settled
  rw [size] at eq
  rw [appliedPart, appliedPart, grown.applied, grown.snapshotIndex, ← eq,
    take_append_of_le_length (by omega), take_take, min_eq_left (by omega)]

/-! ## Appending -/

theorem Extends.append (more : List LogEntry) : l.Extends { l with entries := l.entries ++ more } :=
  ⟨rfl, rfl, le_rfl, (List.take_prefix _ _).trans (prefix_append _ _)⟩

theorem Bounded.append (bounded : l.Bounded) (more : List LogEntry) :
    Bounded { l with entries := l.entries ++ more } where
  sentinel := append_ne_nil_of_left_ne_nil bounded.sentinel more
  snapshot_le := bounded.snapshot_le
  committed_le := by
    have inside := bounded.committed_le
    simp only [lastIndex, length_append] at inside ⊢
    omega

theorem appendOne_eq_ok (eq : l.appendOne entry = .ok l') :
    l' = { l with entries := l.entries ++ [entry] } ∧ entry.index = l.lastIndex + 1 := by
  unfold appendOne at eq
  dsimp only at eq
  split at eq
  · nomatch eq
  · rename_i next
    cases eq
    exact ⟨rfl, not_not.mp next⟩

variable {entries : List LogEntry}

/-- `Append` leaves the log alone, or puts a part of the entries behind the place of the first
of them. -/
theorem append_cases (eq : l.append entries = .ok l') :
    l' = l ∨ ∃ skipped entry rest, entries = skipped ++ entry :: rest ∧
      (entry.index ≤ l.lastIndex ∧ l.snapshotIndex ≤ entry.index ∧ l' = { l with
            entries := l.entries.take (entry.index - l.snapshotIndex) ++ entry :: rest } ∨
        l.lastIndex < entry.index ∧ l' = { l with entries := l.entries ++ entry :: rest }) := by
  induction entries with
  | nil =>
    cases eq
    exact .inl rfl
  | cons entry rest ih =>
    rw [RaftLog.append] at eq
    split at eq
    · rename_i inside
      split at eq
      · rcases ih eq with same | ⟨skipped, entry', rest', split, changed⟩
        · exact .inl same
        · exact .inr ⟨entry :: skipped, entry', rest', by rw [split]; rfl, changed⟩
      · split at eq
        · cases eq
        · rename_i behind
          cases eq
          exact .inr ⟨[], entry, rest, rfl, .inl ⟨inside, not_lt.mp behind, rfl⟩⟩
    · rename_i outside
      cases eq
      exact .inr ⟨[], entry, rest, rfl, .inr ⟨not_le.mp outside, rfl⟩⟩

/-- `Append` cuts the log at a conflict, which lies behind the commit index if all the
new entries do. -/
theorem append_extends (bounded : l.Bounded) (behind : ∀ entry ∈ entries, l.committed < entry.index)
    (eq : l.append entries = .ok l') : l.Extends l' ∧ l'.Bounded := by
  rcases append_cases eq with rfl | ⟨skipped, entry, rest, rfl, ⟨inside, _, rfl⟩ | ⟨_, rfl⟩⟩
  · exact ⟨.refl _, bounded⟩
  · have later := behind entry mem_append_cons_self
    have started := bounded.snapshot_le
    constructor
    · refine ⟨rfl, rfl, le_rfl, IsPrefix.trans ?_ (prefix_append _ _)⟩
      apply take_prefix_take_left
      omega
    · refine ⟨append_ne_nil_of_right_ne_nil _ (cons_ne_nil _ _), started, ?_⟩
      simp only [lastIndex, length_append, length_take] at inside ⊢
      omega
  · exact ⟨.append _, bounded.append _⟩

theorem appendOne_extends (eq : l.appendOne entry = .ok l') : l.Extends l' := by
  rw [(appendOne_eq_ok eq).1]
  exact .append [entry]

/-! ## Committing -/

variable {n : ℕ}

theorem Extends.committed_of_le (above : l.committed ≤ n) : l.Extends { l with committed := n } :=
  ⟨rfl, rfl, above, take_prefix _ _⟩

theorem Bounded.committed_of_le (bounded : l.Bounded) (above : l.committed ≤ n)
    (inside : n ≤ l.lastIndex) : Bounded { l with committed := n } :=
  ⟨bounded.sentinel, bounded.snapshot_le.trans above, inside⟩

/-- `CommitTo` moves the commit index up, but not past the last entry, or not at all. -/
theorem commitTo_cases (eq : l.commitTo n = .ok (l', entries)) :
    l' = l ∨ l.committed < n ∧ l' = { l with committed := min n l.lastIndex } := by
  unfold commitTo at eq
  split at eq
  · cases eq
    exact .inl rfl
  · rename_i above
    obtain ⟨_, _, same⟩ := bind_eq_ok.mp eq
    cases same
    have clamped : (if n > l.lastIndex then l.lastIndex else n) = min n l.lastIndex := by
      split <;> omega
    rw [clamped]
    exact .inr ⟨not_le.mp above, rfl⟩

theorem commitTo_extends (bounded : l.Bounded) (eq : l.commitTo n = .ok (l', entries)) :
    l.Extends l' ∧ l'.Bounded := by
  rcases commitTo_cases eq with rfl | ⟨above, rfl⟩
  · exact ⟨.refl _, bounded⟩
  · have inside := bounded.committed_le
    have moved : l.committed ≤ min n l.lastIndex := by omega
    exact ⟨.committed_of_le moved, bounded.committed_of_le moved (min_le_right _ _)⟩

theorem maybeCommitFrom_extends (l : RaftLog) (matchIndexes : List ℕ) (currentTerm : ℕ) :
    l.Extends (l.maybeCommitFrom matchIndexes currentTerm l.lastIndex).1 ∧
      (l.Bounded → Bounded (l.maybeCommitFrom matchIndexes currentTerm l.lastIndex).1) := by
  rcases l.maybeCommitFrom_cases matchIndexes currentTerm l.lastIndex with
    same | ⟨k, above, inside, _, _, moved⟩
  · rw [same]
    exact ⟨.refl _, fun bounded => bounded⟩
  · rw [moved]
    exact ⟨.committed_of_le above.le, fun bounded => bounded.committed_of_le above.le inside⟩

end RaftLog

/-! ## Steps -/

/-- Entries that stand behind the index that their batch starts from, and no snapshot. -/
structure Ordinary (m : Message) : Prop where
  notSnapshot : m.type ≠ .snapshot
  behind : m.type = .append → ∀ entry ∈ m.entries, m.logIndex < entry.index

variable {r r' : Raft} {m : Message}

/-- The changes that an ordinary message makes keep what is committed. -/
theorem RaftLog.Changes.extends {l l' : RaftLog} (changes : RaftLog.Changes m l l')
    (bounded : l.Bounded) (ordinary : Ordinary m) : l.Extends l' ∧ l'.Bounded := by
  induction changes with
  | refl => exact ⟨.refl l, bounded⟩
  | append type fresh _ eq =>
    refine append_extends bounded (fun entry mem => ?_) eq
    exact fresh.trans_lt (ordinary.behind type entry mem)
  | compact type => exact absurd type ordinary.notSnapshot
  | appendOne _ eq ih =>
    obtain ⟨grown, bounded'⟩ := ih
    obtain ⟨rfl, -⟩ := appendOne_eq_ok eq
    exact ⟨grown.trans (.append _), bounded'.append _⟩
  | commitTo _ eq ih =>
    obtain ⟨grown, bounded'⟩ := ih
    obtain ⟨further, bounded''⟩ := commitTo_extends bounded' eq
    exact ⟨grown.trans further, bounded''⟩
  | maybeCommit _ matchIndexes currentTerm ih =>
    obtain ⟨grown, bounded'⟩ := ih
    obtain ⟨further, keeps⟩ := maybeCommitFrom_extends _ matchIndexes currentTerm
    exact ⟨grown.trans further, keeps bounded'⟩

/-- A message that stands for a tick. -/
theorem ordinary_tick : Ordinary { type := .tick } :=
  ⟨nofun, nofun⟩

theorem tick_extends (bounded : r.log.Bounded) (eq : r.tick = .ok r') :
    r.log.Extends r'.log ∧ r'.log.Bounded :=
  (tick_changes eq).extends bounded ordinary_tick

/-- A step keeps what is committed. -/
theorem step_extends {err : Option String} (bounded : r.log.Bounded) (ordinary : Ordinary m)
    (eq : r.step m = .ok (r', err)) : r.log.Extends r'.log ∧ r'.log.Bounded :=
  (step_changes eq).extends bounded ordinary

/-! ## Runs of one node -/

/-- What happens to a node: a tick or a message. -/
inductive Stimulus where
  | tick
  | step (m : Message)
  deriving DecidableEq, Repr

/-- The node afterwards, unless it panics. -/
def respond (r : Raft) : Stimulus → Option Raft
  | .tick => r.tick.toOption
  | .step m => (r.step m).toOption.map Prod.fst

/-- Entries that are numbered one after the other. -/
def Consecutive (entries : List LogEntry) (start : ℕ) : Prop :=
  ∀ i entry, entries[i]? = some entry → entry.index = start + i

instance (entries : List LogEntry) (start : ℕ) : Decidable (Consecutive entries start) :=
  decidable_of_iff (∀ i, (h : i < entries.length) → entries[i].index = start + i)
    (by simp [Consecutive, List.getElem?_eq_some_iff])

theorem Consecutive.start_le {entries : List LogEntry} {start : ℕ}
    (consecutive : Consecutive entries start) (mem : entry ∈ entries) : start ≤ entry.index := by
  obtain ⟨i, found⟩ := mem_iff_getElem?.mp mem
  exact consecutive i entry found ▸ Nat.le_add_right _ _

/-- No snapshots, and batches that are numbered from the index that they start from. -/
def Stimulus.Ordered (_ : Raft) : Stimulus → Prop
  | .tick => True
  | .step m => m.type ≠ .snapshot ∧ (m.type = .append → Consecutive m.entries (m.logIndex + 1))

instance (r : Raft) : DecidablePred (Stimulus.Ordered r) := by
  rintro ⟨⟩ <;> delta Stimulus.Ordered <;> infer_instance

theorem respond_extends {stimulus : Stimulus} (bounded : r.log.Bounded)
    (ordered : stimulus.Ordered r) (eq : r.respond stimulus = some r') :
    r.log.Extends r'.log ∧ r'.log.Bounded := by
  cases stimulus with
  | tick => exact tick_extends bounded (toOption_eq_some.mp eq)
  | step m =>
    obtain ⟨⟨r₁, err⟩, stepped, rfl⟩ := Option.map_eq_some_iff.mp eq
    refine step_extends bounded ⟨ordered.1, ?_⟩ (toOption_eq_some.mp stepped)
    intro type entry mem
    exact (ordered.2 type).start_le mem

/-- The entry at a position of the log. -/
def RaftLog.slot (l : RaftLog) (i : ℕ) : Option LogEntry :=
  l.entries[i - l.snapshotIndex]?

/-- What is committed stands where it stood. -/
theorem RaftLog.Extends.slot_eq {l l' : RaftLog} (grown : l.Extends l') (bounded : l.Bounded)
    {i : ℕ} (settled : i ≤ l.committed) : l'.slot i = l.slot i := by
  have inside := bounded.committed_le
  have started := length_pos_iff.mpr bounded.sentinel
  obtain ⟨rest, eq⟩ := grown.settled
  unfold lastIndex at inside
  unfold slot
  rw [grown.snapshotIndex, ← eq, getElem?_append_left (by rw [length_take]; omega),
    getElem?_take_of_lt (by omega)]

theorem bounded_new : RaftLog.new.Bounded :=
  RaftLog.wellFormed_new.bounded

/-- Along every sequence of ticks and messages the commit index never falls, and the log never
changes up to it. -/
theorem committed_stays {r₀ r₁ r₂ : Raft} (bounded : r₀.log.Bounded)
    (first : Runs.Reachable respond Stimulus.Ordered r₀ r₁)
    (second : Runs.Reachable respond Stimulus.Ordered r₁ r₂) :
    r₁.log.committed ≤ r₂.log.committed ∧
      ∀ i ≤ r₁.log.committed, r₂.log.slot i = r₁.log.slot i := by
  have bounded₁ : r₁.log.Bounded :=
    first.invariant (I := fun r => r.log.Bounded) bounded fun _ _ _ bounded ordered eq =>
      (respond_extends bounded ordered eq).2
  have grown : r₁.log.Extends r₂.log ∧ r₂.log.Bounded := by
    refine second.invariant (I := fun r => r₁.log.Extends r.log ∧ r.log.Bounded)
      ⟨.refl _, bounded₁⟩ ?_
    rintro r stimulus r' ⟨grown, bounded⟩ ordered eq
    obtain ⟨further, bounded'⟩ := respond_extends bounded ordered eq
    exact ⟨grown.trans further, bounded'⟩
  exact ⟨grown.1.committed, fun i settled => grown.1.slot_eq bounded₁ settled⟩

/-- A node that has just been created. -/
def observer : Raft where
  config := defaultConfig "b" ["a"]
  id := "b"
  electionTimeout := 10
  rng := fun _ => 0

/-- A leader of term one has an entry committed, and one of term two replaces the next entry. -/
theorem committed_stays_observer : ∃ r₁ r₂,
    Runs.Reachable respond Stimulus.Ordered observer r₁ ∧
      Runs.Reachable respond Stimulus.Ordered r₁ r₂ ∧ r₁.log.committed = 1 ∧
      r₁.log.slot 2 ≠ r₂.log.slot 2 ∧
      (r₁.log.committed ≤ r₂.log.committed ∧
        ∀ i ≤ r₁.log.committed, r₂.log.slot i = r₁.log.slot i) := by
  obtain ⟨r₁, first, r₂, executed, committed, differs⟩ :=
    Runs.exists_of_exec respond Stimulus.Ordered observer
    [.tick, .step
      { type := .append, fromID := "a", term := 1, commitIndex := 1
        entries := [{ index := 1, term := 1 }, { index := 2, term := 1 }] }]
    (P := fun r₁ => ∃ r₂, Runs.exec respond Stimulus.Ordered r₁ [.step
      { type := .append, fromID := "c", term := 2, logIndex := 1, logTerm := 1
        entries := [{ index := 2, term := 2 }] }] = some r₂ ∧ r₁.log.committed = 1 ∧
        r₁.log.slot 2 ≠ r₂.log.slot 2) (by decide +kernel)
  have second := Runs.Reachable.start.exec executed
  exact ⟨r₁, r₂, first, second, committed, differs, committed_stays bounded_new first second⟩

end Hermes.Raft
