import Hermes.Cdc.Delivery

/-!
# The operations of change events

Whether a write inserts or updates depends on what its key had before.  The feed takes the
entry at its start for an update and every later one for an insert, so it is right about the
writes of keys without a value, apart from one at the start.
-/

namespace Hermes.Cdc

open List

/-- Whether a key has a value after the entries of a stream. -/
def live (stream : List WALEntry) (key : Bytes) : Bool :=
  stream.foldl (fun alive entry => if entry.key = key then !entry.deleted else alive) false

/-- The operation that an entry is. -/
def operation (before : List WALEntry) (entry : WALEntry) : ChangeOp :=
  if entry.deleted then .delete
  else if live before entry.key then .update
  else .insert

/-- The entries of a stream from a position on, with increasing numbers. -/
def InOrder (startAt : UInt64) (stream : List WALEntry) : Prop :=
  stream.Pairwise (fun a b => a.sequence < b.sequence) ∧ ∀ entry ∈ stream, startAt ≤ entry.sequence
  deriving Decidable

/-- The entry that is kept as the `i`th one. -/
theorem exists_split_of_filter {α : Type} {p : α → Bool} {l : List α} {i : ℕ} {x : α}
    (found : (l.filter p)[i]? = some x) :
    ∃ before after, l = before ++ x :: after ∧ (before.filter p).length = i := by
  induction l generalizing i with
  | nil => nomatch found
  | cons y rest ih =>
    rw [filter_cons] at found
    split at found
    · rename_i kept
      cases i with
      | zero =>
        cases found
        exact ⟨[], rest, rfl, rfl⟩
      | succ i =>
        obtain ⟨before, after, rfl, length⟩ := ih found
        exact ⟨y :: before, after, rfl, by rw [filter_cons_of_pos kept, length_cons, length]⟩
    · rename_i skipped
      obtain ⟨before, after, rfl, length⟩ := ih found
      exact ⟨y :: before, after, rfl, by rw [filter_cons_of_neg skipped, length]⟩

theorem op_buildEvent_eq_iff {startAt : UInt64} {before after : List WALEntry} {entry : WALEntry}
    (inOrder : InOrder startAt (before ++ entry :: after)) (eventID : UInt64) :
    (buildEvent startAt eventID entry).op = operation before entry ↔
      entry.deleted ∨ entry.sequence ≠ startAt ∧ ¬ live before entry.key := by
  obtain ⟨ascending, started⟩ := inOrder
  have fromStart := started entry mem_append_cons_self
  unfold buildEvent operation
  split
  · rename_i deleted
    exact iff_of_true rfl (.inl deleted)
  · rename_i kept
    split
    · rename_i early
      -- the entry at the start is the first one, so that nothing is before it
      have first : before = [] := by
        refine eq_nil_iff_forall_not_mem.mpr fun other mem => ?_
        have less := (pairwise_append.mp ascending).2.2 other mem entry mem_cons_self
        exact (UInt64.not_lt.mpr (started other (mem_append_left _ mem)))
          (UInt64.lt_of_lt_of_le less early)
      subst first
      simp [live, kept, UInt64.le_antisymm early fromStart]
    · rename_i late
      have other : entry.sequence ≠ startAt := fun same => late (same ▸ UInt64.le_refl _)
      cases live before entry.key <;> simp [kept, other]

/-- An event that a feed has delivered has the right operation exactly if it is a deletion, or
its entry is not the one at the start and its key had no value. -/
theorem op_delivered_iff {config : ChangeFeedConfig} {s : Feeding}
    (reachable : Feeding.Reachable config s) (inOrder : InOrder config.startAt s.stream)
    {i : ℕ} {event : ChangeEvent} (delivered : (published s.calls)[i]? = some event) :
    ∃ before entry after, s.stream = before ++ entry :: after ∧
      (before.filter config.accepts).length = i ∧ event.version = entry.sequence ∧
      (event.op = operation before entry ↔
        entry.deleted ∨ entry.sequence ≠ config.startAt ∧ ¬ live before entry.key) := by
  obtain ⟨f, consistent⟩ := (Feeding.sound_of_reachable reachable).consistent
  have within := (List.getElem?_eq_some_iff.mp delivered).1
  rw [← List.getElem?_append_left within, consistent.split, built, List.getElem?_mapIdx,
    Option.map_eq_some_iff] at delivered
  obtain ⟨entry, found, rfl⟩ := delivered
  obtain ⟨before, after, split, length⟩ := exists_split_of_filter found
  rw [split] at inOrder
  refine ⟨before, entry, after, split, length, ?_, op_buildEvent_eq_iff inOrder _⟩
  unfold buildEvent
  split
  · rfl
  · split <;> rfl

/-- The second entry of a stream deletes what the first one has written. -/
theorem op_delivered_deleted :
    ∃ s event, Feeding.Reachable { id := "f", batchSize := 1 } s ∧ InOrder 0 s.stream ∧
      (published s.calls)[1]? = some event ∧ event.op = .delete := by
  obtain ⟨s, reachable, inOrder, event, delivered, second, deletes⟩ :=
    Runs.exists_of_exec Feeding.step (fun _ _ => True) (.start { id := "f", batchSize := 1 })
    [(.entry { sequence := 1, key := [7] }, ⟨true, true⟩),
      (.entry { sequence := 2, key := [7], deleted := true }, ⟨true, true⟩)]
    (P := fun s => InOrder 0 s.stream ∧ ∃ event, (published s.calls)[1]? = some event ∧
      event.version = 2 ∧ ∀ entry ∈ s.stream, entry.sequence = 2 → entry.deleted = true)
    (by decide +kernel)
  obtain ⟨before, entry, after, split, -, version, right⟩ :=
    op_delivered_iff reachable inOrder delivered
  have mem : entry ∈ s.stream := split ▸ mem_append_right before mem_cons_self
  have deleted : entry.deleted = true := deletes entry mem (version.symm.trans second)
  refine ⟨s, event, reachable, inOrder, delivered, (right.mpr (.inl deleted)).trans ?_⟩
  rw [operation, if_pos deleted]

/-- A key is written twice: the insert is published as an update and the update as an insert. -/
theorem op_delivered_wrong :
    ∃ s, Feeding.Reachable { id := "f", startAt := 1, batchSize := 1 } s ∧
      s.stream = [{ sequence := 1, key := [7] }, { sequence := 2, key := [7] }] ∧
      InOrder 1 s.stream ∧ (published s.calls).map ChangeEvent.op = [.update, .insert] ∧
      operation [] { sequence := 1, key := [7] } = .insert ∧
      operation [{ sequence := 1, key := [7] }] { sequence := 2, key := [7] } = .update := by
  exact Runs.exists_of_exec Feeding.step (fun _ _ => True)
    (.start { id := "f", startAt := 1, batchSize := 1 })
    [(.entry { sequence := 1, key := [7] }, ⟨true, true⟩),
      (.entry { sequence := 2, key := [7] }, ⟨true, true⟩)] (by decide +kernel)

end Hermes.Cdc
