import Hermes.Raft.Node
import Hermes.Raft.LogCorrectness
import Hermes.Data.Except

/-!
# What the loop of a node does

On a regular log the head of the loop never panics.  It sends every message that is
waiting, applies exactly the entries between the applied and the commit index, and
moves the applied index up to the commit index.
-/

namespace Hermes.Raft

open List

variable {σ : Type} {sm : StateMachine σ} {n : RaftNode σ}

theorem RaftLog.withApplied_committed {l : RaftLog} (all : l.applied = l.committed) :
    { l with applied := l.committed } = l := by
  cases l
  cases all
  rfl

/-- The storage after all the entries but the noops were applied. -/
def StateMachine.applyAll (sm : StateMachine σ) (storage : σ) (entries : List LogEntry) : σ :=
  entries.foldl
    (fun storage entry => if entry.type = .noop then storage else (sm.apply storage entry).1)
    storage

theorem takeReady_eq {r : Raft} (regular : r.log.Regular) :
    r.takeReady = .ok
      ({ entries := r.log.pending r.log.lastIndex
         messages := r.msgs
         committedEntries := r.log.pending r.log.committed },
        { r with msgs := [] }) :=
  bind_eq_ok.mpr ⟨_, regular.slice_pending le_rfl,
    bind_eq_ok.mpr ⟨_, regular.slice_pending regular.committed_le, rfl⟩⟩

namespace RaftNode

theorem foldl_applyEntry (entries : List LogEntry) (n : RaftNode σ) :
    entries.foldl (applyEntry sm) n =
      { n with
        storage := sm.applyAll n.storage entries
        appliedIndex := (entries.getLast?.map LogEntry.index).getD n.appliedIndex } := by
  induction entries generalizing n with
  | nil => rfl
  | cons entry rest ih =>
    have round : applyEntry sm n entry =
        { n with
          storage := if entry.type = .noop then n.storage else (sm.apply n.storage entry).1
          appliedIndex := entry.index } := by
      unfold applyEntry
      split <;> rfl
    rw [foldl_cons, ih, round, getLast?_cons]
    cases rest.getLast? <;> rfl

/-- What taking and processing what is ready does to a node whose log is regular. -/
structure Processed (sm : StateMachine σ) (n : RaftNode σ) (rd : Ready) (n' : RaftNode σ) :
    Prop where
  ready : rd =
    { entries := n.raft.log.pending n.raft.log.lastIndex
      messages := n.raft.msgs
      committedEntries := n.raft.log.pending n.raft.log.committed }
  raft : n'.raft =
    { n.raft with msgs := [], log := { n.raft.log with applied := n.raft.log.committed } }
  wal : n'.wal = n.wal ++ n.raft.log.pending n.raft.log.lastIndex
  hardState : n'.hardState = n.hardState
  appliedIndex : n.appliedIndex = n.raft.log.applied → n'.appliedIndex = n.raft.log.committed

/-- Processing what `TakeReady` returned. -/
theorem processReady_eq (sm : StateMachine σ) (regular : n.raft.log.Regular)
    {entries : List LogEntry} {messages : List Message} :
    ∃ n', n.processReady sm
        { entries := entries
          messages := messages
          committedEntries := n.raft.log.pending n.raft.log.committed } = .ok n' ∧
      n'.raft = { n.raft with log := { n.raft.log with applied := n.raft.log.committed } } ∧
      n'.wal = n.wal ++ entries ∧ n'.hardState = n.hardState ∧
      (n.appliedIndex = n.raft.log.applied → n'.appliedIndex = n.raft.log.committed) := by
  simp only [processReady]
  rcases lt_or_eq_of_le regular.applied_le with more | all
  · have waiting : (n.raft.log.pending n.raft.log.committed).length > 0 := by
      refine length_pos_iff.mpr fun none => ?_
      have := regular.pending_eq_nil.mp none
      omega
    rw [if_pos waiting, applyEntries, foldl_applyEntry, regular.getLast?_pending more]
    simp only [Option.getD_some, RaftLog.appliedTo, lt_irrefl]
    exact ⟨_, rfl, rfl, rfl, rfl, fun _ => rfl⟩
  · have none := regular.pending_eq_nil.mpr all.symm
    rw [none]
    exact ⟨_, rfl, by rw [RaftLog.withApplied_committed all], rfl, rfl,
      fun same => same.trans all⟩

/-- The head of the loop never panics on a regular log. -/
theorem ready_processed (sm : StateMachine σ) (regular : n.raft.log.Regular) :
    ∃ rd n', n.ready sm = .ok (rd, n') ∧ Processed sm n rd n' := by
  simp only [ready, takeReady_eq regular, bind, Except.bind]
  split
  · rename_i empty
    simp only [Ready.isEmpty, Bool.and_eq_true, decide_eq_true_eq, length_eq_zero_iff]
      at empty
    obtain ⟨⟨⟨⟨⟨⟨noEntries, -⟩, none⟩, -⟩, -⟩, -⟩, -⟩ := empty
    have all := regular.pending_eq_nil.mp none
    exact ⟨_, _, rfl, rfl, by rw [RaftLog.withApplied_committed all.symm],
      by rw [noEntries, append_nil], rfl, fun same => same.trans all.symm⟩
  · obtain ⟨n', processed, raft, wal, hardState, index⟩ := processReady_eq sm
      (n := { n with raft := { n.raft with msgs := [] } }) regular
    exact ⟨_, n', bind_eq_ok.mpr ⟨n', processed, rfl⟩, rfl, raft, wal, hardState, index⟩

variable {rd : Ready} {n' : RaftNode σ}

theorem Processed.of_ready (regular : n.raft.log.Regular) (eq : n.ready sm = .ok (rd, n')) :
    Processed sm n rd n' := by
  obtain ⟨rd₁, n₁, same, processed⟩ := ready_processed sm regular
  rw [same] at eq
  cases eq
  exact processed

theorem Processed.messages (processed : Processed sm n rd n') : rd.messages = n.raft.msgs := by
  rw [processed.ready]

theorem Processed.committedEntries (processed : Processed sm n rd n') :
    rd.committedEntries = n.raft.log.pending n.raft.log.committed := by
  rw [processed.ready]

/-- What becomes of the messages and of the storage, whatever the log is. -/
theorem ready_taken (eq : n.ready sm = .ok (rd, n')) :
    rd.messages = n.raft.msgs ∧ n'.raft.msgs = [] ∧
      n'.storage = sm.applyAll n.storage rd.committedEntries := by
  obtain ⟨⟨rd₁, raft⟩, taken, rest⟩ := bind_eq_ok.mp eq
  obtain ⟨entries, _, taken⟩ := bind_eq_ok.mp taken
  obtain ⟨committed, _, same⟩ := bind_eq_ok.mp taken
  cases same
  dsimp only at rest
  split at rest
  · rename_i empty
    cases rest
    simp only [Ready.isEmpty, Bool.and_eq_true, decide_eq_true_eq, length_eq_zero_iff] at empty
    obtain ⟨⟨⟨⟨⟨-, rfl⟩, -⟩, -⟩, -⟩, -⟩ := empty
    exact ⟨rfl, rfl, rfl⟩
  · obtain ⟨n₁, processed, same⟩ := bind_eq_ok.mp rest
    cases same
    simp only [processReady] at processed
    split at processed
    · obtain ⟨log, _, same⟩ := bind_eq_ok.mp processed
      cases same
      rw [foldl_applyEntry]
      exact ⟨rfl, rfl, rfl⟩
    · rename_i noEntries
      cases processed
      rw [eq_nil_of_length_eq_zero (Nat.eq_zero_of_not_pos noEntries)]
      exact ⟨rfl, rfl, rfl⟩

end RaftNode

end Hermes.Raft
