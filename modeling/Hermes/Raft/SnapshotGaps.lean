import Hermes.Raft.Loop

/-!
# Snapshots and the state machine

The entries of a log reach the state machine one after the other.  A snapshot that a node
installs moves the applied index of its log, but `TakeReady` never returns it, so `Restore`
is not called.  The entries that the snapshot stands for are missing from the state machine,
unless it had been given them before.
-/

namespace Hermes.Raft

open List

/-- The call makes up for the entry at an index: it is applied, it is a noop that is passed
over, or it lies in a snapshot. -/
def Call.Covers (j : ℕ) : Call → Prop
  | .restore snapshot => j ≤ snapshot.index
  | .send _ _ _ _ => False
  | .apply entry => entry.index = j
  | .noop entry => entry.index = j

instance (j : ℕ) : DecidablePred (Call.Covers j) := by
  rintro ⟨⟩ <;> delta Call.Covers <;> infer_instance

/-- No entry is applied before the entries below it. -/
def NoGap (calls : List Call) : Prop :=
  ∀ before entry after, calls = before ++ Call.apply entry :: after →
    ∀ j, 1 ≤ j → j < entry.index → ∃ call ∈ before, call.Covers j

/-- The index of the entry that a call hands on. -/
def Call.index? : Call → Option ℕ
  | .apply entry | .noop entry => some entry.index
  | .restore _ | .send _ _ _ _ => none

theorem Call.covers_of_index? {call : Call} {j : ℕ} (hands : call.index? = some j) :
    call.Covers j := by
  cases call with
  | restore | send => nomatch hands
  | apply | noop => exact Option.some.inj hands

theorem LogEntry.index?_call (entry : LogEntry) : entry.call.index? = some entry.index := by
  unfold call
  split <;> rfl

/-- Entries that are handed on in the order of their indices leave no gap. -/
theorem noGap_of_range {calls : List Call} {n : ℕ}
    (handed : calls.filterMap Call.index? = List.range' 1 n) : NoGap calls := by
  rintro before entry after rfl j positive below
  rw [filterMap_append] at handed
  obtain ⟨k, -, first, rest⟩ := range'_eq_append_iff.mp handed.symm
  obtain ⟨next, -, -⟩ := range'_eq_cons_iff.mp rest.symm
  have mem : j ∈ before.filterMap Call.index? := by
    rw [first, mem_range'_1]
    omega
  obtain ⟨call, found, hands⟩ := mem_filterMap.mp mem
  exact ⟨call, found, Call.covers_of_index? hands⟩

/-! ## Installing a snapshot -/

variable {r r' : Raft} {m : Message}

/-- The node installs the snapshot of the message, if there is one. -/
def Installs (r : Raft) (m : Message) : Prop :=
  m.type = .snapshot ∧
    (r.term < m.term ∨ r.state = .follower ∧ (m.term = 0 ∨ m.term = r.term))
  deriving Decidable

/-- Every other snapshot is ignored. -/
theorem step_of_not_installs {err : Option String} (type : m.type = .snapshot)
    (not : ¬ r.Installs m) (eq : r.step m = .ok (r', err)) : r' = r := by
  have ignored : r.state ≠ .follower → r.stepRole m = .ok (r', err) → r' = r := by
    intro role ran
    unfold stepRole stepCandidate stepLeader at ran
    rw [type] at ran
    split at ran
    · exact absurd ‹_› role
    · cases ran
      rfl
    · cases ran
      rfl
  unfold step at eq
  split at eq
  · rename_i zero
    exact ignored (fun role => not ⟨type, .inr ⟨role, .inl zero⟩⟩) eq
  · split at eq
    · rename_i higher
      exact absurd ⟨type, .inl higher⟩ not
    · split at eq
      · cases eq
        rfl
      · refine ignored (fun role => not ⟨type, .inr ⟨role, .inr ?_⟩⟩) eq
        omega

theorem RaftLog.Changes.applied_eq {l l' : RaftLog} (changes : RaftLog.Changes m l l')
    (known : m.type = .snapshot → ∀ snapshot ∈ m.snapshot, snapshot.index ≤ l.applied) :
    l'.applied = l.applied := by
  induction changes with
  | refl => rfl
  | append _ _ _ eq =>
    rcases append_cases eq with rfl | ⟨_, _, _, _, ⟨_, _, rfl⟩ | ⟨_, rfl⟩⟩
    · rfl
    · rfl
    · rfl
  | compact type given =>
    have below := known type _ given
    unfold RaftLog.compact
    split
    · rfl
    · exact if_neg (not_lt.mpr below)
  | appendOne _ eq ih => rw [(appendOne_eq_ok eq).1, ← ih]
  | commitTo _ eq ih =>
    rw [← ih]
    rcases commitTo_cases eq with rfl | ⟨_, rfl⟩
    · rfl
    · rfl
  | maybeCommit _ matchIndexes currentTerm ih =>
    rw [← ih]
    exact (maybeCommitFrom_extends _ matchIndexes currentTerm).1.applied

/-! ## Runs -/

namespace Loop

variable {σ : Type} {sm : StateMachine σ} {s s' : Loop σ} {event : LoopEvent}

/-- The batches keep the layout of the log, and no snapshot is installed above the applied
index. -/
def Covered (s : Loop σ) : LoopEvent → Prop
  | .step m => s.node.raft.log.Admits m ∧
    (s.node.raft.Installs m → ∀ snapshot ∈ m.snapshot, snapshot.index ≤ s.node.raft.log.applied)
  | _ => True

instance (s : Loop σ) : DecidablePred s.Covered := by
  rintro ⟨⟩ <;> delta Covered <;> infer_instance

theorem Covered.admitted (covered : s.Covered event) : s.Admitted event := by
  cases event with
  | step m => exact covered.1
  | ready | tick | propose => trivial

/-- The state machine has been given every entry up to the applied index. -/
structure InStep (s : Loop σ) : Prop where
  regular : s.node.raft.log.Regular
  handed : s.calls.filterMap Call.index? = List.range' 1 s.node.raft.log.applied

theorem InStep.new {config : Config} {storage : σ} {rng : Rng} {n : RaftNode σ}
    (created : RaftNode.new config storage rng = .ok n) : InStep { node := n } := by
  have empty := (log_new created).1
  constructor
  · rw [empty]
    exact RaftLog.regular_new
  · rw [empty]
    rfl

theorem filterMap_index?_calls (n : RaftNode σ) {rd : Ready} (noSnapshot : rd.snapshot = none) :
    (n.calls rd).filterMap Call.index? = rd.committedEntries.map LogEntry.index := by
  have silent : (rd.messages.map fun m => Call.send m (rd.hardState.getD n.hardState)
      (n.wal ++ rd.entries) n.raft.log).filterMap Call.index? = [] := by
    rw [filterMap_map, filterMap_eq_nil_iff]
    intro m _
    rfl
  have handed : (rd.committedEntries.map LogEntry.call).filterMap Call.index? =
      rd.committedEntries.map LogEntry.index := by
    have index : Call.index? ∘ LogEntry.call = some ∘ LogEntry.index :=
      funext LogEntry.index?_call
    rw [filterMap_map, index, filterMap_eq_map]
  rw [RaftNode.calls, noSnapshot, filterMap_append, filterMap_append, silent, handed]
  rfl

theorem InStep.acts (ok : s.InStep) {raft : Raft} {phase : Phase}
    (regular : raft.log.Regular) (applied : raft.log.applied = s.node.raft.log.applied) :
    InStep { s with node := { s.node with raft := raft }, phase := phase } where
  regular := regular
  handed := by
    rw [applied]
    exact ok.handed

theorem InStep.step (ok : s.InStep) (covered : s.Covered event)
    (eq : s.step sm event = some s') : s'.InStep := by
  have moves := moves_of_step eq
  have regular' := moves.regular covered.admitted ok.regular
  cases moves with
  | @ready rd n phase taken =>
    have processed := RaftNode.Processed.of_ready ok.regular taken
    have applied_le := ok.regular.applied_le
    refine ⟨regular', ?_⟩
    rw [filterMap_append, ok.handed, filterMap_index?_calls _ (by rw [processed.ready]),
      processed.ready, processed.raft,
      ok.regular.map_index_pending ok.regular.committed_le, Nat.add_comm _ 1,
      range'_append_1]
    dsimp only
    congr 1
    omega
  | tick ran =>
    exact ok.acts regular' ((tick_changes (m := { type := .tick }) ran).applied_eq nofun)
  | @step m raft err ran =>
    refine ok.acts regular' ?_
    by_cases installs : s.node.raft.Installs m
    · exact (step_changes ran).applied_eq fun _ => covered.2 installs
    · by_cases type : m.type = .snapshot
      · rw [step_of_not_installs type installs ran]
      · exact (step_changes ran).applied_eq fun snapshot => absurd snapshot type
  | propose ran => exact ok.acts regular' ((step_changes ran).applied_eq nofun)

/-- No entry is applied before the entries below it, as long as no snapshot is installed above
the applied index. -/
theorem noGap_of_covered {config : Config} {storage : σ} {rng : Rng} {n : RaftNode σ}
    (created : RaftNode.new config storage rng = .ok n)
    (reachable : Runs.Reachable (Loop.step sm) Covered { node := n } s) : NoGap s.calls := by
  have ok := reachable.invariant (I := InStep) (.new created) fun _ _ _ ok covered eq =>
    ok.step covered eq
  exact noGap_of_range ok.handed

/-- A leader has three entries appended, and then sends a snapshot up to the second of them
before it has the third one committed. -/
def overtaken : List LoopEvent :=
  [.ready, .step
    { type := .append, fromID := "a", term := 1
      entries := [
        { index := 1, term := 1 }, { index := 2, term := 1 }, { index := 3, term := 1 }] },
    .ready, .step
    { type := .snapshot, fromID := "a", term := 1
      snapshot := some { index := 2, term := 1, data := [] } },
    .ready, .step { type := .heartbeat, fromID := "a", term := 1, commitIndex := 3 }, .ready]

/-- The third entry is applied, and nothing makes up for the first one. -/
theorem not_noGap : ∃ s, Runs.exec (Loop.step idle) anyEvent fresh overtaken = some s ∧
    Call.apply { index := 3, term := 1 } ∈ s.calls ∧
    (∀ call ∈ s.calls, ¬ call.Covers 1 ∧ ¬ call.Covers 2) ∧ ¬ NoGap s.calls := by
  obtain ⟨s, executed, applied, missing⟩ : ∃ s,
      Runs.exec (Loop.step idle) anyEvent fresh overtaken = some s ∧
        Call.apply { index := 3, term := 1 } ∈ s.calls ∧
        ∀ call ∈ s.calls, ¬ call.Covers 1 ∧ ¬ call.Covers 2 := by decide +kernel
  refine ⟨s, executed, applied, missing, fun noGap => ?_⟩
  obtain ⟨before, after, split⟩ := append_of_mem applied
  obtain ⟨call, mem, covers⟩ := noGap before _ after split 1 le_rfl (by decide)
  exact (missing call (split ▸ mem_append_left _ mem)).1 covers

/-- The same snapshot, after the first two entries were applied. -/
theorem noGap_of_covered_fresh : ∃ s, Runs.Reachable (Loop.step idle) Covered fresh s ∧
    Call.apply { index := 3, term := 1 } ∈ s.calls ∧ NoGap s.calls := by
  refine Runs.exists_of_exec_and (Loop.step idle) Covered fresh
    (overtaken.set 1 (.step
      { type := .append, fromID := "a", term := 1, commitIndex := 2
        entries :=
          [{ index := 1, term := 1 }, { index := 2, term := 1 }, { index := 3, term := 1 }] }))
    (by decide +kernel) fun s reachable _ => ?_
  exact noGap_of_covered fresh_new reachable

end Loop

end Hermes.Raft
