import Hermes.Consistency.Linearizability
import Hermes.Data.Runs

/-!
# Recording histories

`Invoke` and `Complete` of the checker.  With a clock that moves on between the calls they
record histories whose times are distinct, which is what the results on the checker assume.
-/

namespace Hermes.Consistency

open List

structure LinearizabilityChecker (V : Type*) where
  history : List (Operation V) := []
  nextID : UInt64 := 0
  deriving DecidableEq, Repr

variable {V : Type*}

namespace LinearizabilityChecker

/-- `Invoke`, at the time that the clock shows. -/
def invoke (c : LinearizabilityChecker V) (opType : OpType) (key : String) (value : Option V)
    (now : ℕ) : LinearizabilityChecker V × UInt64 :=
  ({ history := c.history ++
      [{ id := c.nextID, type := opType, key := key, value := value, startTime := now }]
     nextID := c.nextID + 1 }, c.nextID)

/-- `Complete`, at the time that the clock shows. -/
def complete (c : LinearizabilityChecker V) (id : UInt64) (result : Option V)
    (err : Option String) (now : ℕ) : LinearizabilityChecker V :=
  { c with
    history := c.history.modify (c.history.findIdx fun op => op.id == id) fun op =>
      { op with endTime := now, value := result, err := err } }

end LinearizabilityChecker

/-! ## Runs -/

/-- The checker and the time of the last reading of the clock. -/
structure Recording (V : Type*) where
  checker : LinearizabilityChecker V := {}
  clock : ℕ := 0

inductive RecordEvent (V : Type*) where
  | invoke (opType : OpType) (key : String) (value : Option V) (now : ℕ)
  | complete (id : UInt64) (result : Option V) (err : Option String) (now : ℕ)

namespace Recording

def step (s : Recording V) : RecordEvent V → Option (Recording V)
  | .invoke opType key value now =>
    some { checker := (s.checker.invoke opType key value now).1, clock := now }
  | .complete id result err now =>
    some { checker := s.checker.complete id result err now, clock := now }

/-- The clock has moved on, and the operation is a GET, PUT or DELETE. -/
def InTime (s : Recording V) : RecordEvent V → Prop
  | .invoke opType _ _ now => opType ≠ .cas ∧ s.clock < now
  | .complete _ _ _ now => s.clock < now

/-- The times of an operation have been shown by the clock. -/
def Timed (clock : ℕ) (op : Operation V) : Prop :=
  op.type ≠ .cas ∧ op.startTime ≤ clock ∧
    (op.completed = true → op.startTime < op.endTime ∧ op.endTime ≤ clock)

/-- The times of two operations are different. -/
def Apart (a b : Operation V) : Prop :=
  a.startTime ≠ b.startTime ∧ (b.completed = true → a.startTime ≠ b.endTime) ∧
    (a.completed = true → b.startTime ≠ a.endTime) ∧
    (a.completed = true → b.completed = true → a.endTime ≠ b.endTime)

/-- The history is recorded, up to the time that the clock has shown. -/
structure UpToDate (s : Recording V) : Prop where
  timed : ∀ op ∈ s.checker.history, Timed s.clock op
  apart : s.checker.history.Pairwise Apart

variable {s : Recording V} {now : ℕ} {a b op : Operation V}

theorem Apart.symm (apart : Apart a b) : Apart b a := by
  obtain ⟨starts, before, after, ends⟩ := apart
  exact ⟨starts.symm, after, before, fun done done' => (ends done' done).symm⟩

theorem Timed.mono {clock : ℕ} (timed : Timed clock op) (later : clock ≤ now) : Timed now op := by
  obtain ⟨known, started, ended⟩ := timed
  exact ⟨known, started.trans later, fun done => (ended done).imp_right (·.trans later)⟩

theorem UpToDate.recorded (upToDate : s.UpToDate) : Recorded s.checker.history where
  types op mem := (upToDate.timed op mem).1
  starts := pairwise_map.mpr (upToDate.apart.imp fun apart => apart.1)
  ends := pairwise_map.mpr (pairwise_filter.mpr (upToDate.apart.imp fun apart => apart.2.2.2))
  apart a a_mem b b_mem completed := by
    rcases eq_or_ne a b with rfl | different
    · exact ((upToDate.timed a a_mem).2.2 completed).1.ne
    · have : Std.Symm (@Apart V) := ⟨fun _ _ => Apart.symm⟩
      exact (upToDate.apart.forall a_mem b_mem different).2.1 completed
  forward op mem completed := ((upToDate.timed op mem).2.2 completed).1

theorem UpToDate.invoke (upToDate : s.UpToDate) {opType : OpType} {key : String} {value : Option V}
    (known : opType ≠ .cas) (later : s.clock < now) :
    UpToDate { checker := (s.checker.invoke opType key value now).1, clock := now } where
  timed := by
    rw [LinearizabilityChecker.invoke, forall_mem_append, forall_mem_singleton]
    exact ⟨fun op mem => (upToDate.timed op mem).mono later.le, known, le_rfl,
      fun done => absurd done Bool.false_ne_true⟩
  apart := by
    refine pairwise_append.mpr ⟨upToDate.apart, pairwise_singleton _ _, fun op mem =>
      forall_mem_singleton.mpr ?_⟩
    obtain ⟨-, started, ended⟩ := upToDate.timed op mem
    refine ⟨(started.trans_lt later).ne, fun done => absurd done Bool.false_ne_true,
      fun completed => ?_, fun _ done => absurd done Bool.false_ne_true⟩
    exact ((ended completed).2.trans_lt later).ne'

theorem UpToDate.complete (upToDate : s.UpToDate) {id : UInt64} {result : Option V}
    {err : Option String} (later : s.clock < now) :
    UpToDate { checker := s.checker.complete id result err now, clock := now } := by
  obtain ⟨timed, apart⟩ := upToDate
  rw [LinearizabilityChecker.complete]
  by_cases present : (s.checker.history.findIdx fun op => op.id == id) < s.checker.history.length
  · -- an operation of the history ends now
    obtain ⟨front, op, back, split, -, modified⟩ := exists_of_modify
      (fun op => { op with endTime := now, value := result, err := err }) present
    rw [modified]
    rw [split, forall_mem_append, forall_mem_cons] at timed
    rw [split, pairwise_middle Apart.symm, pairwise_cons] at apart
    obtain ⟨before, ⟨known, started, -⟩, after⟩ := timed
    have others := forall_mem_append.mpr ⟨before, after⟩
    constructor
    · rw [forall_mem_append, forall_mem_cons]
      exact ⟨fun x mem => (before x mem).mono later.le,
        ⟨known, started.trans later.le, fun _ => ⟨started.trans_lt later, le_rfl⟩⟩,
        fun x mem => (after x mem).mono later.le⟩
    · refine (pairwise_middle Apart.symm).mpr (pairwise_cons.mpr ⟨fun x mem => ?_, apart.2⟩)
      obtain ⟨starts, startsLater, -⟩ := apart.1 x mem
      obtain ⟨-, started, ended⟩ := others x mem
      exact ⟨starts, startsLater, fun _ => (started.trans_lt later).ne,
        fun _ done => ((ended done).2.trans_lt later).ne'⟩
  · rw [modify_eq_self (not_lt.mp present)]
    exact ⟨fun op mem => (timed op mem).mono later.le, apart⟩

/-- The calls record histories as the checker assumes them. -/
theorem recorded_of_reachable (reachable : Runs.Reachable step InTime {} s) :
    Recorded s.checker.history := by
  have upToDate : s.UpToDate := by
    apply reachable.invariant (I := UpToDate)
    · exact ⟨nofun, .nil⟩
    · intro s event s' upToDate inTime happens
      cases event with
      | invoke opType key value now =>
        cases happens
        exact upToDate.invoke inTime.1 inTime.2
      | complete id result err now =>
        cases happens
        exact upToDate.complete inTime
  exact upToDate.recorded

theorem recorded_of_reachable_put : ∃ s : Recording ℕ, Recorded s.checker.history ∧
    s.checker.history.map Operation.completed = [true] := by
  have invoked : InTime {} (.invoke .put "k" (some 1) 1) := ⟨nofun, Nat.one_pos⟩
  exact ⟨_, recorded_of_reachable (.next (.next .start invoked rfl)
    (show InTime _ (.complete 0 (some 1) none 2) from Nat.one_lt_two) rfl), by decide⟩

end Recording

end Hermes.Consistency
