import Mathlib

/-!
# Sagas

The steps of a saga are executed in order, each with retries.  When one of them fails, the
compensations of those before it are called in reverse order, up to the first one that returns
an error.  A negative retry count leaves a step without any attempt and without an error.
-/

namespace Hermes.Txn.Saga

open List Option

/-- A step, with whether it has a compensation. -/
structure SagaStep where
  name : String
  compensates : Bool := true
  retryCount : Int64 := 0
  deriving DecidableEq, Repr

inductive SagaState where
  | pending
  | running
  | completed
  | failed
  | compensating
  deriving DecidableEq, Repr

/-- What a callback returns, or that the context ends before a retry. -/
inductive Outcome where
  | returned (err : Option String)
  | cancelled (err : String)
  deriving DecidableEq, Repr

/-- The error of a saga: the step that failed and its error. -/
structure SagaError where
  index : ℕ
  name : String
  err : String
  deriving DecidableEq, Repr

/-- How the execution of a saga ends. -/
structure SagaRun where
  /-- What the calls of `Execute` returned, for every step that the loop came to. -/
  executed : List (List (Option String)) := []
  /-- The steps whose `Compensate` was called afterwards, with what it returned. -/
  compensated : List (ℕ × Option String) := []
  state : SagaState
  error : Option SagaError := none
  deriving DecidableEq, Repr

def defaultRetryCount : Int64 := 3

/-- The loop of `executeStepWithRetry` from an attempt on, over the outcomes to come: what the
calls return, the result, and the outcomes that are left. -/
def attempts (retryCount attempt : Int64) (lastErr : Option String) (outcomes : List Outcome) :
    Option (List (Option String) × Option String × List Outcome) :=
  if attempt ≤ retryCount then
    match outcomes with
    | [] => none
    | .cancelled err :: rest => if attempt > 0 then some ([], some err, rest) else none
    | .returned none :: rest => some ([none], none, rest)
    | .returned (some err) :: rest =>
      (attempts retryCount (attempt + 1) (some err) rest).map fun (results, ended) =>
        (some err :: results, ended)
  else some ([], lastErr, outcomes)

def executeStepWithRetry (step : SagaStep) (outcomes : List Outcome) :
    Option (List (Option String) × Option String × List Outcome) :=
  attempts (if step.retryCount = 0 then defaultRetryCount else step.retryCount) 0 none outcomes

/-- The step has a compensation. -/
def Compensable (steps : List SagaStep) (i : ℕ) : Prop :=
  (steps[i]?).any SagaStep.compensates = true
  deriving Decidable

/-- `compensate` for the steps below `i`, where `undo` is what the `Compensate` of each step
returns: the calls, with what they return, and the result. -/
def compensate (steps : List SagaStep) (undo : ℕ → Option String) :
    (i : ℕ) → List (ℕ × Option String) × Option String
  | 0 => ([], none)
  | i + 1 =>
    if Compensable steps i then
      match undo i with
      | none =>
        let (undone, err) := compensate steps undo i
        ((i, none) :: undone, err)
      | some err => ([(i, some err)], some err)
    else compensate steps undo i

/-- The loop of `Execute` from the step `i` on. -/
def executeFrom (steps : List SagaStep) (undo : ℕ → Option String) (i : ℕ) :
    List SagaStep → List Outcome → Option SagaRun
  | [], _ => some { state := .completed }
  | step :: rest, outcomes =>
    match executeStepWithRetry step outcomes with
    | none => none
    | some (results, none, outcomes) =>
      (executeFrom steps undo (i + 1) rest outcomes).map fun run =>
        { run with executed := results :: run.executed }
    | some (results, some err, _) =>
      some
        { executed := [results]
          compensated := (compensate steps undo i).1
          state := .failed
          error := some { index := i, name := step.name, err := err } }

/-- `Execute`, if the outcomes are enough for it to return. -/
def execute (steps : List SagaStep) (undo : ℕ → Option String) (outcomes : List Outcome) :
    Option SagaRun :=
  executeFrom steps undo 0 steps outcomes

/-! ## Completed sagas -/

variable {steps : List SagaStep} {undo : ℕ → Option String} {outcomes : List Outcome}
  {run : SagaRun}

variable {rest : List Outcome} {results : List (Option String)}

theorem attempts_spec {retryCount attempt : Int64} {lastErr : Option String}
    (eq : attempts retryCount attempt lastErr outcomes = some (results, none, rest)) :
    results.getLast? = some none ∨ results = [] ∧ lastErr = none ∧ ¬ attempt ≤ retryCount := by
  fun_induction attempts generalizing results with
  | case1 => nomatch eq
  | case2 => nomatch eq
  | case3 => nomatch eq
  | case4 =>
    cases eq
    exact .inl rfl
  | case5 attempt lastErr _ err outcomes ih =>
    obtain ⟨⟨results, ended⟩, more, same⟩ := map_eq_some_iff.mp eq
    cases same
    rcases ih more with last | ⟨-, nil, -⟩
    · left
      cases results with
      | nil => nomatch last
      | cons result results => rwa [getLast?_cons_cons]
    · nomatch nil
  | case6 attempt lastErr outcomes past =>
    cases eq
    exact .inr ⟨rfl, rfl, past⟩

/-- A step that ends without an error has been executed unless its retry count is negative. -/
theorem executeStepWithRetry_last_iff {step : SagaStep}
    (eq : executeStepWithRetry step outcomes = some (results, none, rest)) :
    results.getLast? = some none ↔ 0 ≤ step.retryCount := by
  rw [executeStepWithRetry] at eq
  by_cases attempted : 0 ≤ step.retryCount
  · have first : 0 ≤ if step.retryCount = 0 then defaultRetryCount else step.retryCount := by
      split
      · decide
      · exact attempted
    rcases attempts_spec eq with last | ⟨-, -, past⟩
    · exact iff_of_true last attempted
    · exact absurd first past
  · have negative : step.retryCount ≠ 0 := by
      intro zero
      rw [zero] at attempted
      exact attempted (Int64.le_refl 0)
    rw [if_neg negative, attempts.eq_def, if_neg attempted] at eq
    cases eq
    exact iff_of_false nofun attempted

/-- Every step has been executed, its last attempt without an error. -/
def SagaRun.RanAll (run : SagaRun) (steps : List SagaStep) : Prop :=
  run.executed.length = steps.length ∧ ∀ results ∈ run.executed, results.getLast? = some none

variable {rest : List SagaStep} {i : ℕ}

theorem executeFrom_completed (eq : executeFrom steps undo i rest outcomes = some run)
    (ok : run.error = none) :
    run.state = .completed ∧ (run.RanAll rest ↔ ∀ step ∈ rest, 0 ≤ step.retryCount) := by
  induction rest generalizing i outcomes run with
  | nil =>
    cases eq
    exact ⟨rfl, iff_of_true ⟨rfl, nofun⟩ nofun⟩
  | cons step rest ih =>
    rw [executeFrom] at eq
    split at eq
    · nomatch eq
    · rename_i results outcomes attempted
      obtain ⟨run, later, rfl⟩ := map_eq_some_iff.mp eq
      obtain ⟨state, all⟩ := ih later ok
      refine ⟨state, ?_⟩
      rw [forall_mem_cons, ← all, ← executeStepWithRetry_last_iff attempted, SagaRun.RanAll,
        forall_mem_cons, length_cons, length_cons, Nat.add_right_cancel_iff]
      exact and_left_comm
    · cases eq
      nomatch ok

/-- A completed saga has executed every step exactly if no retry count is negative. -/
theorem ranAll_iff (returns : execute steps undo outcomes = some run) (ok : run.error = none) :
    run.state = .completed ∧ (run.RanAll steps ↔ ∀ step ∈ steps, 0 ≤ step.retryCount) :=
  executeFrom_completed returns ok

theorem ranAll_iff_retried : ∃ run,
    execute [{ name := "a", retryCount := 1 }, { name := "b" }] (fun _ => none)
      [.returned (some "busy"), .returned none, .returned none] = some run ∧
    run.executed = [[some "busy", none], [none]] ∧
    run.RanAll [{ name := "a", retryCount := 1 }, { name := "b" }] :=
  have returns : execute _ (fun _ => none)
    [.returned (some "busy"), .returned none, .returned none] = some _ := rfl
  ⟨_, returns, rfl, (ranAll_iff returns rfl).2.mpr (by decide)⟩

/-- A step with a negative retry count is not executed, and the saga completes. -/
theorem not_ranAll : ∃ run,
    execute [{ name := "a", retryCount := -1 }] (fun _ => none) [] = some run ∧ run.error = none ∧
      run.state = .completed ∧ run.executed = [[]] ∧
    ¬ run.RanAll [{ name := "a", retryCount := -1 }] := by
  refine ⟨_, rfl, rfl, rfl, rfl, fun ran => ?_⟩
  nomatch ran.2 [] mem_cons_self

/-! ## Failed sagas -/

theorem compensate_spec (steps : List SagaStep) (undo : ℕ → Option String) (i : ℕ) :
    (compensate steps undo i).1.map Prod.fst =
        (List.range i).reverse.filter (Compensable steps ·) ↔
      ∀ j < i, Compensable steps j → undo j ≠ none → ∀ k < j, ¬ Compensable steps k := by
  induction i with
  | zero => simp [compensate]
  | succ i ih =>
    rw [range_succ, reverse_append, reverse_singleton, singleton_append, compensate, filter_cons,
      Nat.forall_lt_succ_right]
    by_cases defined : Compensable steps i
    · rw [if_pos defined, if_pos (decide_eq_true defined)]
      cases undo i with
      | none =>
        rw [map_cons, cons_inj_right, ih]
        exact (and_iff_left fun _ some => absurd rfl some).symm
      | some err =>
        rw [map_singleton, cons_inj_right, eq_comm, filter_eq_nil_iff]
        simp only [mem_reverse, mem_range, decide_eq_true_eq]
        constructor
        · intro alone
          exact ⟨fun j lt known => absurd known (alone j lt), fun _ _ => alone⟩
        · exact fun all => all.2 defined nofun
    · rw [if_neg defined, if_neg (by simpa using defined), ih]
      exact (and_iff_left fun known => absurd known defined).symm

/-- The compensations of a failed saga are those of all steps below the one that failed, once each
and in decreasing order. -/
def SagaRun.CompensatesAll (run : SagaRun) (steps : List SagaStep) (i : ℕ) : Prop :=
  run.compensated.map Prod.fst = (List.range i).reverse.filter (Compensable steps ·)

theorem executeFrom_failed {fault : SagaError}
    (eq : executeFrom steps undo i rest outcomes = some run) (failed : run.error = some fault) :
    i + run.executed.length = fault.index + 1 ∧
      run.compensated = (compensate steps undo fault.index).1 := by
  induction rest generalizing i outcomes run with
  | nil =>
    cases eq
    nomatch failed
  | cons step rest ih =>
    rw [executeFrom] at eq
    split at eq
    · nomatch eq
    · obtain ⟨run, later, rfl⟩ := map_eq_some_iff.mp eq
      obtain ⟨reached, undone⟩ := ih later failed
      refine ⟨?_, undone⟩
      rw [← reached, length_cons, Nat.add_right_comm, Nat.add_assoc]
    · cases eq
      cases failed
      exact ⟨rfl, rfl⟩

/-- A failed saga has come to no step above the one that failed, and compensates all steps below
it exactly if no compensation fails that has others to come after it. -/
theorem compensatesAll_iff {fault : SagaError} (returns : execute steps undo outcomes = some run)
    (failed : run.error = some fault) :
    run.executed.length = fault.index + 1 ∧ (run.CompensatesAll steps fault.index ↔
      ∀ j < fault.index, Compensable steps j → undo j ≠ none →
        ∀ k < j, ¬ Compensable steps k) := by
  obtain ⟨reached, undone⟩ := executeFrom_failed returns failed
  rw [Nat.zero_add] at reached
  rw [SagaRun.CompensatesAll, undone]
  exact ⟨reached, compensate_spec steps undo fault.index⟩

/-- The third step fails, and its retry is cancelled. -/
def outage : List Outcome :=
  [.returned none, .returned none, .returned (some "down"), .cancelled "late"]

theorem compensatesAll_iff_last : ∃ run fault,
    execute [{ name := "a" }, { name := "b", compensates := false }, { name := "c" }]
      (fun _ => some "lost") outage = some run ∧ run.error = some fault ∧
    run.compensated = [(0, some "lost")] ∧
    run.CompensatesAll [{ name := "a" }, { name := "b", compensates := false }, { name := "c" }]
      fault.index := by
  have returns : execute [{ name := "a" }, { name := "b", compensates := false }, { name := "c" }]
    (fun _ => some "lost") outage = some _ := rfl
  exact ⟨_, _, returns, rfl, rfl, (compensatesAll_iff returns rfl).2.mpr (by decide)⟩

/-- The compensation of the second step fails, and that of the first one is not called. -/
theorem not_compensatesAll : ∃ run fault,
    execute [{ name := "a" }, { name := "b" }, { name := "c" }] (fun _ => some "lost") outage =
        some run ∧ run.error = some fault ∧ fault.index = 2 ∧ run.compensated = [(1, some "lost")] ∧
      ¬ run.CompensatesAll [{ name := "a" }, { name := "b" }, { name := "c" }] fault.index := by
  refine ⟨_, _, rfl, rfl, rfl, rfl, ?_⟩
  unfold SagaRun.CompensatesAll
  decide

end Hermes.Txn.Saga
