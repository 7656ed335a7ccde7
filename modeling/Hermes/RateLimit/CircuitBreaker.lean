import Hermes.Data.Runs

/-!
# The circuit breaker

The breaker compares the failures since it has become closed with the requests that it has
admitted since.  A failure is charged to the present phase whenever its request was admitted.
The error rate is taken as exact, and times are in nanoseconds.
-/

namespace Hermes.RateLimit

inductive CircuitState where
  | closed
  | opened
  | halfOpen
  deriving DecidableEq, Repr

structure CircuitBreaker where
  failureThreshold : ℚ := 1 / 2
  successThreshold : ℕ := 5
  cooldown : ℤ := 10000000000
  state : CircuitState := .closed
  failures : ℕ := 0
  successes : ℕ := 0
  totalRequests : ℕ := 0
  openedAt : ℤ := 0
  deriving DecidableEq, Repr

namespace CircuitBreaker

def allow (cb : CircuitBreaker) (now : ℤ) : Bool × CircuitBreaker :=
  let counted := { cb with totalRequests := cb.totalRequests + 1 }
  match cb.state with
  | .closed => (true, counted)
  | .opened =>
    if now - cb.openedAt ≥ cb.cooldown then
      (true, { counted with state := .halfOpen, successes := 0, failures := 0 })
    else (false, cb)
  | .halfOpen => (decide (counted.totalRequests % 2 = 0), counted)

def success (cb : CircuitBreaker) : CircuitBreaker :=
  let cb := { cb with successes := cb.successes + 1 }
  if cb.state = .halfOpen ∧ cb.successes ≥ cb.successThreshold then
    { cb with state := .closed, failures := 0, totalRequests := 0 }
  else cb

def failure (cb : CircuitBreaker) (now : ℤ) : CircuitBreaker :=
  let cb := { cb with failures := cb.failures + 1 }
  match cb.state with
  | .closed =>
    if cb.totalRequests > 10 ∧ (cb.failures / cb.totalRequests : ℚ) ≥ cb.failureThreshold then
      { cb with state := .opened, openedAt := now }
    else cb
  | .opened => cb
  | .halfOpen => { cb with state := .opened, openedAt := now }

end CircuitBreaker

/-- A breaker with its requests. -/
structure Guarded where
  breaker : CircuitBreaker := {}
  /-- How often the breaker has become closed. -/
  phase : ℕ := 0
  /-- The requests that have not reported yet, by the phase in which they were admitted. -/
  pending : List ℕ := []
  /-- The number of requests admitted in the present phase. -/
  admitted : ℕ := 0
  /-- The number of those that have failed. -/
  failed : ℕ := 0
  deriving DecidableEq, Repr

inductive BreakerCall where
  | allow (now : ℤ)
  | success (phase : ℕ)
  | failure (phase : ℕ) (now : ℤ)

namespace Guarded

/-- A call of `Allow`, or the report of a request that was admitted in some phase. -/
def step (s : Guarded) : BreakerCall → Option Guarded
  | .allow now =>
    let (admits, cb) := s.breaker.allow now
    let s := { s with breaker := cb }
    some (if admits then
      { s with pending := s.phase :: s.pending, admitted := s.admitted + 1 }
    else s)
  | .success phase =>
    if phase ∈ s.pending then
      let s' := { s with breaker := s.breaker.success, pending := s.pending.erase phase }
      if s.breaker.state ≠ .closed ∧ s'.breaker.state = .closed then
        some { s' with phase := s.phase + 1, admitted := 0, failed := 0 }
      else some s'
    else none
  | .failure phase now =>
    if phase ∈ s.pending then
      some { s with
        breaker := s.breaker.failure now
        pending := s.pending.erase phase
        failed := if phase = s.phase then s.failed + 1 else s.failed }
    else none

/-- A failure that reaches a closed breaker is of a request of the present phase. -/
def Timely (s : Guarded) : BreakerCall → Prop
  | .failure phase _ => s.breaker.state = .closed → phase = s.phase
  | _ => True

instance (s : Guarded) : DecidablePred s.Timely := by
  rintro ⟨⟩ <;> delta Timely <;> infer_instance

/-- A closed breaker has counted the requests of the present phase. -/
structure Accurate (s : Guarded) : Prop where
  threshold : s.breaker.failureThreshold = 1 / 2
  counted : s.breaker.state = .closed →
    s.breaker.totalRequests = s.admitted ∧ s.breaker.failures = s.failed

/-- What is required of a step. -/
def OpensRightly (s s' : Guarded) : Prop :=
  s.breaker.state = .closed → s'.breaker.state = .opened → s'.admitted ≤ 2 * s'.failed

theorem le_two_mul_of_rate {total failures : ℕ} (sample : total > 10)
    (rate : (failures / total : ℚ) ≥ 1 / 2) : total ≤ 2 * failures := by
  have positive : (0 : ℚ) < total := Nat.cast_pos.mpr (by omega)
  rw [ge_iff_le, le_div_iff₀ positive] at rate
  have doubled : (total : ℚ) ≤ 2 * failures := by linarith
  exact_mod_cast doubled

variable {s s' : Guarded}

theorem Accurate.step {call : BreakerCall} (accurate : s.Accurate) (timely : s.Timely call)
    (next : s.step call = some s') : s'.Accurate ∧ s.OpensRightly s' := by
  obtain ⟨⟨threshold, _, _, state, _, _, _, _⟩, _, _, _, _⟩ := s
  obtain ⟨rfl, counted⟩ := accurate
  cases call with
  | allow now =>
    cases state with
    | closed =>
      obtain ⟨total, failures⟩ := counted rfl
      cases next
      exact ⟨⟨rfl, fun _ => ⟨congrArg (· + 1) total, failures⟩⟩, nofun⟩
    | opened | halfOpen =>
      simp only [Guarded.step, CircuitBreaker.allow, decide_eq_true_eq] at next
      split at next <;>
      · cases next
        exact ⟨⟨rfl, nofun⟩, nofun⟩
  | success phase =>
    obtain ⟨-, next⟩ := Option.ite_none_right_eq_some.mp next
    cases state with
    | closed =>
      cases next
      exact ⟨⟨rfl, counted⟩, nofun⟩
    | opened =>
      cases next
      exact ⟨⟨rfl, nofun⟩, nofun⟩
    | halfOpen =>
      simp only [CircuitBreaker.success] at next
      split at next
      · cases next
        exact ⟨⟨rfl, fun _ => ⟨rfl, rfl⟩⟩, nofun⟩
      · cases next
        exact ⟨⟨rfl, nofun⟩, nofun⟩
  | failure phase now =>
    obtain ⟨-, next⟩ := Option.ite_none_right_eq_some.mp next
    cases state with
    | closed =>
      obtain ⟨total, failures⟩ := counted rfl
      obtain rfl := timely rfl
      simp only [CircuitBreaker.failure, if_true] at next
      split at next
      · rename_i exceeded
        have half := le_two_mul_of_rate exceeded.1 exceeded.2
        cases next
        refine ⟨⟨rfl, nofun⟩, fun _ _ => ?_⟩
        dsimp only at total failures ⊢
        omega
      · cases next
        exact ⟨⟨rfl, fun _ => ⟨total, congrArg (· + 1) failures⟩⟩, nofun⟩
    | opened | halfOpen =>
      cases next
      exact ⟨⟨rfl, nofun⟩, nofun⟩

/-- In every run in which the failures that reach the closed breaker are of requests that it has
admitted since it became closed, it opens only when half of those have failed. -/
theorem opensRightly_of_timely
    (reachable : Runs.Reachable step Timely {} s) {call : BreakerCall} (timely : s.Timely call)
    (next : s.step call = some s') : s.OpensRightly s' := by
  have accurate : s.Accurate := reachable.invariant (I := Accurate) ⟨rfl, fun _ => ⟨rfl, rfl⟩⟩
    fun _ _ _ accurate timely next => (accurate.step timely next).1
  exact (accurate.step timely next).2

/-- Six of eleven requests fail. -/
theorem opensRightly_eleven : ∃ s s', Runs.Reachable step Timely {} s ∧
    s.step (.failure 0 0) = some s' ∧ s'.breaker.state = .opened ∧ s.OpensRightly s' := by
  obtain ⟨s, reachable, first, s', next, opened⟩ := Runs.exists_of_exec step Timely {}
    (.replicate 11 (.allow 0) ++ .replicate 5 (.failure 0 0))
    (P := fun s => s.phase = 0 ∧ ∃ s', s.step (.failure 0 0) = some s' ∧ s'.breaker.state = .opened)
    (by decide +kernel)
  exact ⟨s, s', reachable, next, opened,
    opensRightly_of_timely reachable (show s.Timely (.failure 0 0) from fun _ => first.symm) next⟩

/-- Eleven requests are admitted after the breaker has become closed again, and none of them
fails.  It opens because six requests fail that were admitted before. -/
theorem opens_late : ∃ s s', Runs.Reachable step (fun _ _ => True) {} s ∧
    s.step (.failure 0 10000000000) = some s' ∧ s.breaker.state = .closed ∧
    s'.breaker.state = .opened ∧ s'.admitted = 11 ∧ s'.failed = 0 := by
  obtain ⟨s, reachable, s', opens⟩ := Runs.exists_of_exec step (fun _ _ => True) {}
    (.replicate 22 (.allow 0) ++ .replicate 11 (.failure 0 0) ++ [.allow 10000000000] ++
      .replicate 5 (.success 0) ++ .replicate 11 (.allow 10000000000) ++
      .replicate 5 (.failure 0 10000000000))
    (P := fun s => ∃ s', s.step (.failure 0 10000000000) = some s' ∧ s.breaker.state = .closed ∧
      s'.breaker.state = .opened ∧ s'.admitted = 11 ∧ s'.failed = 0) (by decide +kernel)
  exact ⟨s, s', reachable, opens⟩

end Guarded

end Hermes.RateLimit
