import Mathlib

/-!
# Runs of a system

A system is given by what each event does to a state; an event may be impossible.  Runs
are made of events that are allowed where they happen.
-/

namespace Hermes.Runs

open List Option

variable {σ ε : Type*}

/-- The states that allowed events lead to. -/
inductive Reachable (step : σ → ε → Option σ) (allowed : σ → ε → Prop) (s₀ : σ) : σ → Prop where
  | start : Reachable step allowed s₀ s₀
  | next {s s' : σ} {event : ε} (reachable : Reachable step allowed s₀ s)
    (ok : allowed s event) (happens : step s event = some s') : Reachable step allowed s₀ s'

/-- Run some events as long as they are allowed and possible. -/
def exec (step : σ → ε → Option σ) (allowed : σ → ε → Prop) [∀ s, DecidablePred (allowed s)]
    (s : σ) : List ε → Option σ
  | [] => some s
  | event :: rest =>
    if allowed s event then (step s event).bind fun s' => exec step allowed s' rest else none

variable {step : σ → ε → Option σ} {allowed : σ → ε → Prop} {s₀ s s' : σ}

/-- What holds at the start and is kept by every allowed event holds in every state. -/
theorem Reachable.invariant {I : σ → Prop} (start : I s₀)
    (keeps : ∀ s event s', I s → allowed s event → step s event = some s' → I s')
    (reachable : Reachable step allowed s₀ s) : I s := by
  induction reachable with
  | start => exact start
  | next _ ok happens ih => exact keeps _ _ _ ih ok happens

/-- Runs under a condition are runs under a weaker one. -/
theorem Reachable.mono {allowed' : σ → ε → Prop}
    (weaker : ∀ s event, allowed s event → allowed' s event)
    (reachable : Reachable step allowed s₀ s) : Reachable step allowed' s₀ s := by
  induction reachable with
  | start => exact .start
  | next _ ok happens ih => exact ih.next (weaker _ _ ok) happens

/-- What an executed list of events ends in is reachable. -/
theorem Reachable.exec [∀ s, DecidablePred (allowed s)] {events : List ε}
    (reachable : Reachable step allowed s₀ s)
    (executed : exec step allowed s events = some s') : Reachable step allowed s₀ s' := by
  induction events generalizing s with
  | nil =>
    cases executed
    exact reachable
  | cons event rest ih =>
    rw [Runs.exec] at executed
    split at executed
    · rename_i ok
      obtain ⟨s₁, happens, executed⟩ := bind_eq_some_iff.mp executed
      exact ih (reachable.next ok happens) executed
    · nomatch executed

/-- Whether a run comes to an end with some property can be evaluated. -/
instance decidableEnds (o : Option σ) (P : σ → Prop) [DecidablePred P] :
    Decidable (∃ s, o = some s ∧ P s) :=
  decidable_of_iff (o.any fun s => decide (P s)) (by simp [Option.any_eq_true])

/-- Executing a list of events shows that a state with some property is reachable. -/
theorem exists_of_exec (step : σ → ε → Option σ) (allowed : σ → ε → Prop)
    [∀ s, DecidablePred (allowed s)] (s₀ : σ) (events : List ε) {P : σ → Prop}
    (runs : ∃ s, exec step allowed s₀ events = some s ∧ P s) :
    ∃ s, Reachable step allowed s₀ s ∧ P s := by
  obtain ⟨s, executed, holds⟩ := runs
  exact ⟨s, Reachable.start.exec executed, holds⟩

/-- What holds in every reachable state can be added. -/
theorem exists_of_exec_and (step : σ → ε → Option σ) (allowed : σ → ε → Prop)
    [∀ s, DecidablePred (allowed s)] (s₀ : σ) (events : List ε) {P Q : σ → Prop}
    (runs : ∃ s, exec step allowed s₀ events = some s ∧ P s)
    (holds : ∀ s, Reachable step allowed s₀ s → P s → Q s) :
    ∃ s, Reachable step allowed s₀ s ∧ P s ∧ Q s := by
  obtain ⟨s, reachable, ends⟩ := exists_of_exec step allowed s₀ events runs
  exact ⟨s, reachable, ends, holds s reachable ends⟩

/-- Wherever a list without its last element is cut, and at the last element. -/
theorem forall_prefix_concat {α : Type*} {P : List α → α → Prop} {l : List α} {x : α} :
    (∀ before y, before ++ [y] <+: l ++ [x] → P before y) ↔
      (∀ before y, before ++ [y] <+: l → P before y) ∧ P l x := by
  simp only [prefix_concat_iff]
  constructor
  · intro all
    exact ⟨fun before y within => all before y (.inr within), all l x (.inl rfl)⟩
  · rintro ⟨earlier, last⟩ before y (whole | within)
    · obtain ⟨rfl, same⟩ := append_inj' whole rfl
      cases same
      exact last
    · exact earlier before y within

/-- What is at a place of a longer trace is old or new. -/
theorem getElem?_concat_eq_some {α : Type*} {l : List α} {x y : α} {f : Nat}
    (at_f : (l ++ [x])[f]? = some y) : f < l.length ∧ l[f]? = some y ∨ f = l.length ∧ y = x := by
  rcases Nat.lt_trichotomy f l.length with old | rfl | beyond
  · rw [getElem?_append_left old] at at_f
    exact .inl ⟨old, at_f⟩
  · rw [getElem?_concat_length] at at_f
    exact .inr ⟨rfl, (some.inj at_f).symm⟩
  · have := (List.getElem?_eq_some_iff.mp at_f).1
    rw [length_append, length_singleton] at this
    omega

end Hermes.Runs
