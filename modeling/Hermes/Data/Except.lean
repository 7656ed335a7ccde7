import Mathlib

/-!
# Successful results of fallible computations

A computation in `Except` that succeeds has succeeded in each of its parts.
-/

namespace Hermes

open Except List

universe u v w

variable {ε : Type u} {α β : Type v}

variable {f : α → Except ε β} {x : Except ε α}

/-- A sequence of two computations succeeds if both do. -/
theorem bind_eq_ok {b : β} : (x >>= f) = .ok b ↔ ∃ a, x = .ok a ∧ f a = .ok b := by
  cases x with
  | error e =>
    constructor
    · intro eq
      nomatch eq
    · rintro ⟨_, failed, _⟩
      nomatch failed
  | ok a =>
    constructor
    · exact fun eq => ⟨a, rfl, eq⟩
    · rintro ⟨_, same, eq⟩
      cases same
      exact eq

theorem toOption_eq_some {a : α} : x.toOption = some a ↔ x = .ok a := by
  cases x <;> simp [Except.toOption]

/-- Whether a computation succeeds with some property can be evaluated. -/
instance decidableOk (x : Except ε α) (P : α → Prop) [DecidablePred P] :
    Decidable (∃ a, x = .ok a ∧ P a) :=
  match x with
  | .ok a => decidable_of_iff (P a) (by simp)
  | .error _ => .isFalse (by simp)

instance decidableOkPair (x : Except ε (α × β)) (P : α → β → Prop) [∀ a b, Decidable (P a b)] :
    Decidable (∃ a b, x = .ok (a, b) ∧ P a b) :=
  decidable_of_iff (∃ p, x = .ok p ∧ P p.1 p.2) Prod.exists

/-- A computation that does not fail. -/
def Succeeds (x : Except ε α) : Prop :=
  ∃ a, x = .ok a

theorem Succeeds.ok (a : α) : Succeeds (.ok a : Except ε α) :=
  ⟨a, rfl⟩

theorem Succeeds.bind (first : Succeeds x)
    (rest : ∀ a, x = .ok a → Succeeds (f a)) : Succeeds (x >>= f) := by
  obtain ⟨a, eq⟩ := first
  obtain ⟨b, eq'⟩ := rest a eq
  exact ⟨b, bind_eq_ok.mpr ⟨a, eq, eq'⟩⟩

variable {γ : Type w} {P : β → Prop} {f : β → γ → Except ε β}

/-- A property that every round of a loop preserves holds after the loop. -/
theorem foldlM_induction {l : List γ} {b b' : β} (start : P b)
    (round : ∀ b c b', P b → c ∈ l → f b c = .ok b' → P b')
    (run : l.foldlM f b = .ok b') : P b' := by
  induction l generalizing b with
  | nil =>
    cases run
    exact start
  | cons c rest ih =>
    rw [foldlM_cons, bind_eq_ok] at run
    obtain ⟨b₁, first, run⟩ := run
    refine ih (round b c b₁ start (by simp) first) (fun b c b' holds mem => ?_) run
    exact round b c b' holds (mem_cons_of_mem _ mem)

/-- What the round of one element brings about and every round preserves holds after the loop. -/
theorem foldlM_reaches {l : List γ} {c : γ} {b b' : β} (mem : c ∈ l)
    (here : ∀ b b', f b c = .ok b' → P b') (round : ∀ b c b', P b → f b c = .ok b' → P b')
    (run : l.foldlM f b = .ok b') : P b' := by
  obtain ⟨before, after, rfl⟩ := append_of_mem mem
  rw [foldlM_append, bind_eq_ok] at run
  obtain ⟨b₁, -, run⟩ := run
  rw [foldlM_cons, bind_eq_ok] at run
  obtain ⟨b₂, first, run⟩ := run
  exact foldlM_induction (here b₁ b₂ first) (fun b c b' holds _ => round b c b' holds) run

/-- A loop succeeds if every round does, from the states the loop keeps to. -/
theorem foldlM_succeeds {l : List γ}
    {b : β} (start : P b) (round : ∀ b c, P b → c ∈ l → ∃ b', f b c = .ok b' ∧ P b') :
    ∃ b', l.foldlM f b = .ok b' ∧ P b' := by
  induction l generalizing b with
  | nil => exact ⟨b, rfl, start⟩
  | cons c rest ih =>
    obtain ⟨b₁, first, holds⟩ := round b c start (by simp)
    obtain ⟨b', run, holds'⟩ := ih holds fun b c holds mem =>
      round b c holds (mem_cons_of_mem _ mem)
    refine ⟨b', ?_, holds'⟩
    rw [foldlM_cons, bind_eq_ok]
    exact ⟨b₁, first, run⟩

/-- A loop whose rounds each add something and lose nothing has added all of it. -/
theorem foldlM_accumulates {δ : Type*} {Q : β → δ → Prop}
    {A : γ → δ → Prop} {l : List γ} {b : β} (start : P b)
    (round : ∀ b c, P b → c ∈ l → ∃ b', f b c = .ok b' ∧ P b' ∧ (∀ d, A c d → Q b' d) ∧
      ∀ d, Q b d → Q b' d) : ∃ b', l.foldlM f b = .ok b' ∧ P b' ∧ (∀ c ∈ l, ∀ d, A c d → Q b' d) ∧
      ∀ d, Q b d → Q b' d := by
  induction l generalizing b with
  | nil =>
    refine ⟨b, rfl, start, ?_, fun _ had => had⟩
    intro c mem
    nomatch mem
  | cons c rest ih =>
    obtain ⟨b₁, first, holds, adds, keeps⟩ := round b c start mem_cons_self
    obtain ⟨b', run, holds', addsRest, keepsRest⟩ := ih holds fun b c holds mem =>
      round b c holds (mem_cons_of_mem _ mem)
    refine ⟨b', ?_, holds', ?_, fun d had => keepsRest d (keeps d had)⟩
    · rw [foldlM_cons, bind_eq_ok]
      exact ⟨b₁, first, run⟩
    · intro c' mem d brings
      rcases mem_cons.mp mem with rfl | later
      · exact keepsRest d (adds d brings)
      · exact addsRest c' later d brings

/-- A computation for every element of a list succeeds if each of them does. -/
theorem mapM_eq_ok {γ : Type v} {f : γ → Except ε β} {l : List γ} {bs : List β} :
    l.mapM f = .ok bs ↔ List.Forall₂ (fun c b => f c = .ok b) l bs := by
  induction l generalizing bs with
  | nil =>
    rw [forall₂_nil_left_iff]
    exact ⟨fun same => (ok.inj same).symm, fun same => congrArg ok same.symm⟩
  | cons c rest ih =>
    rw [mapM_cons, bind_eq_ok]
    constructor
    · rintro ⟨b, first, rest⟩
      obtain ⟨others, run, same⟩ := bind_eq_ok.mp rest
      cases same
      exact .cons first (ih.mp run)
    · rintro (_ | ⟨first, others⟩)
      exact ⟨_, first, bind_eq_ok.mpr ⟨_, ih.mpr others, rfl⟩⟩

/-- A search goes on in the second list if the first has nothing. -/
theorem findSomeM?_append {γ : Type w} (f : γ → Except ε (Option α)) (l l' : List γ) :
    (l ++ l').findSomeM? f = (do
      match ← l.findSomeM? f with
      | some a => return some a
      | none => l'.findSomeM? f) := by
  induction l with
  | nil => rfl
  | cons c rest ih =>
    rw [cons_append, findSomeM?_cons, findSomeM?_cons, ih]
    cases f c with
    | error e => rfl
    | ok a => cases a <;> rfl

theorem findSomeM?_eq_ok {f : γ → Except ε (Option α)} {g : γ → Option α} {l : List γ}
    (same : ∀ c ∈ l, f c = .ok (g c)) : l.findSomeM? f = .ok (l.findSome? g) := by
  induction l with
  | nil => rfl
  | cons c rest ih =>
    rw [findSomeM?_cons, findSome?_cons, same c mem_cons_self]
    cases g c with
    | some a => rfl
    | none => exact ih fun c mem => same c (mem_cons_of_mem _ mem)

theorem findSomeM?_of_mapM {γ : Type v} {f : γ → Except ε β} {l : List γ} {bs : List β}
    (results : l.mapM f = .ok bs) (g : β → Option α) :
    l.findSomeM? (fun c => do return g (← f c)) = .ok (bs.findSome? g) := by
  have all := mapM_eq_ok.mp results
  clear results
  induction all with
  | nil => rfl
  | @cons c b rest others first _ ih =>
    rw [findSomeM?_cons, findSome?_cons, first]
    cases found : g b with
    | none =>
      simp only [bind, Except.bind, found]
      exact ih
    | some a =>
      simp only [bind, Except.bind, pure, Except.pure, found]

end Hermes
