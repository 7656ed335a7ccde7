import Hermes.Consistency.Linearizability

/-!
# Linearizations

A history is linearizable if there is an order of its operations that respects real time
and in which every GET returns what the register of its key holds.  The checker does not
look at all that matters for this; what it misses shows in histories that differ only in
what some of their GETs return.
-/

namespace Hermes.Consistency

open Arrangement List
open Register (content)

variable {V : Type*} {history ops order : List (Operation V)}

/-! ## Linearizations -/

/-- What an operation writes to a key. -/
def writes (key : String) (op : Operation V) : Option (Option V) :=
  if op.key = key then
    match op.type with
    | .put => some op.value
    | .delete => some none
    | .get => none
    | .cas => none
  else none

/-- The operation has returned before the other one begins.  A failed operation may take
effect at any time after its start. -/
def Precedes (a b : Operation V) : Prop :=
  a.completed = true ∧ a.endTime < b.startTime
  deriving Decidable

/-- Every GET returns the value of the last PUT of its key before it, or nil if there is none
or a DELETE came after it. -/
def Legal (order : List (Operation V)) : Prop :=
  ∀ before g after, order = before ++ g :: after → g.type = .get →
    g.value = content (writes g.key) none before

structure IsLinearization (ops order : List (Operation V)) : Prop where
  perm : order.Perm ops
  respects : Respects Precedes order
  legal : Legal order

variable {op : Operation V}

theorem writes_put (isPut : op.type = .put) : writes op.key op = some op.value := by
  rw [writes, if_pos rfl, isPut]

theorem writes_delete (isDelete : op.type = .delete) : writes op.key op = some none := by
  rw [writes, if_pos rfl, isDelete]

theorem writes_eq_some {key : String} {v : Option V} (written : writes key op = some v) :
    op.key = key ∧ (op.type = .put ∧ v = op.value ∨ op.type = .delete ∧ v = none) := by
  rw [writes] at written
  split at written
  · rename_i sameKey
    refine ⟨sameKey, ?_⟩
    split at written
    · rename_i isPut
      exact .inl ⟨isPut, (Option.some.inj written).symm⟩
    · rename_i isDelete
      exact .inr ⟨isDelete, (Option.some.inj written).symm⟩
    · nomatch written
    · nomatch written
  · nomatch written

section

variable {g : Operation V} (linearization : IsLinearization ops order) (mem : g ∈ ops)
  (isGet : g.type = .get)

include linearization mem isGet

/-- A GET returns nil, and no write precedes it, or it returns what a write has written that
nothing comes between. -/
theorem IsLinearization.last_write :
    g.value = none ∧ (∀ x ∈ ops, Precedes x g → writes g.key x = none) ∨
      ∃ o ∈ ops, writes g.key o = some g.value ∧ ¬ Precedes g o ∧
        ∀ x ∈ ops, Precedes o x → Precedes x g → x = o ∨ writes g.key x = none := by
  obtain ⟨before, after, rfl⟩ := append_of_mem (linearization.perm.mem_iff.mpr mem)
  have respects := linearization.respects
  have earlier : ∀ x ∈ ops, Precedes x g → x ∈ before ∨ writes g.key x = none := by
    intro x x_mem precedes
    by_cases same : x = g
    · rw [same]
      exact .inr (by simp [writes, isGet])
    · exact .inl (respects.mem_before (linearization.perm.mem_iff.mpr x_mem) same precedes)
  rw [linearization.legal before g after rfl isGet]
  rcases Register.content_cases (writes g.key) none before with
    ⟨unwritten, initial⟩ | ⟨first, o, between, rfl, unwritten, written⟩
  · exact .inl ⟨initial, fun x x_mem precedes => (earlier x x_mem precedes).elim (unwritten x) id⟩
  · refine .inr ⟨o, linearization.perm.mem_iff.mp (mem_append_left _ mem_append_cons_self), written,
      respects.not_related mem_append_cons_self, fun x x_mem later precedes => ?_⟩
    rcases earlier x x_mem precedes with x_before | silent
    · rw [append_assoc] at respects
      rcases mem_append.mp x_before with x_first | x_last
      · exact absurd later (respects.not_related x_first)
      · exact (mem_cons.mp x_last).imp_right (unwritten x)
    · exact .inr silent

/-- A GET returns nil or what some PUT has written. -/
theorem IsLinearization.value_of_get :
    g.value = none ∨ ∃ w ∈ ops, w.type = .put ∧ w.value = g.value := by
  rcases linearization.last_write mem isGet with ⟨initial, -⟩ | ⟨w, w_mem, written, -⟩
  · exact .inl initial
  · obtain ⟨-, ⟨isPut, value⟩ | ⟨-, value⟩⟩ := writes_eq_some written
    · exact .inr ⟨w, w_mem, isPut, value.symm⟩
    · exact .inl value

end

/-! ## Histories with other results -/

/-- The same operation, but a GET returns something else. -/
def returning (results : Operation V → Option V) (op : Operation V) : Operation V :=
  { op with value := if op.type = .get then results op else op.value }

section Returning

variable {results : Operation V → Option V} {type : OpType} {g x : Operation V}

theorem value_returning_of_get (isGet : g.type = .get) : (returning results g).value = results g :=
  if_pos isGet

theorem value_returning_of_put (isPut : x.type = .put) : (returning results x).value = x.value :=
  if_neg (isPut ▸ by decide)

theorem writes_returning (key : String) (op : Operation V) :
    writes key (returning results op) = writes key op := by
  rw [writes, writes]
  cases kind : op.type <;> simp [returning, kind]

theorem isCompleted_returning_iff : IsCompleted (history.map (returning results)) type x ↔
    ∃ op, IsCompleted history type op ∧ returning results op = x := by
  constructor
  · rintro ⟨mem, completed, type_eq⟩
    obtain ⟨op, found, rfl⟩ := mem_map.mp mem
    exact ⟨op, ⟨found, completed, type_eq⟩, rfl⟩
  · rintro ⟨op, isOp, rfl⟩
    exact ⟨mem_map_of_mem isOp.mem, isOp.completed, isOp.type_eq⟩

theorem IsCompleted.map_returning (isOp : IsCompleted history type x) :
    IsCompleted (history.map (returning results)) type (returning results x) :=
  isCompleted_returning_iff.mpr ⟨x, isOp, rfl⟩

theorem overlapped_returning_iff : Overlapped (history.map (returning results))
    (returning results g) ↔ Overlapped history g := by
  constructor
  · rintro ⟨w, isPut, sameKey, concurrent⟩
    obtain ⟨op, isOp, rfl⟩ := isCompleted_returning_iff.mp isPut
    exact ⟨op, isOp, sameKey, concurrent⟩
  · rintro ⟨w, isPut, sameKey, concurrent⟩
    exact ⟨_, isPut.map_returning, sameKey, concurrent⟩

theorem map_returning_value (history : List (Operation V)) :
    history.map (returning Operation.value) = history := by
  have same : returning (Operation.value : Operation V → Option V) = id := by
    funext op
    rw [returning, ite_self]
    rfl
  rw [same, map_id]

theorem filter_returning (history : List (Operation V)) :
    (history.map (returning results)).filter Operation.completed =
      (history.filter Operation.completed).map (returning results) :=
  filter_map

theorem Recorded.map_returning (recorded : Recorded history) :
    Recorded (history.map (returning results)) where
  types op mem := by
    obtain ⟨op, found, rfl⟩ := mem_map.mp mem
    exact recorded.types op found
  starts := by
    rw [map_map]
    exact recorded.starts
  ends := by
    rw [filter_returning, map_map]
    exact recorded.ends
  apart a a_mem b b_mem := by
    obtain ⟨a, a_found, rfl⟩ := mem_map.mp a_mem
    obtain ⟨b, b_found, rfl⟩ := mem_map.mp b_mem
    exact recorded.apart a a_found b b_found
  forward op mem := by
    obtain ⟨op, found, rfl⟩ := mem_map.mp mem
    exact recorded.forward op found

theorem argmax_map {α β : Type*} (f : β → ℕ) (h : α → β) (l : List α) :
    (l.map h).argmax f = (l.argmax (f ∘ h)).map h := by
  induction l using reverseRecOn with
  | nil => rfl
  | append_singleton l a ih =>
    rw [map_append, map_singleton, argmax_concat, argmax_concat, ih]
    cases l.argmax (f ∘ h) with
    | none => rfl
    | some m =>
      dsimp only [Option.map_some, Function.comp_apply]
      split <;> rfl

theorem expected_returning (g : Operation V) :
    expected (history.map (returning results)) (returning results g) = expected history g := by
  have last : lastPut (history.map (returning results)) (returning results g) =
      (lastPut history g).map (returning results) := by
    rw [lastPut, filter_map, argmax_map]
    rfl
  rw [expected, expected, last]
  cases found : lastPut history g with
  | none => rfl
  | some w => exact value_returning_of_put (lastPut_eq_some found).1.1.type_eq

/-- The verdict on a history with other results. -/
theorem Recorded.check_returning_iff [DecidableEq V] [ToString V] (recorded : Recorded history) :
    (check (history.map (returning results))).linearizable = true ↔
      ∀ g, IsCompleted history .get g →
        results g = expected history g ∨ Overlapped history g := by
  rw [recorded.map_returning.check_iff]
  constructor
  · intro all g isGet
    have verdict := all _ isGet.map_returning
    rw [value_returning_of_get isGet.type_eq, expected_returning, overlapped_returning_iff]
      at verdict
    exact verdict
  · intro all x isResult
    obtain ⟨g, isGet, rfl⟩ := isCompleted_returning_iff.mp isResult
    rw [value_returning_of_get isGet.type_eq, expected_returning, overlapped_returning_iff]
    exact all g isGet

end Returning

end Hermes.Consistency
