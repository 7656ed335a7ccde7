import Hermes.Consistency.Linearization

/-!
# False alarms of the checker

The checker expects a GET that overlaps no PUT to return the value of the PUT that ended
last.  In a linearization the GET may follow another write: a PUT that overlaps that one, a
DELETE, or a failed operation that has taken effect.
-/

namespace Hermes.Consistency

open Arrangement List
open Register (content)

variable {V : Type*} {history order : List (Operation V)} {g o x : Operation V}

/-- There is a linearization of the completed operations and some of the failed ones. -/
def Linearizable (history : List (Operation V)) : Prop :=
  ∃ taken, taken.Sublist (history.filter fun op => !op.completed) ∧
    ∃ order, IsLinearization (history.filter Operation.completed ++ taken) order

/-- The operation can be the last one on the key before a GET: it starts before the GET ends,
and no completed write lies between the two. -/
def MayBeLast (history : List (Operation V)) (g o : Operation V) : Prop :=
  o ∈ history ∧ o.startTime < g.endTime ∧ (o.completed = true → ∀ x ∈ history,
    x.completed = true → writes g.key x ≠ none →
      ¬ (o.endTime < x.startTime ∧ x.endTime < g.startTime))

/-- A GET that overlaps no PUT, and that returns what an operation has written that can be
the last one before it, returns the value of the PUT that ended last. -/
def NoOtherLast (history : List (Operation V)) : Prop :=
  ∀ g o, IsCompleted history .get g → ¬ Overlapped history g → MayBeLast history g o →
    writes g.key o = some g.value → g.value = expected history g

/-! ## Where there is no alarm -/

/-- Where no GET follows another write, a linearizable history passes. -/
theorem check_of_linearizable [DecidableEq V] [ToString V] (recorded : Recorded history)
    (noOther : NoOtherLast history) (linearizable : Linearizable history) :
    (check history).linearizable = true := by
  obtain ⟨taken, sublist, order, linearization⟩ := linearizable
  have within : ∀ op ∈ history.filter Operation.completed ++ taken, op ∈ history := by
    intro op mem
    rcases mem_append.mp mem with completed | failed
    · exact mem_of_mem_filter completed
    · exact mem_of_mem_filter (sublist.subset failed)
  have included : ∀ op ∈ history, op.completed = true →
      op ∈ history.filter Operation.completed ++ taken := fun op mem completed =>
    mem_append_left _ (mem_filter.mpr ⟨mem, completed⟩)
  rw [recorded.check_iff]
  intro g isGet
  by_cases apart : Overlapped history g
  · exact .inr apart
  refine .inl ?_
  rcases linearization.last_write (included g isGet.mem isGet.completed) isGet.type_eq with
    ⟨initial, unwritten⟩ | ⟨o, o_in, written, not_after, between⟩
  · rw [initial, expected]
    cases found : lastPut history g with
    | none => rfl
    | some w =>
      -- the PUT that ended last would come before the GET
      obtain ⟨⟨isPut, sameKey, earlier⟩, -⟩ := lastPut_eq_some found
      have ended := ended_before_start recorded isGet apart isPut sameKey earlier
      have silent := unwritten w (included w isPut.mem isPut.completed) ⟨isPut.completed, ended⟩
      have written : writes g.key w = some w.value := sameKey ▸ writes_put isPut.type_eq
      cases silent.symm.trans written
  · have o_mem := within o o_in
    refine noOther g o isGet apart ⟨o_mem, ?_, fun completed x x_mem x_completed isWrite => ?_⟩
      written
    · have not_late : ¬ g.endTime < o.startTime := fun late => not_after ⟨isGet.completed, late⟩
      have distinct := recorded.apart o o_mem g isGet.mem isGet.completed
      omega
    · rintro ⟨later, earlier⟩
      rcases between x (included x x_mem x_completed) ⟨completed, later⟩ ⟨x_completed, earlier⟩ with
        rfl | silent
      · have forward := recorded.forward x x_mem x_completed
        omega
      · exact isWrite silent

/-! ## Where there is a false alarm -/

/-- When a GET takes effect that is to follow an operation. -/
def getTime (g o : Operation V) : ℕ :=
  max o.startTime g.startTime

/-- When an operation takes effect that a GET is to follow: together with the GET, or at its
end if that comes first. -/
def lastTime (g o : Operation V) : ℕ :=
  if o.completed then min o.endTime (getTime g o) else getTime g o

/-- Points where `o` takes effect right before `g`.  The other operations take effect when they
start if that is before `o` does, and otherwise when they end. -/
def pointAround [DecidableEq V] (g o op : Operation V) : ℕ :=
  if op = o then 3 * lastTime g o + 1
  else if op = g then 3 * getTime g o + 2
  else if op.startTime < lastTime g o then 3 * op.startTime
  else 3 * op.endTime

section PointAround

variable [DecidableEq V]

theorem pointAround_last : pointAround g o o = 3 * lastTime g o + 1 :=
  if_pos rfl

theorem pointAround_get (other : g ≠ o) : pointAround g o g = 3 * getTime g o + 2 := by
  rw [pointAround, if_neg other, if_pos rfl]

variable (recorded : Recorded history)

include recorded

theorem exists_taken (o : Operation V) :
    ∃ taken, taken.Sublist (history.filter fun op => !op.completed) ∧
      (history.filter Operation.completed ++ taken).Nodup ∧
      ∀ x, x ∈ history.filter Operation.completed ++ taken ↔
        x ∈ history ∧ (x.completed = true ∨ x = o) := by
  have nodup := recorded.starts.of_map
  refine ⟨(history.filter fun op => !op.completed).filter (· = o), filter_sublist, ?_, ?_⟩
  · refine (nodup.filter _).append ((nodup.filter _).filter _) ?_
    intro x completed failed
    simp [(mem_filter.mp completed).2] at failed
  · intro x
    cases completed : x.completed <;> simp [completed]

/-- The completed operations and perhaps `o` take effect while they are under way. -/
theorem pointAround_bounds (other : g ≠ o) (starts : o.startTime < g.endTime) (x_mem : x ∈ history)
    (included : x.completed = true ∨ x = o) :
    3 * x.startTime ≤ pointAround g o x ∧
      (x.completed = true → pointAround g o x ≤ 3 * x.endTime + 2) := by
  have forward := recorded.forward
  by_cases isLast : x = o
  · subst isLast
    rw [pointAround_last, lastTime, getTime]
    split
    · rename_i completed
      have x_forward := forward x x_mem completed
      omega
    · rename_i failed
      exact ⟨by omega, fun completed => absurd completed failed⟩
  · have completed := included.resolve_right isLast
    have x_forward := forward x x_mem completed
    by_cases isG : x = g
    · subst isG
      rw [pointAround_get other, getTime]
      omega
    · rw [pointAround, if_neg isLast, if_neg isG]
      split
      · omega
      · omega

variable (isGet : IsCompleted history .get g)

include isGet

/-- Between the two there is no write. -/
theorem eq_of_pointAround_between (mayBe : MayBeLast history g o) (x_mem : x ∈ history)
    (included : x.completed = true ∨ x = o) (isWrite : writes g.key x ≠ none)
    (lower : pointAround g o o ≤ pointAround g o x)
    (upper : pointAround g o x ≤ 3 * getTime g o + 2) : x = o := by
  obtain ⟨o_mem, starts, separate⟩ := mayBe
  by_contra isLast
  have completed := included.resolve_right isLast
  have isG : x ≠ g := by
    rintro rfl
    exact isWrite (by simp [writes, isGet.type_eq])
  rw [pointAround_last] at lower
  rw [pointAround, if_neg isLast, if_neg isG] at lower upper
  split at lower
  · omega
  · rename_i late
    rw [if_neg late] at upper
    have to_g := recorded.apart g isGet.mem x x_mem completed
    rw [lastTime] at lower late
    split at lower
    · rename_i o_completed
      have after_o := recorded.apart x x_mem o o_mem o_completed
      have o_forward := recorded.forward o o_mem o_completed
      rw [if_pos o_completed] at late
      rw [getTime] at lower late upper
      exact separate o_completed x x_mem completed isWrite (by omega)
    · omega

/-- There is an order of the completed operations, and `o` if it has failed, in which `o` is
the last write before `g`. -/
theorem exists_order_last (mayBe : MayBeLast history g o) {v : Option V}
    (written : writes g.key o = some v) :
    ∃ taken, taken.Sublist (history.filter fun op => !op.completed) ∧
      ∃ before after, (before ++ g :: after).Perm (history.filter Operation.completed ++ taken) ∧
        (before ++ g :: after).Nodup ∧ Respects Precedes (before ++ g :: after) ∧
        content (writes g.key) none before = v := by
  obtain ⟨taken, sublist, nodup, mem_iff⟩ := exists_taken recorded o
  have other : g ≠ o := by
    rintro rfl
    rw [writes, if_pos rfl, isGet.type_eq] at written
    cases written
  have bounds := fun x (mem : x ∈ history.filter Operation.completed ++ taken) =>
    pointAround_bounds recorded other mayBe.2.1 ((mem_iff x).mp mem).1 ((mem_iff x).mp mem).2
  obtain ⟨order, perm, respects, ascending⟩ := exists_respects_of_point (pointAround g o)
    (history.filter Operation.completed ++ taken) (r := Precedes) (by
      rintro a a_mem b b_mem ⟨completed, before⟩
      have upper := (bounds a a_mem).2 completed
      have lower := (bounds b b_mem).1
      omega)
  have g_mem := perm.mem_iff.mpr ((mem_iff g).mpr ⟨isGet.mem, .inl isGet.completed⟩)
  obtain ⟨before, after, rfl⟩ := append_of_mem g_mem
  refine ⟨taken, sublist, before, after, perm, perm.nodup_iff.mpr nodup, respects, ?_⟩
  have o_mem := perm.mem_iff.mpr ((mem_iff o).mpr ⟨mayBe.1, .inr rfl⟩)
  refine Register.content_eq_written ascending o_mem ?_ written
    fun x mem lower upper v' written' => ?_
  · have le : lastTime g o ≤ getTime g o := by
      rw [lastTime]
      split
      · exact min_le_right _ _
      · exact le_rfl
    rw [pointAround_get other, pointAround_last]
    omega
  · have x_in := (mem_iff x).mp (perm.mem_iff.mp (mem_append_left _ mem))
    rw [pointAround_get other] at upper
    have same := eq_of_pointAround_between recorded isGet mayBe x_in.1 x_in.2
      (written' ▸ Option.some_ne_none v') lower upper
    rw [same, written] at written'
    exact (Option.some.inj written').symm

end PointAround

/-- What a GET finds at its place of an order. -/
def resultsOf [DecidableEq V] (order : List (Operation V)) (op : Operation V) : Option V :=
  content (writes op.key) none (order.takeWhile fun other => other ≠ op)

theorem resultsOf_split [DecidableEq V] {before after : List (Operation V)}
    (nodup : (before ++ g :: after).Nodup) :
    resultsOf (before ++ g :: after) g = content (writes g.key) none before := by
  have others : ∀ op ∈ before, decide (op ≠ g) = true := by
    intro op mem
    rw [decide_eq_true_iff]
    rintro rfl
    exact (nodup_append.mp nodup).2.2 op mem op mem_cons_self rfl
  rw [resultsOf, takeWhile_append_of_pos others,
    takeWhile_cons_of_neg (by simp), append_nil]

theorem isLinearization_resultsOf [DecidableEq V] {ops : List (Operation V)}
    (perm : order.Perm ops) (nodup : order.Nodup) (respects : Respects Precedes order) :
    IsLinearization (ops.map (returning (resultsOf order)))
      (order.map (returning (resultsOf order))) where
  perm := perm.map _
  respects := pairwise_map.mpr respects
  legal := by
    intro before' g' after' split isGet
    obtain ⟨before, rest, rfl, rfl, tail⟩ := map_eq_append_iff.mp split
    obtain ⟨g, after, rfl, rfl, rfl⟩ := map_eq_cons_iff.mp tail
    rw [value_returning_of_get (g := g) isGet, resultsOf_split nodup]
    symm
    exact Register.content_map fun op _ => writes_returning _ op

theorem linearizable_resultsOf [DecidableEq V] {taken : List (Operation V)}
    (sublist : taken.Sublist (history.filter fun op => !op.completed))
    (perm : order.Perm (history.filter Operation.completed ++ taken)) (nodup : order.Nodup)
    (respects : Respects Precedes order) :
    Linearizable (history.map (returning (resultsOf order))) := by
  refine ⟨taken.map (returning (resultsOf order)), ?_, order.map (returning (resultsOf order)), ?_⟩
  · rw [filter_map]
    exact sublist.map _
  · rw [filter_returning, ← map_append]
    exact isLinearization_resultsOf perm nodup respects

/-- The checker raises no false alarm about a history where no GET that overlaps no PUT returns
the value of another write that can be the last one before it.  From every other history,
changing what the other GETs return leads to one that is linearizable and does not pass. -/
theorem noFalseAlarm_of_noOtherLast [DecidableEq V] [ToString V] (recorded : Recorded history) :
    (NoOtherLast history → Linearizable history → (check history).linearizable = true) ∧
      (¬ NoOtherLast history → ∃ g results, IsCompleted history .get g ∧ results g = g.value ∧
        Linearizable (history.map (returning results)) ∧
        (check (history.map (returning results))).linearizable = false) := by
  refine ⟨check_of_linearizable recorded, fun other => ?_⟩
  simp only [NoOtherLast, not_forall] at other
  obtain ⟨g, o, isGet, apart, mayBe, written, unexpected⟩ := other
  obtain ⟨taken, sublist, before, after, perm, nodup, respects, found⟩ :=
    exists_order_last recorded isGet mayBe written
  have returned := (resultsOf_split nodup).trans found
  refine ⟨g, resultsOf (before ++ g :: after), isGet, returned,
    linearizable_resultsOf sublist perm nodup respects, ?_⟩
  rw [Bool.eq_false_iff, ne_eq, recorded.check_returning_iff]
  intro passes
  rcases passes g isGet with value | overlapped
  · exact unexpected (returned.symm.trans value)
  · exact apart overlapped

theorem linearizable_of_resultsOf_eq [DecidableEq V] (taken : List (Operation V))
    (sublist : taken.Sublist (history.filter fun op => !op.completed))
    (perm : history.Perm (history.filter Operation.completed ++ taken)) (nodup : history.Nodup)
    (respects : Respects Precedes history)
    (same : history.map (returning (resultsOf history)) = history) : Linearizable history := by
  rw [← same]
  exact linearizable_resultsOf sublist perm nodup respects

/-- Two writes after each other, and a failed one of the same value. -/
def sequential : List (Operation ℕ) :=
  [{ id := 0, type := .put, key := "x", value := some 1, startTime := 1, endTime := 2 },
    { id := 1, type := .put, key := "x", value := some 2, startTime := 3, endTime := 4 },
    { id := 2, type := .put, key := "x", value := some 2, startTime := 5, err := some "timeout" },
    { id := 3, type := .get, key := "x", value := some 2, startTime := 6, endTime := 7 }]

theorem noFalseAlarm_sequential :
    NoOtherLast sequential ∧ Linearizable sequential ∧
      (check sequential).linearizable = true := by
  have recorded : Recorded sequential :=
    ⟨by decide, by decide, by decide, by decide, by decide⟩
  have returned : ∀ g ∈ sequential, g.type = .get → g.value = expected sequential g := by decide
  have noOther : NoOtherLast sequential := fun g _ isGet _ _ _ =>
    returned g isGet.mem isGet.type_eq
  have linearizable : Linearizable sequential := linearizable_of_resultsOf_eq [sequential[2]]
    (by decide) (by decide) (by decide) (by decide) (by decide)
  exact ⟨noOther, linearizable, (noFalseAlarm_of_noOtherLast recorded).1 noOther linearizable⟩

/-- The PUT that takes effect last is the one that ends first. -/
def overtaken : List (Operation ℕ) :=
  [{ id := 0, type := .put, key := "x", value := some 1, startTime := 1, endTime := 10 },
    { id := 1, type := .put, key := "x", value := some 2, startTime := 2, endTime := 5 },
    { id := 2, type := .get, key := "x", value := some 2, startTime := 11, endTime := 12 }]

/-- A GET after a DELETE returns nil. -/
def absent : List (Operation ℕ) :=
  [{ id := 0, type := .put, key := "x", value := some 1, startTime := 1, endTime := 2 },
    { id := 1, type := .delete, key := "x", value := none, startTime := 3, endTime := 4 },
    { id := 2, type := .get, key := "x", value := none, startTime := 5, endTime := 6 }]

/-- A PUT that has failed has taken effect. -/
def uncertain : List (Operation ℕ) :=
  [{ id := 0, type := .put, key := "x", value := some 1, startTime := 1, err := some "timeout" },
    { id := 1, type := .get, key := "x", value := some 1, startTime := 2, endTime := 3 }]

/-- The three histories are linearizable as they stand, and the checker rejects them. -/
theorem falseAlarm_overtaken_absent_uncertain :
    (Recorded overtaken ∧ Linearizable overtaken ∧ (check overtaken).linearizable = false) ∧
      (Recorded absent ∧ Linearizable absent ∧ (check absent).linearizable = false) ∧
      Recorded uncertain ∧ Linearizable uncertain ∧ (check uncertain).linearizable = false := by
  refine ⟨⟨⟨by decide, by decide, by decide, by decide, by decide⟩, ?_, by decide +kernel⟩,
    ⟨⟨by decide, by decide, by decide, by decide, by decide⟩, ?_, by decide +kernel⟩,
    ⟨by decide, by decide, by decide, by decide, by decide⟩, ?_, by decide +kernel⟩
  · exact linearizable_of_resultsOf_eq [] (nil_sublist _) (by decide) (by decide)
      (by decide) (by decide)
  · exact linearizable_of_resultsOf_eq [] (nil_sublist _) (by decide) (by decide)
      (by decide) (by decide)
  · exact linearizable_of_resultsOf_eq [uncertain[0]] (by decide) (by decide) (by decide)
      (by decide) (by decide)

end Hermes.Consistency
