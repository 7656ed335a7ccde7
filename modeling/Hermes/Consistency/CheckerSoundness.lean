import Hermes.Consistency.Linearization

/-!
# Soundness of the checker

The checker excuses whatever a GET returns that overlaps a PUT, and it ignores deletions.
Where it has nothing to excuse and no deletion to ignore, an accepted history is
linearizable: a PUT takes effect when it ends, and a GET as early as it can.
-/

namespace Hermes.Consistency

open Arrangement List
open Register (content)

variable {V : Type*} {history order : List (Operation V)} {d g w x : Operation V}

/-- Also the GETs that overlap a PUT return what the PUT that ended last has written. -/
def NothingExcused (history : List (Operation V)) : Prop :=
  ∀ g, IsCompleted history .get g → Overlapped history g → g.value = expected history g

/-- No DELETE lies between a GET and the PUT of a value that ended last before it. -/
def NoDeleteBetween (history : List (Operation V)) : Prop :=
  ∀ g d w, IsCompleted history .get g → IsCompleted history .delete d →
    lastPut history g = some w → d.key = g.key →
    w.endTime < d.startTime → d.endTime < g.startTime → w.value = none

/-! ## Accepted histories that are linearizable -/

/-- A PUT of its key that ends while a DELETE is under way. -/
def putWithin (history : List (Operation V)) (d : Operation V) : Option (Operation V) :=
  history.find? fun w => w.completed && w.type == .put && w.key == d.key &&
    decide (d.startTime < w.endTime) && decide (w.endTime < d.endTime)

/-- Where an operation takes effect: a PUT when it ends, a GET when it starts or right after
the PUT that it reads from, and a DELETE when it ends or, if it can, right before a PUT that
hides it. -/
def point (history : List (Operation V)) (op : Operation V) : ℕ :=
  match op.type with
  | .get =>
    match lastPut history op with
    | some w => max (4 * op.startTime) (4 * w.endTime + 2)
    | none => 4 * op.startTime
  | .put => 4 * op.endTime + 1
  | .delete =>
    match putWithin history op with
    | some w => 4 * w.endTime
    | none => 4 * op.endTime
  | .cas => 4 * op.endTime

theorem point_get_some (isGet : g.type = .get) (found : lastPut history g = some w) :
    point history g = max (4 * g.startTime) (4 * w.endTime + 2) := by
  rw [point, isGet, found]

theorem point_get_none (isGet : g.type = .get) (found : lastPut history g = none) :
    point history g = 4 * g.startTime := by
  rw [point, isGet, found]

theorem point_put (history : List (Operation V)) (isPut : w.type = .put) :
    point history w = 4 * w.endTime + 1 := by
  rw [point, isPut]

/-- A DELETE is hidden by a PUT, or no PUT ends while it is under way. -/
theorem point_delete (history : List (Operation V)) (isDelete : d.type = .delete) :
    (∃ w, (IsCompleted history .put w ∧ w.key = d.key ∧ d.startTime < w.endTime ∧
        w.endTime < d.endTime) ∧ point history d = 4 * w.endTime) ∨
      (∀ w, IsCompleted history .put w → w.key = d.key → d.startTime < w.endTime →
        ¬ w.endTime < d.endTime) ∧ point history d = 4 * d.endTime := by
  rw [point, isDelete]
  cases found : putWithin history d with
  | some w =>
    have holds := find?_some found
    simp only [Bool.and_eq_true, beq_iff_eq, decide_eq_true_eq] at holds
    obtain ⟨⟨⟨⟨completed, isPut⟩, sameKey⟩, starts⟩, ends⟩ := holds
    exact .inl ⟨w, ⟨⟨mem_of_find?_eq_some found, completed, isPut⟩, sameKey, starts, ends⟩,
      rfl⟩
  | none =>
    refine .inr ⟨fun w isPut sameKey starts ends => ?_, rfl⟩
    apply find?_eq_none.mp found w isPut.mem
    simp [isPut.completed, isPut.type_eq, sameKey, starts, ends]

/-- Operations take effect while they are under way. -/
theorem point_bounds (history : List (Operation V)) (forward : x.startTime < x.endTime) :
    4 * x.startTime ≤ point history x ∧ point history x < 4 * x.endTime + 4 := by
  cases kind : x.type with
  | get =>
    cases found : lastPut history x with
    | none =>
      rw [point_get_none kind found]
      omega
    | some w =>
      have earlier := (lastPut_eq_some found).1.2.2
      rw [point_get_some kind found]
      omega
  | put =>
    rw [point_put history kind]
    omega
  | delete =>
    rcases point_delete history kind with ⟨w, ⟨-, -, starts, ends⟩, at_w⟩ | ⟨-, at_end⟩
    · omega
    · omega
  | cas =>
    rw [point, kind]
    dsimp only
    omega

section

variable (recorded : Recorded history)

include recorded

section

variable (noDelete : NoDeleteBetween history)

include noDelete

/-- What is written between a GET and the PUT that it reads from is the same. -/
theorem written_between (isGet : IsCompleted history .get g) (found : lastPut history g = some w)
    (x_mem : x ∈ history) (completed : x.completed = true) {v : Option V}
    (written : writes g.key x = some v) (lower : point history w ≤ point history x)
    (upper : point history x ≤ point history g) : v = w.value := by
  obtain ⟨⟨isPut, sameKey, earlier⟩, last⟩ := lastPut_eq_some found
  rw [point_put history isPut.type_eq] at lower
  rw [point_get_some isGet.type_eq found] at upper
  have forward := recorded.forward g isGet.mem isGet.completed
  obtain ⟨xKey, ⟨xPut, rfl⟩ | ⟨xDelete, rfl⟩⟩ := writes_eq_some written
  · -- another PUT that ends no earlier and before the GET does is the same one
    have xIs : IsCompleted history .put x := ⟨x_mem, completed, xPut⟩
    rw [point_put history xPut] at lower upper
    have ends := last x xIs xKey (by omega)
    have same : x.endTime = w.endTime := by omega
    rw [recorded.eq_of_endTime_eq xIs isPut same]
  · symm
    rcases point_delete history xDelete with
      ⟨w', ⟨isPut', sameKey', starts, ends⟩, at_w'⟩ | ⟨unhidden, at_end⟩
    · -- the PUT that hides the DELETE would have ended later
      have ends' := last w' isPut' (sameKey'.trans xKey) (by omega)
      omega
    · have not_within := unhidden w isPut (sameKey.trans xKey.symm)
      have apart := recorded.apart x x_mem w isPut.mem isPut.completed
      have apart' := recorded.apart g isGet.mem x x_mem completed
      exact noDelete g x w isGet ⟨x_mem, completed, xDelete⟩ found xKey (by omega) (by omega)

variable (completed : ∀ op ∈ history, op.completed = true)

include completed

/-- In the order of the points a GET finds the value of the PUT that ended last. -/
theorem content_eq_expected
    {before after : List (Operation V)} (perm : (before ++ g :: after).Perm history)
    (ascending : (before ++ g :: after).Pairwise fun a b => point history a ≤ point history b)
    (isGet : IsCompleted history .get g) :
    content (writes g.key) none before = expected history g := by
  have within : ∀ x ∈ before, x ∈ history := fun x mem =>
    perm.mem_iff.mp (mem_append_left _ mem)
  rw [expected]
  cases found : lastPut history g with
  | none =>
    apply Register.content_eq_initial
    intro x mem v written
    obtain ⟨sameKey, ⟨isPut, -⟩ | ⟨-, rfl⟩⟩ := writes_eq_some written
    · have forward := recorded.forward g isGet.mem isGet.completed
      have bound := rel_before ascending mem
      rw [point_put history isPut, point_get_none isGet.type_eq found] at bound
      have xIs : IsCompleted history .put x := ⟨within x mem, completed x (within x mem), isPut⟩
      have late := lastPut_eq_none found xIs sameKey
      omega
    · rfl
  | some w =>
    obtain ⟨⟨isPut, sameKey, -⟩, -⟩ := lastPut_eq_some found
    have w_writes : writes g.key w = some w.value := sameKey ▸ writes_put isPut.type_eq
    refine Register.content_eq_written ascending (perm.mem_iff.mpr isPut.mem) ?_ w_writes
      fun x mem lower upper v written => ?_
    · rw [point_put history isPut.type_eq, point_get_some isGet.type_eq found]
      omega
    · exact written_between recorded noDelete isGet found (within x mem)
        (completed x (within x mem)) written lower upper

/-- Where nothing misleads the checker, it accepts only linearizable histories. -/
theorem exists_isLinearization [DecidableEq V] [ToString V] (nothing : NothingExcused history)
    (passes : (check history).linearizable = true) : ∃ order, IsLinearization history order := by
  have ascends : ∀ a ∈ history, ∀ b ∈ history, Precedes a b →
      point history a < point history b := by
    rintro a a_mem b b_mem ⟨-, before⟩
    have upper := (point_bounds history (recorded.forward a a_mem (completed a a_mem))).2
    have lower := (point_bounds history (recorded.forward b b_mem (completed b b_mem))).1
    omega
  obtain ⟨order, perm, respects, ascending⟩ :=
    exists_respects_of_point (point history) history ascends
  refine ⟨order, perm, respects, ?_⟩
  rintro before g after rfl isGet
  have mem := perm.mem_iff.mp (mem_append_cons_self : g ∈ before ++ g :: after)
  have isGet : IsCompleted history .get g := ⟨mem, completed g mem, isGet⟩
  rw [content_eq_expected recorded noDelete completed perm ascending isGet]
  rcases recorded.check_iff.mp passes g isGet with value | overlapped
  · exact value
  · exact nothing g isGet overlapped

end

/-! ## Accepted histories that are not linearizable -/

omit recorded in
theorem exists_unused [DecidableEq V] [Infinite V] (history : List (Operation V)) :
    ∃ v : V, ∀ op ∈ history, op.value ≠ some v := by
  obtain ⟨v, unused⟩ := Infinite.exists_notMem_finset (history.filterMap Operation.value).toFinset
  refine ⟨v, fun op mem used => unused ?_⟩
  rw [mem_toFinset, mem_filterMap]
  exact ⟨op, mem, used⟩

/-- A GET that overlaps a PUT can return a value that nobody has written. -/
theorem exists_unsound [DecidableEq V] [ToString V] [Infinite V]
    (passes : (check history).linearizable = true) (isGet : IsCompleted history .get g)
    (overlapped : Overlapped history g) :
    ∃ results, (∀ x, x ≠ g → results x = x.value) ∧
      (check (history.map (returning results))).linearizable = true ∧
      ¬ ∃ order, IsLinearization (history.map (returning results)) order := by
  obtain ⟨v, unused⟩ := exists_unused history
  refine ⟨fun op => if op = g then some v else op.value, fun x other => if_neg other,
    recorded.check_returning_iff.mpr fun x isX => ?_, ?_⟩
  · by_cases same : x = g
    · subst same
      exact .inr overlapped
    · rw [if_neg same]
      exact recorded.check_iff.mp passes x isX
  · rintro ⟨order, linearization⟩
    have value := linearization.value_of_get (mem_map_of_mem isGet.mem) isGet.type_eq
    rw [value_returning_of_get isGet.type_eq, if_pos rfl] at value
    rcases value with nil | ⟨x, mem, xPut, value⟩
    · nomatch nil
    · obtain ⟨op, found, rfl⟩ := mem_map.mp mem
      have opPut : op.type = .put := xPut
      rw [value_returning_of_put opPut] at value
      exact unused op found value

/-- If a GET that overlaps no PUT returns the value of the PUT that ended last, no DELETE can
have hidden it. -/
theorem value_eq_none_of_isLinearization (completed : ∀ op ∈ history, op.completed = true)
    (linearization : IsLinearization history order) (isGet : IsCompleted history .get g)
    (apart : ¬ Overlapped history g) (returned : g.value = expected history g)
    (isDelete : IsCompleted history .delete d) (found : lastPut history g = some w)
    (dKey : d.key = g.key) (after : w.endTime < d.startTime) (before : d.endTime < g.startTime) :
    w.value = none := by
  obtain ⟨-, last⟩ := lastPut_eq_some found
  rw [expected, found] at returned
  have d_writes : writes g.key d = some none := dKey ▸ writes_delete isDelete.type_eq
  rcases linearization.last_write isGet.mem isGet.type_eq with
    ⟨-, unwritten⟩ | ⟨x, x_mem, written, not_after, between⟩
  · cases (unwritten d isDelete.mem ⟨isDelete.completed, before⟩).symm.trans d_writes
  rw [returned] at written
  obtain ⟨xKey, ⟨xPut, -⟩ | ⟨-, nil⟩⟩ := writes_eq_some written
  · -- the PUT that the GET reads from has ended before the DELETE starts, so it comes first
    have isX : IsCompleted history .put x := ⟨x_mem, completed x x_mem, xPut⟩
    have ends : x.endTime ≤ w.endTime := by
      apply last x isX xKey
      have started : ¬ g.endTime < x.startTime := fun late => not_after ⟨isGet.completed, late⟩
      have distinct := recorded.apart x x_mem g isGet.mem isGet.completed
      have forward := recorded.forward g isGet.mem isGet.completed
      have ended : ¬ g.startTime < x.endTime := fun late =>
        apart ⟨x, isX, xKey, by omega, late⟩
      omega
    rcases between d isDelete.mem ⟨isX.completed, ends.trans_lt after⟩
        ⟨isDelete.completed, before⟩ with rfl | silent
    · cases isDelete.type_eq.symm.trans xPut
    · cases silent.symm.trans d_writes
  · exact nil

end

/-- The checker is sound on the histories where it excuses nothing and ignores no DELETE
between a GET and the PUT that ended last.  From every other history that it accepts,
changing what GETs return that overlap a PUT, or nothing at all, leads to one that it
accepts and that is not linearizable. -/
theorem sound_of_nothingExcused [DecidableEq V] [ToString V] [Infinite V]
    (recorded : Recorded history) (completed : ∀ op ∈ history, op.completed = true) :
    (NothingExcused history ∧ NoDeleteBetween history →
        (check history).linearizable = true → ∃ order, IsLinearization history order) ∧
      (¬ (NothingExcused history ∧ NoDeleteBetween history) →
        (check history).linearizable = true →
        ∃ results, (∀ g, ¬ Overlapped history g → results g = g.value) ∧
          (check (history.map (returning results))).linearizable = true ∧
          ¬ ∃ order, IsLinearization (history.map (returning results)) order) := by
  refine ⟨fun ⟨nothing, noDelete⟩ => exists_isLinearization recorded noDelete completed nothing,
    fun misled passes => ?_⟩
  by_cases overlap : ∃ g, IsCompleted history .get g ∧ Overlapped history g
  · obtain ⟨g, isGet, overlapped⟩ := overlap
    obtain ⟨results, same, accepted, unsound⟩ := exists_unsound recorded passes isGet overlapped
    refine ⟨results, fun x apart => same x ?_, accepted, unsound⟩
    rintro rfl
    exact apart overlapped
  · refine ⟨Operation.value, fun _ _ => rfl, ?_, ?_⟩
    · rw [map_returning_value]
      exact passes
    · rw [map_returning_value]
      rintro ⟨order, linearization⟩
      refine misled ⟨fun g isGet overlapped => absurd ⟨g, isGet, overlapped⟩ overlap, ?_⟩
      intro g d w isGet isDelete found dKey after before
      have apart : ¬ Overlapped history g := fun overlapped => overlap ⟨g, isGet, overlapped⟩
      have returned := (recorded.check_iff.mp passes g isGet).resolve_right apart
      exact value_eq_none_of_isLinearization recorded completed linearization isGet apart returned
        isDelete found dKey after before

/-- A PUT that hides an overlapping DELETE, and a GET after both. -/
def hiddenDelete : List (Operation ℕ) :=
  [{ id := 0, type := .put, key := "x", value := some 1, startTime := 1, endTime := 4 },
    { id := 1, type := .delete, key := "x", value := none, startTime := 2, endTime := 6 },
    { id := 2, type := .get, key := "x", value := some 1, startTime := 7, endTime := 8 }]

theorem sound_hiddenDelete :
    (NothingExcused hiddenDelete ∧ NoDeleteBetween hiddenDelete) ∧
      (check hiddenDelete).linearizable = true ∧ ∃ order, IsLinearization hiddenDelete order := by
  have recorded : Recorded hiddenDelete :=
    ⟨by decide, by decide, by decide, by decide, by decide⟩
  have returned : ∀ g ∈ hiddenDelete, g.type = .get → g.value = expected hiddenDelete g := by
    decide
  have overlaps : ∀ g ∈ hiddenDelete, ∀ d ∈ hiddenDelete, d.type = .delete →
      ∀ w ∈ lastPut hiddenDelete g, ¬ w.endTime < d.startTime := by decide
  have holds : NothingExcused hiddenDelete ∧ NoDeleteBetween hiddenDelete := by
    refine ⟨fun g isGet _ => returned g isGet.mem isGet.type_eq, ?_⟩
    intro g d w isGet isDelete found _ after
    exact absurd after (overlaps g isGet.mem d isDelete.mem isDelete.type_eq w found)
  have passes : (check hiddenDelete).linearizable = true := by decide +kernel
  exact ⟨holds, passes, (sound_of_nothingExcused recorded (by decide)).1 holds passes⟩

/-- A GET that overlaps the only PUT and returns something else. -/
def overlapped : List (Operation ℕ) :=
  [{ id := 0, type := .put, key := "x", value := some 1, startTime := 1, endTime := 4 },
    { id := 1, type := .get, key := "x", value := some 7, startTime := 2, endTime := 3 }]

/-- A GET after a DELETE that returns the deleted value. -/
def deleted : List (Operation ℕ) :=
  [{ id := 0, type := .put, key := "x", value := some 1, startTime := 1, endTime := 2 },
    { id := 1, type := .delete, key := "x", value := none, startTime := 3, endTime := 4 },
    { id := 2, type := .get, key := "x", value := some 1, startTime := 5, endTime := 6 }]

/-- Both histories are accepted. -/
theorem unsound_overlapped_deleted :
    (Recorded overlapped ∧ (check overlapped).linearizable = true ∧
        ¬ ∃ order, IsLinearization overlapped order) ∧
      Recorded deleted ∧ (check deleted).linearizable = true ∧
        ¬ ∃ order, IsLinearization deleted order := by
  have recorded : Recorded deleted := ⟨by decide, by decide, by decide, by decide, by decide⟩
  refine ⟨⟨⟨by decide, by decide, by decide, by decide, by decide⟩, by decide +kernel, ?_⟩,
    recorded, by decide +kernel, ?_⟩
  · rintro ⟨order, linearization⟩
    rcases linearization.value_of_get (g := overlapped[1]) (by decide) rfl with nil | written
    · nomatch nil
    · exact absurd written (by decide)
  · rintro ⟨order, linearization⟩
    have apart : ∀ w ∈ deleted, w.type = .put →
        ¬ (w.startTime < deleted[2].endTime ∧ deleted[2].startTime < w.endTime) := by decide
    have nil := value_eq_none_of_isLinearization (g := deleted[2]) (d := deleted[1])
      (w := deleted[0]) recorded (by decide) linearization ⟨by decide, rfl, rfl⟩
      (fun ⟨w, isPut, _, concurrent⟩ => apart w isPut.mem isPut.type_eq concurrent) (by decide)
      ⟨by decide, rfl, rfl⟩ (by decide) rfl (by decide) (by decide)
    nomatch nil

end Hermes.Consistency
