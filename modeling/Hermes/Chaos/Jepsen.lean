import Hermes.Data.Slices

/-!
# Checking recorded operations

The checker looks at the operations in the order in which clients have recorded them.  Only its
first pass reports anything: the others keep track of values and compare none.  Times are in
nanoseconds, and `nil` is `none`.
-/

namespace Hermes.Chaos

open Function List

variable {α : Type}

inductive JepsenType where
  | write | read | cas
  deriving DecidableEq, Repr

structure JepsenOp (α : Type) where
  clientID : String := ""
  type : JepsenType
  key : String
  writeValue : Option α := none
  readValue : Option α := none
  invokeAt : ℤ
  completeAt : ℤ
  success : Bool := true
  deriving DecidableEq, Repr

inductive ViolationType where
  | lostWrite | staleRead | nonMonotonic | splitBrain
  deriving DecidableEq, Repr

structure Violation (α : Type) where
  type : ViolationType
  description : String
  ops : List (JepsenOp α)

structure KeyState (α : Type) where
  lastWrite : Option (JepsenOp α) := none
  lastRead : Option (JepsenOp α) := none

/-- How values and times of day are shown. -/
structure Format (α : Type) where
  value : Option α → String
  time : ℤ → String

namespace JepsenChecker

variable (fmt : Format α) (sorter : Slices.Sorter (JepsenOp α) ℤ) (ops : List (JepsenOp α))

def lostWrite (w op : JepsenOp α) : Violation α where
  type := .lostWrite
  description := s!"Read of key {op.key} returned nil, but write {fmt.value w.writeValue} " ++
    s!"completed at {fmt.time w.completeAt} (read started at {fmt.time op.invokeAt})"
  ops := [w, op]

/-- One round of the loop of `checkDurability`. -/
def durabilityRound (s : (String → KeyState α) × List (Violation α)) (op : JepsenOp α) :
    (String → KeyState α) × List (Violation α) :=
  if op.success then
    let state := s.1 op.key
    match op.type with
    | .write => (update s.1 op.key { state with lastWrite := some op }, s.2)
    | .read =>
      let lost := state.lastWrite.filter fun w =>
        w.completeAt < op.invokeAt ∧ op.readValue.isNone
      (update s.1 op.key { state with lastRead := some op },
        s.2 ++ lost.toList.map (lostWrite fmt · op))
    | .cas => s
  else s

def checkDurability : List (Violation α) :=
  (ops.foldl (durabilityRound fmt) (fun _ => {}, [])).2

/-- One round of the loop of `checkStaleReads`. -/
def staleReadsRound (s : (String → Option α) × List (Violation α)) (op : JepsenOp α) :
    (String → Option α) × List (Violation α) :=
  if op.success ∧ op.type = .write then (update s.1 op.key op.writeValue, s.2) else s

def checkStaleReads : List (Violation α) :=
  ((sorter.sort JepsenOp.completeAt ops).foldl staleReadsRound (fun _ => none, [])).2

/-- One round of the loop of `checkMonotonicReads`. -/
def monotonicReadsRound (s : (String → String → Option α) × List (Violation α))
    (op : JepsenOp α) : (String → String → Option α) × List (Violation α) :=
  if op.success ∧ op.type = .read then
    (update s.1 op.clientID (update (s.1 op.clientID) op.key op.readValue), s.2)
  else s

def checkMonotonicReads : List (Violation α) :=
  (ops.foldl monotonicReadsRound (fun _ _ => none, [])).2

def verify : List (Violation α) :=
  checkDurability fmt ops ++ checkStaleReads sorter ops ++ checkMonotonicReads ops

/-! ## What is reported -/

/-- The last successful write of a key that has been recorded. -/
def lastWrite (key : String) : Option (JepsenOp α) :=
  (ops.filter fun op => op.success ∧ op.type = .write ∧ op.key = key).getLast?

/-- Only the first pass reports anything. -/
theorem verify_eq : verify fmt sorter ops = checkDurability fmt ops := by
  have stale : checkStaleReads sorter ops = [] := by
    refine (sorter.sort _ ops).foldlRecOn staleReadsRound (b := (_, [])) (motive := (·.2 = []))
      rfl fun s empty op _ => ?_
    unfold staleReadsRound
    split <;> exact empty
  have monotonic : checkMonotonicReads ops = [] := by
    refine ops.foldlRecOn monotonicReadsRound (b := (_, [])) (motive := (·.2 = [])) rfl
      fun s empty op _ => ?_
    unfold monotonicReadsRound
    split <;> exact empty
  rw [verify, stale, monotonic, append_nil, append_nil]

/-- The loop has the last write of every key. -/
theorem lastWrite_foldl (key : String) :
    ((ops.foldl (durabilityRound fmt) (fun _ => {}, [])).1 key).lastWrite = lastWrite ops key := by
  induction ops using reverseRecOn with
  | nil => rfl
  | append_singleton ops op ih =>
    rw [foldl_concat, durabilityRound, lastWrite, filter_append]
    by_cases same : key = op.key
    · subst same
      cases success : op.success <;> cases type : op.type <;> simp [success, type, ih, lastWrite]
    · cases success : op.success <;> cases type : op.type <;>
        simp [success, type, ih, lastWrite, same, Ne.symm same]

variable {fmt ops}

theorem checkDurability_concat_ne_nil {op : JepsenOp α} :
    checkDurability fmt (ops ++ [op]) ≠ [] ↔ checkDurability fmt ops ≠ [] ∨
      op.success ∧ op.type = .read ∧ ∃ w, lastWrite ops op.key = some w ∧
        w.completeAt < op.invokeAt ∧ op.readValue = none := by
  rw [← lastWrite_foldl fmt, checkDurability, checkDurability, foldl_concat]
  generalize ops.foldl (durabilityRound fmt) (fun _ => {}, []) = s
  rw [durabilityRound]
  cases op.success <;> cases op.type <;> cases last : (s.1 op.key).lastWrite <;>
    simp [last, Option.filter_some, imp_iff_not_or, or_comm]

/-- `Verify` reports something exactly if some read has returned `nil` and the last write of the
key that had been recorded before the read was complete when the read was invoked. -/
theorem verify_ne_nil_iff (fmt : Format α) (sorter : Slices.Sorter (JepsenOp α) ℤ)
    (ops : List (JepsenOp α)) : verify fmt sorter ops ≠ [] ↔ ∃ before r, before ++ [r] <+: ops ∧
      r.success ∧ r.type = .read ∧ ∃ w, lastWrite before r.key = some w ∧
        w.completeAt < r.invokeAt ∧ r.readValue = none := by
  rw [verify_eq]
  induction ops using reverseRecOn with
  | nil => simp [checkDurability]
  | append_singleton ops op ih =>
    rw [checkDurability_concat_ne_nil, ih]
    constructor
    · rintro (⟨before, r, recorded, missed⟩ | missed)
      · exact ⟨before, r, recorded.trans (prefix_append ops _), missed⟩
      · exact ⟨ops, op, prefix_rfl, missed⟩
    · rintro ⟨before, r, recorded, missed⟩
      rcases prefix_concat_iff.mp recorded with last | earlier
      · obtain ⟨rfl, same⟩ := append_inj' last rfl
        cases same
        exact .inr missed
      · exact .inl ⟨before, r, earlier, missed⟩

/-- Two writes of different values to a key one after the other, no other write of the key, and a
read after them that does not return the second value. -/
structure StaleRead (ops : List (JepsenOp α)) (w₁ w₂ r : JepsenOp α) : Prop where
  recorded : w₁ ∈ ops ∧ w₂ ∈ ops ∧ r ∈ ops
  success : w₁.success ∧ w₂.success ∧ r.success
  type : w₁.type = .write ∧ w₂.type = .write ∧ r.type = .read
  key : w₁.key = r.key ∧ w₂.key = r.key
  only : ∀ op ∈ ops, op.type = .write → op.key = r.key → op = w₁ ∨ op = w₂
  differ : w₁.writeValue ≠ w₂.writeValue
  order : w₁.completeAt < w₂.invokeAt ∧ w₂.completeAt < r.invokeAt
  stale : r.readValue = none ∨ r.readValue = w₁.writeValue

/-- A read of the first value is not reported, nor is one of `nil` that is recorded before the
writes. -/
theorem verify_misses : ∃ w₁ w₂ old empty : JepsenOp ℕ, StaleRead [w₁, w₂, old] w₁ w₂ old ∧
    StaleRead [empty, w₁, w₂] w₁ w₂ empty ∧ ∀ fmt sorter, verify fmt sorter [w₁, w₂, old] = [] ∧
      verify fmt sorter [empty, w₁, w₂] = [] := by
  let write (n : ℕ) : JepsenOp ℕ :=
    { type := .write, key := "x", writeValue := n, invokeAt := 2 * n, completeAt := 2 * n + 1 }
  let read (value : Option ℕ) : JepsenOp ℕ :=
    { type := .read, key := "x", readValue := value, invokeAt := 6, completeAt := 7 }
  refine ⟨write 1, write 2, read (some 1), read none, ?_, ?_, fun fmt sorter => ?_⟩
  · constructor <;> decide
  · constructor <;> decide
  · rw [verify_eq, verify_eq]
    exact ⟨rfl, rfl⟩

end JepsenChecker

end Hermes.Chaos
