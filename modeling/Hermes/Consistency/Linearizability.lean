import Hermes.Data.Register

/-!
# The linearizability checker

The checker of `pkg/consistency/linearizability.go`.  It replays the operations on a key in
the order in which they have ended.  Times are nanoseconds since the zero time, and the nil
value is `none`.  Maps are association lists without repeated keys, and a loop over a map
takes the entries in the order of the list.
-/

namespace Hermes.Consistency

open AList List
open Arrangement (rel_before)
open Register (content)

inductive OpType where
  | get
  | put
  | delete
  | cas
  deriving DecidableEq, Repr

structure Operation (V : Type*) where
  id : UInt64
  type : OpType
  key : String
  value : Option V
  startTime : ℕ
  endTime : ℕ := 0
  err : Option String := none
  deriving DecidableEq, Repr

structure CheckResult where
  linearizable : Bool
  explanation : String
  violation : List ℕ := []
  deriving DecidableEq, Repr

variable {V : Type*}

/-- The operation has returned, and without an error. -/
def Operation.completed (op : Operation V) : Bool :=
  op.err.isNone && op.endTime != 0

/-- Is there a PUT besides the operation at place `i` that overlaps it? -/
def hasConcurrentPut (ops : List (Operation V)) (i : ℕ) (op : Operation V) : Bool :=
  ops.zipIdx.any fun other => other.2 != i && other.1.type == .put &&
    decide (other.1.startTime < op.endTime) && decide (other.1.endTime > op.startTime)

/-- The verb `%v`. -/
def formatValue [ToString V] : Option V → String
  | none => "<nil>"
  | some v => toString v

/-- The loop of `checkKeyLinearization`, from place `i` on. -/
def replay [DecidableEq V] [ToString V] (key : String) (ops : List (Operation V)) :
    ℕ → Option V → List (Operation V) → CheckResult
  | _, _, [] =>
    { linearizable := true, explanation := "Key " ++ key ++ " history is linearizable" }
  | i, currentValue, op :: rest =>
    match op.type with
    | .put => replay key ops (i + 1) op.value rest
    | .get =>
      if op.value ≠ currentValue ∧ ¬ hasConcurrentPut ops i op then
        { linearizable := false
          explanation := "GET key=" ++ key ++ " returned " ++ formatValue op.value ++
            " but expected " ++ formatValue currentValue ++ " (no concurrent PUT)"
          violation := [i] }
      else replay key ops (i + 1) currentValue rest
    | .delete => replay key ops (i + 1) currentValue rest
    | .cas => replay key ops (i + 1) currentValue rest

def checkKeyLinearization [DecidableEq V] [ToString V] (key : String)
    (ops : List (Operation V)) : CheckResult :=
  let sorted := ops.insertionSort fun a b => a.endTime ≤ b.endTime
  replay key sorted 0 none sorted

/-- Group the operations by their keys. -/
def groupByKey (ops : List (Operation V)) : AList fun _ : String => List (Operation V) :=
  ops.foldl
    (fun keyOps op => keyOps.insert op.key ((keyOps.lookup op.key).getD [] ++ [op])) ∅

def checkLinearization [DecidableEq V] [ToString V] (ops : List (Operation V)) : CheckResult :=
  let failure := (groupByKey ops).entries.findSome? fun entry =>
    let result := checkKeyLinearization entry.1 entry.2
    if !result.linearizable then some result else none
  failure.getD { linearizable := true, explanation := "All operations can be linearized" }

/-- `Check` of a recorded history. -/
def check [DecidableEq V] [ToString V] (history : List (Operation V)) : CheckResult :=
  let completed := history.filter Operation.completed
  if completed.length = 0 then
    { linearizable := true, explanation := "No completed operations to check" }
  else checkLinearization completed

/-! ## What the loops compute -/

/-- What an operation writes in the replay, where deletions are ignored. -/
def putValue (op : Operation V) : Option (Option V) :=
  if op.type = .put then some op.value else none

variable {ops : List (Operation V)}

/-- A GET at its place of the replay returns what the last PUT before it has written, or it
overlaps a PUT. -/
theorem linearizable_replay_iff [DecidableEq V] [ToString V] {key : String}
    (rest : List (Operation V)) (i : ℕ) (currentValue : Option V) :
    (replay key ops i currentValue rest).linearizable = true ↔
      ∀ front g back, rest = front ++ g :: back → g.type = .get →
        g.value = content putValue currentValue front ∨
          hasConcurrentPut ops (i + front.length) g = true := by
  induction rest generalizing i currentValue with
  | nil =>
    refine iff_of_true rfl ?_
    intro front g back split
    exact absurd (append_eq_nil_iff.mp split.symm).2 (cons_ne_nil g back)
  | cons op rest ih =>
    rw [Register.forall_splits_cons]
    have shift : ∀ front : List (Operation V),
        i + (op :: front).length = i + 1 + front.length := fun front => by
      rw [length_cons]
      omega
    simp only [Register.content_cons, shift]
    cases kind : op.type with
    | put | delete | cas => simp [replay, kind, ih, putValue]
    | get =>
      have kept : (putValue op).getD currentValue = currentValue := by simp [putValue, kind]
      rw [kept, replay, kind]
      dsimp only
      split
      · rename_i mismatch
        refine iff_of_false Bool.false_ne_true ?_
        rintro ⟨here, -⟩
        exact (here rfl).elim mismatch.1 mismatch.2
      · rename_i agrees
        rw [ih]
        have here : op.value = currentValue ∨ hasConcurrentPut ops i op = true := by
          by_contra neither
          exact agrees (not_or.mp neither)
        exact ⟨fun later => ⟨fun _ => here, later⟩, fun both => both.2⟩

variable {front back : List (Operation V)}

theorem hasConcurrentPut_iff {g : Operation V}
    (split : ops = front ++ g :: back) (isGet : g.type = .get) :
    hasConcurrentPut ops front.length g = true ↔
      ∃ w ∈ ops, w.type = .put ∧ w.startTime < g.endTime ∧ g.startTime < w.endTime := by
  rw [hasConcurrentPut, any_eq_true]
  constructor
  · rintro ⟨⟨w, j⟩, mem, holds⟩
    simp only [Bool.and_eq_true, beq_iff_eq, decide_eq_true_eq] at holds
    exact ⟨w, fst_mem_of_mem_zipIdx mem, holds.1.1.2, holds.1.2, holds.2⟩
  · rintro ⟨w, mem, isPut, starts, ends⟩
    obtain ⟨j, at_j⟩ := mem_iff_getElem?.mp mem
    refine ⟨(w, j), mk_mem_zipIdx_iff_getElem?.mpr at_j, ?_⟩
    have other : j ≠ front.length := by
      rintro rfl
      have here : ops[front.length]? = some g := by simp [split]
      cases here.symm.trans at_j
      rw [isGet] at isPut
      nomatch isPut
    simp [other, isPut, starts, ends]

theorem lookup_groupByKey (ops : List (Operation V)) (key : String) :
    ((groupByKey ops).lookup key).getD [] = ops.filter fun op => op.key = key := by
  induction ops using reverseRecOn with
  | nil => rfl
  | append_singleton ops op ih =>
    rw [groupByKey, foldl_append, foldl_cons, foldl_nil, ← groupByKey]
    by_cases same : op.key = key
    · subst same
      rw [ih]
      simp
    · rw [lookup_insert_ne (Ne.symm same), ih]
      simp [same]

theorem linearizable_checkLinearization_iff [DecidableEq V] [ToString V] :
    (checkLinearization ops).linearizable = true ↔ ∀ entry ∈ (groupByKey ops).entries,
      (checkKeyLinearization entry.1 entry.2).linearizable = true := by
  rw [checkLinearization]
  cases found : (groupByKey ops).entries.findSome? _ with
  | none =>
    refine iff_of_true rfl fun entry mem => ?_
    have passes := findSome?_eq_none_iff.mp found entry mem
    by_contra fails
    simp [fails] at passes
  | some result =>
    obtain ⟨entry, mem, returned⟩ := exists_of_findSome?_eq_some found
    dsimp only at returned
    split at returned
    · rename_i fails
      cases returned
      rw [Bool.not_eq_true'] at fails
      refine iff_of_false (fun passes => ?_) (fun all => ?_)
      · exact Bool.false_ne_true (fails.symm.trans passes)
      · exact Bool.false_ne_true (fails.symm.trans (all entry mem))
    · nomatch returned

theorem linearizable_check_iff [DecidableEq V] [ToString V] {history : List (Operation V)} :
    (check history).linearizable = true ↔ ∀ key, (checkKeyLinearization key
      ((history.filter Operation.completed).filter fun op => op.key = key)).linearizable =
        true := by
  rw [check]
  generalize history.filter Operation.completed = ops
  split
  · rename_i empty
    rw [length_eq_zero_iff.mp empty]
    exact iff_of_true rfl fun _ => rfl
  · rw [linearizable_checkLinearization_iff]
    constructor
    · intro all key
      rw [← lookup_groupByKey]
      cases found : (groupByKey ops).lookup key with
      | none => rfl
      | some keyHistory => exact all ⟨key, keyHistory⟩ (mem_lookup_iff.mp found)
    · rintro all ⟨key, keyHistory⟩ mem
      have passes := all key
      rw [← lookup_groupByKey, mem_lookup_iff.mpr mem] at passes
      exact passes

/-! ## Recorded histories -/

/-- A completed operation of some type. -/
structure IsCompleted (history : List (Operation V)) (type : OpType) (op : Operation V) : Prop where
  mem : op ∈ history
  completed : op.completed = true
  type_eq : op.type = type

/-- The operations overlap. -/
def Concurrent (a b : Operation V) : Prop :=
  a.startTime < b.endTime ∧ b.startTime < a.endTime

/-- A GET overlaps a PUT of its key. -/
def Overlapped (history : List (Operation V)) (g : Operation V) : Prop :=
  ∃ w, IsCompleted history .put w ∧ w.key = g.key ∧ Concurrent w g

/-- A history of GET, PUT and DELETE at distinct times.  Only completed operations have an end. -/
structure Recorded (history : List (Operation V)) : Prop where
  types : ∀ op ∈ history, op.type ≠ .cas
  starts : (history.map Operation.startTime).Nodup
  ends : ((history.filter Operation.completed).map Operation.endTime).Nodup
  apart : ∀ a ∈ history, ∀ b ∈ history, b.completed = true → a.startTime ≠ b.endTime
  forward : ∀ op ∈ history, op.completed = true → op.startTime < op.endTime

/-- The PUT of the key that ended last before a GET ended. -/
def lastPut (history : List (Operation V)) (g : Operation V) : Option (Operation V) :=
  (history.filter fun w => w.completed && w.type == .put && w.key == g.key &&
    decide (w.endTime < g.endTime)).argmax Operation.endTime

/-- What the PUT of the key that ended last before a GET ended has written; nil if there is
none. -/
def expected (history : List (Operation V)) (g : Operation V) : Option V :=
  (lastPut history g).bind Operation.value

variable {history : List (Operation V)} {type type' : OpType} {a b g w : Operation V}

theorem Recorded.eq_of_endTime_eq (recorded : Recorded history) (isA : IsCompleted history type a)
    (isB : IsCompleted history type' b) (same : a.endTime = b.endTime) : a = b :=
  inj_on_of_nodup_map recorded.ends (mem_filter.mpr ⟨isA.mem, isA.completed⟩)
    (mem_filter.mpr ⟨isB.mem, isB.completed⟩) same

theorem mem_puts_iff : w ∈ (history.filter fun w => w.completed && w.type == .put &&
    w.key == g.key && decide (w.endTime < g.endTime)) ↔
      IsCompleted history .put w ∧ w.key = g.key ∧ w.endTime < g.endTime := by
  simp only [mem_filter, Bool.and_eq_true, beq_iff_eq, decide_eq_true_eq]
  constructor
  · rintro ⟨mem, ⟨⟨completed, isPut⟩, sameKey⟩, earlier⟩
    exact ⟨⟨mem, completed, isPut⟩, sameKey, earlier⟩
  · rintro ⟨isPut, sameKey, earlier⟩
    exact ⟨isPut.mem, ⟨⟨isPut.completed, isPut.type_eq⟩, sameKey⟩, earlier⟩

theorem lastPut_eq_none (absent : lastPut history g = none) (isPut : IsCompleted history .put w)
    (sameKey : w.key = g.key) : ¬ w.endTime < g.endTime := by
  intro earlier
  have mem := mem_puts_iff.mpr ⟨isPut, sameKey, earlier⟩
  rw [argmax_eq_none.mp absent] at mem
  nomatch mem

theorem lastPut_eq_some (last : lastPut history g = some w) :
    (IsCompleted history .put w ∧ w.key = g.key ∧ w.endTime < g.endTime) ∧
      ∀ x, IsCompleted history .put x → x.key = g.key → x.endTime < g.endTime →
        x.endTime ≤ w.endTime := by
  refine ⟨mem_puts_iff.mp (argmax_mem last), fun x isPut sameKey earlier => ?_⟩
  exact le_of_mem_argmax (mem_puts_iff.mpr ⟨isPut, sameKey, earlier⟩) last

/-- Without overlap a PUT that ends before a GET does has ended before the GET starts. -/
theorem ended_before_start (recorded : Recorded history) (isGet : IsCompleted history .get g)
    (apart : ¬ Overlapped history g) (isPut : IsCompleted history .put w)
    (sameKey : w.key = g.key) (earlier : w.endTime < g.endTime) : w.endTime < g.startTime := by
  have forward := recorded.forward w isPut.mem isPut.completed
  have distinct := recorded.apart g isGet.mem w isPut.mem isPut.completed
  have not_later : ¬ g.startTime < w.endTime := fun later =>
    apart ⟨w, isPut, sameKey, lt_trans forward earlier, later⟩
  omega

/-! ## The verdict -/

/-- The operations on a key in the order of the replay. -/
structure IsReplay (history : List (Operation V)) (key : String) (ops : List (Operation V)) :
    Prop where
  mem_iff : ∀ op, op ∈ ops ↔ op ∈ history ∧ op.completed = true ∧ op.key = key
  ascending : ops.Pairwise fun a b => a.endTime ≤ b.endTime

theorem isReplay_insertionSort (history : List (Operation V)) (key : String) :
    IsReplay history key (((history.filter Operation.completed).filter fun op => op.key = key)
      |>.insertionSort fun a b => a.endTime ≤ b.endTime) where
  mem_iff op := by
    rw [mem_insertionSort, mem_filter, mem_filter, decide_eq_true_iff, and_assoc]
  ascending := by
    exact pairwise_insertionSort _ _

/-- When the replay comes to a GET, the current value is that of the PUT that ended last. -/
theorem IsReplay.content_eq_expected (recorded : Recorded history) {key : String}
    (isReplay : IsReplay history key (front ++ g :: back))
    (isGet : g.type = .get) : content putValue none front = expected history g := by
  obtain ⟨-, gKey⟩ := ((isReplay.mem_iff g).mp (mem_append_cons_self)).2
  have ascending := isReplay.ascending
  have isCompleted : ∀ x ∈ front ++ g :: back, ∀ type, x.type = type →
      IsCompleted history type x := fun x mem type type_eq =>
    ⟨((isReplay.mem_iff x).mp mem).1, ((isReplay.mem_iff x).mp mem).2.1, type_eq⟩
  -- a PUT that comes before the GET has ended before it
  have earlier : ∀ x ∈ front, ∀ v, putValue x = some v →
      (IsCompleted history .put x ∧ x.key = g.key ∧ x.endTime < g.endTime) ∧ v = x.value := by
    intro x mem v written
    obtain ⟨isPut, written⟩ := Option.ite_none_right_eq_some.mp written
    have within := mem_append_left (g :: back) mem
    have put := isCompleted x within .put isPut
    have sameKey := ((isReplay.mem_iff x).mp within).2.2.trans gKey.symm
    have distinct : x.endTime ≠ g.endTime := by
      intro same
      have get := isCompleted g mem_append_cons_self .get isGet
      rw [recorded.eq_of_endTime_eq put get same, isGet] at isPut
      nomatch isPut
    have le := rel_before ascending mem
    exact ⟨⟨put, sameKey, lt_of_le_of_ne le distinct⟩, (Option.some.inj written).symm⟩
  rw [expected]
  cases found : lastPut history g with
  | none =>
    apply Register.content_eq_initial
    intro x mem v written
    obtain ⟨⟨isPut, sameKey, ends⟩, -⟩ := earlier x mem v written
    exact absurd ends (lastPut_eq_none found isPut sameKey)
  | some w =>
    obtain ⟨⟨isPut, sameKey, ends⟩, last⟩ := lastPut_eq_some found
    have within := (isReplay.mem_iff w).mpr ⟨isPut.mem, isPut.completed, sameKey.trans gKey⟩
    have written : putValue w = some w.value := if_pos isPut.type_eq
    rw [Option.bind_some]
    refine Register.content_eq_written ascending within ends written
      fun x mem le _ v written => ?_
    obtain ⟨⟨isPut', sameKey', ends'⟩, rfl⟩ := earlier x mem v written
    have same := le_antisymm (last x isPut' sameKey' ends') le
    rw [recorded.eq_of_endTime_eq isPut' isPut same]

/-- A history passes if every GET returns what the PUT that ended last has written, or overlaps
a PUT. -/
theorem Recorded.check_iff [DecidableEq V] [ToString V] (recorded : Recorded history) :
    (check history).linearizable = true ↔ ∀ g, IsCompleted history .get g →
      g.value = expected history g ∨ Overlapped history g := by
  -- the search for a PUT within the replay finds every PUT on the key
  have overlaps : ∀ {key front g back}, IsReplay history key (front ++ g :: back) →
      g.type = .get → (hasConcurrentPut (front ++ g :: back) front.length g = true ↔
        Overlapped history g) := by
    intro key front g back isReplay isGet
    have gKey := ((isReplay.mem_iff g).mp mem_append_cons_self).2.2
    rw [hasConcurrentPut_iff rfl isGet]
    constructor
    · rintro ⟨w, mem, isPut, concurrent⟩
      obtain ⟨mem, completed, sameKey⟩ := (isReplay.mem_iff w).mp mem
      exact ⟨w, ⟨mem, completed, isPut⟩, sameKey.trans gKey.symm, concurrent⟩
    · rintro ⟨w, isPut, sameKey, concurrent⟩
      have mem := (isReplay.mem_iff w).mpr ⟨isPut.mem, isPut.completed, sameKey.trans gKey⟩
      exact ⟨w, mem, isPut.type_eq, concurrent⟩
  rw [linearizable_check_iff]
  constructor
  · intro passes g isGet
    have isReplay := isReplay_insertionSort history g.key
    have replayed := (linearizable_replay_iff _ 0 none).mp (passes g.key)
    have mem := (isReplay.mem_iff g).mpr ⟨isGet.mem, isGet.completed, rfl⟩
    obtain ⟨front, back, split⟩ := append_of_mem mem
    have here := replayed front g back split isGet.type_eq
    rw [split] at isReplay here
    rw [Nat.zero_add, overlaps isReplay isGet.type_eq,
      isReplay.content_eq_expected recorded isGet.type_eq] at here
    exact here
  · intro all key
    have isReplay := isReplay_insertionSort history key
    refine (linearizable_replay_iff _ 0 none).mpr fun front g back split isGet => ?_
    rw [split] at isReplay ⊢
    rw [Nat.zero_add, overlaps isReplay isGet, isReplay.content_eq_expected recorded isGet]
    obtain ⟨mem, completed, -⟩ := (isReplay.mem_iff g).mp mem_append_cons_self
    exact all g ⟨mem, completed, isGet⟩

end Hermes.Consistency
