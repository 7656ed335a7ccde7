import Hermes.Data.Runs

/-!
# Vector time

Events of several processes, in some order in which they can have happened.  An event
may receive the stamp of an earlier event.  A process keeps a clock with a number for
every process: it takes the maximum of its clock and the stamp that it receives, and
increments its own number.  The order of the stamps is the causal order of the events.
-/

namespace Hermes.Causality

open Function List Relation
open Runs (getElem?_concat_eq_some)

variable {P : Type*}

/-- An event of a process, with the place of the event whose stamp it receives. -/
structure Event (P : Type*) where
  process : P
  source : Option ℕ := none

/-- The immediate causes: what the same process did before, and the event whose stamp is
received. -/
inductive Direct (events : List (Event P)) (e f : ℕ) : Prop where
  | process {x y : Event P} (at_e : events[e]? = some x) (at_f : events[f]? = some y)
    (same : x.process = y.process) (before : e < f)
  | message {y : Event P} (at_f : events[f]? = some y) (received : y.source = some e)

/-- Events receive from earlier events only. -/
def Valid (events : List (Event P)) : Prop :=
  ∀ f (y : Event P), events[f]? = some y → ∀ e, y.source = some e → e < f

/-- The causes of an event. -/
def HappenedBefore (events : List (Event P)) : ℕ → ℕ → Prop :=
  TransGen (Direct events)

/-- The causes of an event and the event itself. -/
def Past (events : List (Event P)) : ℕ → ℕ → Prop :=
  ReflTransGen (Direct events)

/-! ## Causes come first -/

variable {events : List (Event P)} {e f : ℕ}

theorem past_iff : Past events e f ↔ f = e ∨ HappenedBefore events e f :=
  reflTransGen_iff_eq_or_transGen

section

variable (valid : Valid events)

include valid

theorem Direct.lt (direct : Direct events e f) : e < f := by
  cases direct with
  | process _ _ _ before => exact before
  | message at_f received => exact valid f _ at_f e received

theorem HappenedBefore.lt (before : HappenedBefore events e f) : e < f := by
  induction before with
  | single direct => exact direct.lt valid
  | tail _ direct ih => exact ih.trans (direct.lt valid)

theorem Past.le (past : Past events e f) : e ≤ f := by
  rcases past_iff.mp past with same | before
  · exact le_of_eq same.symm
  · exact (before.lt valid).le

theorem Past.antisymm (forth : Past events e f) (back : Past events f e) : e = f :=
  le_antisymm (forth.le valid) (back.le valid)

theorem eq_iff_past : e = f ↔ Past events e f ∧ Past events f e := by
  constructor
  · rintro rfl
    exact ⟨.refl, .refl⟩
  · rintro ⟨forth, back⟩
    exact forth.antisymm valid back

/-- What happened before an event is in its past, and the event is not in the past of
it. -/
theorem happenedBefore_iff : HappenedBefore events e f ↔ Past events e f ∧ ¬ Past events f e := by
  constructor
  · intro before
    refine ⟨past_iff.mpr (.inr before), fun back => ?_⟩
    exact absurd (back.le valid) (not_le.mpr (before.lt valid))
  · rintro ⟨forth, notBack⟩
    rcases past_iff.mp forth with rfl | before
    · exact absurd .refl notBack
    · exact before

end

/-! ## One more event -/

section Extension

variable {x : Event P} (valid : Valid (events ++ [x]))

include valid

theorem Valid.of_concat : Valid events := by
  intro f y at_f
  apply valid f y
  rw [List.getElem?_append_left (List.getElem?_eq_some_iff.mp at_f).1]
  exact at_f

theorem direct_concat_iff (old : f < events.length) :
    Direct (events ++ [x]) e f ↔ Direct events e f := by
  constructor
  · intro direct
    have before := direct.lt valid
    cases direct with
    | process at_e at_f same =>
      rw [getElem?_append_left old] at at_f
      rw [getElem?_append_left (before.trans old)] at at_e
      exact .process at_e at_f same before
    | message at_f received =>
      rw [getElem?_append_left old] at at_f
      exact .message at_f received
  · intro direct
    have before := direct.lt valid.of_concat
    cases direct with
    | process at_e at_f same =>
      rw [← getElem?_append_left old] at at_f
      rw [← getElem?_append_left (before.trans old)] at at_e
      exact .process at_e at_f same before
    | message at_f received =>
      rw [← getElem?_append_left old] at at_f
      exact .message at_f received

theorem past_concat_iff (old : f < events.length) : Past (events ++ [x]) e f ↔ Past events e f := by
  constructor
  · intro past
    induction past with
    | refl => exact .refl
    | tail _ direct ih =>
      exact (ih ((direct.lt valid).trans old)).tail ((direct_concat_iff valid old).mp direct)
  · intro past
    induction past with
    | refl => exact .refl
    | tail _ direct ih =>
      exact (ih ((direct.lt valid.of_concat).trans old)).tail
        ((direct_concat_iff valid old).mpr direct)

/-- The past of the new event: what its process did before, the event that it receives
from, and their pasts. -/
theorem past_length_iff :
    Past (events ++ [x]) e events.length ↔ e = events.length ∨
      ∃ d, Past events e d ∧ d < events.length ∧
        ((∃ y, events[d]? = some y ∧ y.process = x.process) ∨ x.source = some d) := by
  unfold Past
  rw [ReflTransGen.cases_tail_iff]
  constructor
  · rintro (same | ⟨d, past, direct⟩)
    · exact .inl same.symm
    · have old := direct.lt valid
      refine .inr ⟨d, (past_concat_iff valid old).mp past, old, ?_⟩
      cases direct with
      | process at_d at_new same =>
        rw [getElem?_concat_length] at at_new
        cases at_new
        rw [getElem?_append_left old] at at_d
        exact .inl ⟨_, at_d, same⟩
      | message at_new received =>
        rw [getElem?_concat_length] at at_new
        cases at_new
        exact .inr received
  · rintro (rfl | ⟨d, past, old, cause⟩)
    · exact .inl rfl
    · refine .inr ⟨d, (past_concat_iff valid old).mpr past, ?_⟩
      rcases cause with ⟨y, at_d, same⟩ | received
      · rw [← getElem?_append_left old] at at_d
        exact .process at_d getElem?_concat_length same old
      · exact .message getElem?_concat_length received

end Extension

/-! ## Clocks and stamps -/

/-- A run: the events so far, the clock of every process and the stamp of every event. -/
structure State (P : Type*) where
  events : List (Event P) := []
  clock : P → P → ℕ := fun _ _ => 0
  stamp : ℕ → P → ℕ := fun _ _ => 0

namespace State

/-- What an event brings to its process. -/
def received (s : State P) (x : Event P) : P → ℕ :=
  match x.source with
  | none => fun _ => 0
  | some sent => s.stamp sent

/-- What holds in every run.  A process knows most about itself, and a stamp shows an
event of a process exactly if the event is in its past. -/
structure OK (s : State P) : Prop where
  valid : Valid s.events
  clock_le : ∀ p q, s.clock p q ≤ s.clock q q
  stamp_le : ∀ f < s.events.length, ∀ q, s.stamp f q ≤ s.clock q q
  pos : ∀ e x, s.events[e]? = some x → 0 < s.stamp e x.process
  below : ∀ e x, s.events[e]? = some x → s.stamp e ≤ s.clock x.process
  mono : ∀ e f, f < s.events.length → Past s.events e f → s.stamp e ≤ s.stamp f
  past : ∀ e x, s.events[e]? = some x → ∀ f < s.events.length,
    s.stamp e x.process ≤ s.stamp f x.process → Past s.events e f
  known : ∀ e x, s.events[e]? = some x → ∀ q, s.stamp e x.process ≤ s.clock q x.process →
    ∃ d y, s.events[d]? = some y ∧ y.process = q ∧ Past s.events e d

variable {s : State P} {x : Event P}

/-- Nobody knows more about a process than the process itself. -/
theorem OK.received_le (ok : s.OK) (valid : Valid (s.events ++ [x])) (q : P) :
    s.received x q ≤ s.clock q q := by
  unfold received
  cases source : x.source with
  | none => exact Nat.zero_le _
  | some sent => exact ok.stamp_le sent (valid _ x getElem?_concat_length sent source) q

variable [DecidableEq P]

/-- The stamp of a new event. -/
def next (s : State P) (x : Event P) : P → ℕ :=
  let merged := s.clock x.process ⊔ s.received x
  Function.update merged x.process (merged x.process + 1)

def step (s : State P) (x : Event P) : State P :=
  { events := s.events ++ [x]
    clock := Function.update s.clock x.process (s.next x)
    stamp := Function.update s.stamp s.events.length (s.next x) }

def run (events : List (Event P)) : State P :=
  events.foldl step {}

theorem lt_or_eq_of_lt_step (within : f < (s.step x).events.length) :
    f < s.events.length ∨ f = s.events.length := by
  unfold step at within
  rw [length_append, length_singleton] at within
  omega

theorem stamp_step_of_lt (old : f < s.events.length) : (s.step x).stamp f = s.stamp f :=
  update_of_ne (ne_of_lt old) _ _

theorem stamp_step_length : (s.step x).stamp s.events.length = s.next x :=
  update_self _ _ _

theorem clock_step_self : (s.step x).clock x.process = s.next x :=
  update_self _ _ _

variable {q : P}

theorem clock_step_of_ne (other : q ≠ x.process) : (s.step x).clock q = s.clock q :=
  update_of_ne other _ _

theorem next_of_ne (other : q ≠ x.process) :
    s.next x q = max (s.clock x.process q) (s.received x q) :=
  update_of_ne other _ _

theorem le_next : s.clock x.process ⊔ s.received x ≤ s.next x := by
  intro q
  unfold next
  by_cases own : q = x.process
  · subst own
    rw [update_self]
    exact Nat.le_succ _
  · rw [update_of_ne own]

/-- Clocks do not go back. -/
theorem clock_le_step (p : P) : s.clock p ≤ (s.step x).clock p := by
  by_cases own : p = x.process
  · subst own
    rw [clock_step_self]
    exact le_sup_left.trans le_next
  · rw [clock_step_of_ne own]

namespace OK

section

variable (ok : s.OK) (valid : Valid (s.events ++ [x]))

include ok valid

theorem next_self : s.next x x.process = s.clock x.process x.process + 1 := by
  unfold next
  rw [update_self, Pi.sup_apply, max_eq_left (ok.received_le valid _)]

theorem next_le (other : q ≠ x.process) : s.next x q ≤ s.clock q q := by
  rw [next_of_ne other]
  exact max_le (ok.clock_le _ _) (ok.received_le valid q)

theorem step_clock_le (p q : P) : (s.step x).clock p q ≤ (s.step x).clock q q := by
  by_cases own : p = x.process
  · by_cases same : q = x.process
    · rw [own, same]
    · subst own
      rw [clock_step_self]
      exact (ok.next_le valid same).trans (clock_le_step q q)
  · rw [clock_step_of_ne own]
    exact (ok.clock_le p q).trans (clock_le_step q q)

theorem step_stamp_le (within : f < (s.step x).events.length) (q : P) :
    (s.step x).stamp f q ≤ (s.step x).clock q q := by
  rcases lt_or_eq_of_lt_step within with old | rfl
  · rw [stamp_step_of_lt old]
    exact (ok.stamp_le f old q).trans (clock_le_step q q)
  · rw [stamp_step_length, ← clock_step_self]
    exact ok.step_clock_le valid _ q

theorem step_mono (within : f < (s.step x).events.length)
    (past : Past (s.step x).events e f) : (s.step x).stamp e ≤ (s.step x).stamp f := by
  rcases lt_or_eq_of_lt_step within with old | rfl
  · have past := (past_concat_iff valid old).mp past
    have older := (past.le ok.valid).trans_lt old
    rw [stamp_step_of_lt old, stamp_step_of_lt older]
    exact ok.mono e f old past
  · rcases (past_length_iff valid).mp past with rfl | ⟨d, past, old, cause⟩
    · exact le_rfl
    · have older := (past.le ok.valid).trans_lt old
      rw [stamp_step_length, stamp_step_of_lt older]
      refine (ok.mono e d old past).trans (le_trans ?_ le_next)
      rcases cause with ⟨y, at_d, same⟩ | source
      · exact (same ▸ ok.below d y at_d).trans le_sup_left
      · refine (le_of_eq ?_).trans le_sup_right
        unfold received
        rw [source]

variable {y : Event P}

/-- An old event that the new stamp shows is in the past of the new event: it is an event
of the same process, or the clock or what has been received showed it already. -/
theorem past_of_le_next (at_e : s.events[e]? = some y)
    (shown : s.stamp e y.process ≤ s.next x y.process) :
    Past (s.events ++ [x]) e s.events.length := by
  rw [past_length_iff valid]
  right
  by_cases own : y.process = x.process
  · exact ⟨e, .refl, (List.getElem?_eq_some_iff.mp at_e).1, .inl ⟨y, at_e, own⟩⟩
  · rw [next_of_ne own] at shown
    rcases le_max_iff.mp shown with byClock | byMessage
    · obtain ⟨d, z, at_d, process, past⟩ := ok.known e y at_e x.process byClock
      exact ⟨d, past, (List.getElem?_eq_some_iff.mp at_d).1, .inl ⟨z, at_d, process⟩⟩
    · unfold received at byMessage
      cases source : x.source with
      | none =>
        rw [source] at byMessage
        exact absurd (ok.pos e y at_e) (not_lt.mpr byMessage)
      | some sent =>
        rw [source] at byMessage
        have earlier := valid _ x getElem?_concat_length sent source
        exact ⟨sent, ok.past e y at_e sent earlier byMessage, earlier, .inr rfl⟩

theorem step_past (at_e : (s.step x).events[e]? = some y) (within : f < (s.step x).events.length)
    (shown : (s.step x).stamp e y.process ≤ (s.step x).stamp f y.process) :
    Past (s.step x).events e f := by
  rcases getElem?_concat_eq_some at_e with ⟨older, at_e⟩ | ⟨rfl, rfl⟩
  · rw [stamp_step_of_lt older] at shown
    rcases lt_or_eq_of_lt_step within with old | rfl
    · rw [stamp_step_of_lt old] at shown
      exact (past_concat_iff valid old).mpr (ok.past e y at_e f old shown)
    · rw [stamp_step_length] at shown
      exact ok.past_of_le_next valid at_e shown
  · rcases lt_or_eq_of_lt_step within with old | rfl
    · -- no older stamp knows of the new event
      rw [stamp_step_length, stamp_step_of_lt old, ok.next_self valid] at shown
      exact absurd (ok.stamp_le f old y.process) (not_le.mpr shown)
    · exact .refl

theorem step_known (at_e : (s.step x).events[e]? = some y)
    (shown : (s.step x).stamp e y.process ≤ (s.step x).clock q y.process) :
    ∃ d z, (s.step x).events[d]? = some z ∧ z.process = q ∧ Past (s.step x).events e d := by
  by_cases own : q = x.process
  · subst own
    rw [clock_step_self, ← stamp_step_length] at shown
    have within : s.events.length < (s.step x).events.length := by
      show _ < (s.events ++ [x]).length
      rw [length_append]
      exact Nat.lt_succ_self _
    exact ⟨s.events.length, x, getElem?_concat_length, rfl,
      ok.step_past valid at_e within shown⟩
  · rw [clock_step_of_ne own] at shown
    rcases getElem?_concat_eq_some at_e with ⟨older, at_e⟩ | ⟨rfl, rfl⟩
    · rw [stamp_step_of_lt older] at shown
      obtain ⟨d, z, at_d, process, past⟩ := ok.known e y at_e q shown
      have old := (List.getElem?_eq_some_iff.mp at_d).1
      refine ⟨d, z, ?_, process, (past_concat_iff valid old).mpr past⟩
      exact (getElem?_append_left old).trans at_d
    · rw [stamp_step_length, ok.next_self valid] at shown
      exact absurd (ok.clock_le q y.process) (not_le.mpr shown)

theorem step : (s.step x).OK where
  valid := valid
  clock_le := ok.step_clock_le valid
  stamp_le _ within := ok.step_stamp_le valid within
  pos e y at_e := by
    rcases getElem?_concat_eq_some at_e with ⟨old, at_e⟩ | ⟨rfl, rfl⟩
    · rw [stamp_step_of_lt old]
      exact ok.pos e y at_e
    · rw [stamp_step_length, ok.next_self valid]
      exact Nat.succ_pos _
  below e y at_e := by
    rcases getElem?_concat_eq_some at_e with ⟨old, at_e⟩ | ⟨rfl, rfl⟩
    · rw [stamp_step_of_lt old]
      exact (ok.below e y at_e).trans (clock_le_step _)
    · rw [stamp_step_length, clock_step_self]
  mono _ _ within past := ok.step_mono valid within past
  past _ _ at_e _ within shown := ok.step_past valid at_e within shown
  known _ _ at_e _ shown := ok.step_known valid at_e shown

end

end OK

/-! ## Runs -/

theorem run_concat (events : List (Event P)) (x : Event P) :
    run (events ++ [x]) = (run events).step x := by
  unfold run
  rw [foldl_append]
  rfl

@[simp]
theorem events_run (events : List (Event P)) : (run events).events = events := by
  induction events using reverseRecOn with
  | nil => rfl
  | append_singleton events x ih =>
    rw [run_concat]
    show (run events).events ++ [x] = _
    rw [ih]

section

variable (valid : Valid events)

include valid

theorem ok_run : (run events).OK := by
  induction events using reverseRecOn with
  | nil =>
    exact {
      valid := valid
      clock_le := fun _ _ => le_rfl
      stamp_le := nofun
      pos := fun _ _ at_e => nomatch at_e
      below := fun _ _ at_e => nomatch at_e
      mono := nofun
      past := fun _ _ at_e => nomatch at_e
      known := fun _ _ at_e => nomatch at_e }
  | append_singleton events x ih =>
    rw [run_concat]
    apply (ih valid.of_concat).step
    rw [events_run]
    exact valid

/-- The order of the stamps is the causal order. -/
theorem stamp_le_stamp_iff (at_e : e < events.length) (at_f : f < events.length) :
    (run events).stamp e ≤ (run events).stamp f ↔ Past events e f := by
  have ok := ok_run valid
  constructor
  · intro below
    have shown := ok.past e events[e] (by rw [events_run]; exact getElem?_eq_getElem at_e) f
      (by rw [events_run]; exact at_f) (below _)
    rwa [events_run] at shown
  · intro past
    apply ok.mono e f <;> rw [events_run]
    · exact at_f
    · exact past

theorem clock_run_self (p : P) : (run events).clock p p = events.countP fun x => x.process = p := by
  induction events using reverseRecOn with
  | nil => rfl
  | append_singleton events x ih =>
    have ok := ok_run valid.of_concat
    rw [run_concat, countP_append, ← ih valid.of_concat]
    by_cases own : p = x.process
    · subst own
      rw [clock_step_self, ok.next_self (by rw [events_run]; exact valid)]
      simp
    · rw [clock_step_of_ne own]
      simp [Ne.symm own]

end

end State

end Hermes.Causality
