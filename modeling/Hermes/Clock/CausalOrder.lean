import Hermes.Clock.VectorClock

/-!
# Vector clocks and causality

Processes with a vector clock each tick, send and receive in any order.  Their vectors
represent the stamps of vector time, so that comparing two vectors decides which of two
events happened before the other.
-/

namespace Hermes.Clock

open Function List
open Causality (Event State Valid)

/-- What a process does: an event of its own, a message, or taking the vector that an
earlier event has sent. -/
inductive Kind where
  | tick
  | send
  | receive (sent : ℕ)
  deriving DecidableEq, Repr

/-- An event and the vector that the clock has returned for it. -/
structure Occurrence where
  process : NodeID
  kind : Kind
  vector : TimeVector

/-- The clocks of the processes and what has happened. -/
structure Execution where
  clocks : NodeID → VectorClock
  trace : List Occurrence := []

/-- An event as vector time sees it. -/
def causal (process : NodeID) (kind : Kind) : Event NodeID where
  process := process
  source :=
    match kind with
    | .receive sent => some sent
    | .tick | .send => none

namespace Execution

def initial (peers : NodeID → List NodeID) : Execution where
  clocks process := .new process (peers process)

/-- The call of an event.  A message may be received several times, and in any order. -/
def call (s : Execution) (process : NodeID) : Kind → Option (VectorClock × TimeVector)
  | .tick => some (s.clocks process).tick
  | .send => some (s.clocks process).send
  | .receive sent =>
    match s.trace[sent]? with
    | none => none
    | some o => if o.kind = .send then some ((s.clocks process).receive o.vector) else none

def step (s : Execution) (process : NodeID) (kind : Kind) : Option Execution :=
  match s.call process kind with
  | none => none
  | some (vc, vector) => some {
    clocks := Function.update s.clocks process vc
    trace := s.trace ++ [{ process := process, kind := kind, vector := vector }] }

/-- What processes with any initial peers can reach. -/
inductive Reachable (peers : NodeID → List NodeID) : Execution → Prop where
  | initial : Reachable peers (initial peers)
  | step {s s' : Execution} {process : NodeID} {kind : Kind} (reachable : Reachable peers s)
    (next : s.step process kind = some s') : Reachable peers s'

def events (s : Execution) : List (Event NodeID) :=
  s.trace.map fun o => causal o.process o.kind

/-- One event of a run happened before another one. -/
def HappenedBefore (s : Execution) : ℕ → ℕ → Prop :=
  Causality.HappenedBefore s.events

/-- The vectors of an execution represent vector time. -/
structure Simulates (s : Execution) : Prop where
  valid : Valid s.events
  nodeID : ∀ process, (s.clocks process).nodeID = process
  clock : ∀ process, (s.clocks process).vector.Represents ((State.run s.events).clock process)
  stamp : ∀ e (o : Occurrence), s.trace[e]? = some o →
    o.vector.Represents ((State.run s.events).stamp e)

/-- The vector of a call, and the event it stands for. -/
structure Returns (s : Execution) (process : NodeID) (kind : Kind) (vc : VectorClock)
    (vector : TimeVector) : Prop where
  valid : Valid (s.events ++ [causal process kind])
  nodeID : vc.nodeID = process
  same : vc.vector = vector
  represents : vector.Represents ((State.run s.events).next (causal process kind))

variable {s : Execution} {process : NodeID} {kind : Kind}

theorem length_events (s : Execution) : s.events.length = s.trace.length :=
  length_map _

/-- An event that receives from nowhere, or from an earlier event, can be added. -/
theorem Simulates.valid_concat (sim : s.Simulates)
    (earlier : ∀ sent, kind = .receive sent → sent < s.trace.length) :
    Valid (s.events ++ [causal process kind]) := by
  intro f y at_f e received
  rcases Runs.getElem?_concat_eq_some at_f with ⟨-, at_f⟩ | ⟨rfl, rfl⟩
  · exact sim.valid f y at_f e received
  · rw [length_events]
    cases kind with
    | tick | send => nomatch received
    | receive sent =>
      cases received
      exact earlier e rfl

variable {vc : VectorClock}

/-- Incrementing a merged vector gives the stamp of the next event. -/
theorem Simulates.returns_increment (sim : s.Simulates)
    (small : s.trace.length + 1 < 2 ^ 63) (nodeID : vc.nodeID = process)
    (earlier : ∀ sent, kind = .receive sent → sent < s.trace.length)
    (merged : vc.vector.Represents ((State.run s.events).clock process ⊔
      (State.run s.events).received (causal process kind))) :
    s.Returns process kind vc.increment vc.increment.vector := by
  have valid : Valid (s.events ++ [causal process kind]) := sim.valid_concat earlier
  have ok := State.ok_run sim.valid
  refine ⟨valid, nodeID, rfl, ?_⟩
  subst nodeID
  apply represents_increment merged
  have own : (causal vc.nodeID kind).process = vc.nodeID := rfl
  have next := ok.next_self (x := causal vc.nodeID kind) (by rw [State.events_run]; exact valid)
  rw [State.next, update_self, own, State.clock_run_self sim.valid] at next
  have bound := countP_le_length (p := fun x => decide (x.process = vc.nodeID)) (l := s.events)
  rw [length_events] at bound
  omega

/-- Every call returns the stamp of its event. -/
theorem Simulates.call (sim : s.Simulates) {vector : TimeVector}
    (small : s.trace.length + 1 < 2 ^ 63) (called : s.call process kind = some (vc, vector)) :
    s.Returns process kind vc vector := by
  have own := sim.nodeID process
  have current := sim.clock process
  have nothing : (State.run s.events).clock process ⊔ (fun _ => 0) =
      (State.run s.events).clock process :=
    sup_eq_left.mpr fun _ => Nat.zero_le _
  cases kind with
  | tick | send =>
    cases called
    exact sim.returns_increment small own nofun (nothing.symm ▸ current)
  | receive sent =>
    rw [Execution.call] at called
    split at called
    · nomatch called
    · rename_i o at_sent
      split at called
      · cases called
        have earlier := (List.getElem?_eq_some_iff.mp at_sent).1
        apply sim.returns_increment small
        · exact own
        · rintro _ ⟨⟩
          exact earlier
        · exact represents_merge current (sim.stamp sent o at_sent)
      · nomatch called

/-- The vectors go on to represent vector time. -/
theorem Simulates.step {s' : Execution} (sim : s.Simulates) (small : s'.trace.length < 2 ^ 63)
    (next : s.step process kind = some s') : s'.Simulates := by
  unfold Execution.step at next
  split at next
  · nomatch next
  · rename_i vc vector called
    cases next
    rw [length_append] at small
    have returns := sim.call small called
    have events : Execution.events {
        clocks := update s.clocks process vc
        trace := s.trace ++ [{ process := process, kind := kind, vector := vector }] } =
        s.events ++ [causal process kind] := by
      unfold Execution.events
      rw [map_append]
      rfl
    have length := length_events s
    constructor
    · rw [events]
      exact returns.valid
    · intro p
      dsimp only
      by_cases own : p = process
      · rw [own, update_self]
        exact returns.nodeID
      · rw [update_of_ne own]
        exact sim.nodeID p
    · intro p
      dsimp only
      rw [events, State.run_concat]
      by_cases own : p = process
      · rw [own, update_self, returns.same]
        exact (State.clock_step_self (x := causal process kind)).symm ▸ returns.represents
      · rw [update_of_ne own, State.clock_step_of_ne own]
        exact sim.clock p
    · intro e o at_e
      rw [events, State.run_concat]
      rcases lt_or_ge e s.trace.length with old | new
      · rw [getElem?_append_left old] at at_e
        rw [State.stamp_step_of_lt (by rw [State.events_run, length]; exact old)]
        exact sim.stamp e o at_e
      · have here : e = s.trace.length := by
          have := (List.getElem?_eq_some_iff.mp at_e).1
          rw [length_append, length_singleton] at this
          omega
        rw [here, getElem?_concat_length] at at_e
        cases at_e
        have stamped := State.stamp_step_length (s := State.run s.events) (x := causal process kind)
        rw [State.events_run, length, ← here] at stamped
        rw [stamped]
        exact returns.represents

theorem Simulates.initial (peers : NodeID → List NodeID) : (initial peers).Simulates where
  valid := fun _ _ at_f => nomatch at_f
  nodeID _ := rfl
  clock process := VectorClock.represents_new process (peers process)
  stamp _ _ at_e := nomatch at_e

/-- In every run that is not too long the vectors represent vector time. -/
theorem Reachable.simulates {peers : NodeID → List NodeID} (reachable : Reachable peers s)
    (small : s.trace.length < 2 ^ 63) : s.Simulates := by
  induction reachable with
  | initial => exact .initial peers
  | @step s s' process kind _ next ih =>
    have longer : s'.trace.length = s.trace.length + 1 := by
      unfold Execution.step at next
      split at next
      · nomatch next
      · cases next
        rw [length_append, length_singleton]
    exact (ih (by omega)).step small next

/-- One vector is less than another one at some node unless its event is in the past of
the other event, or is the same. -/
theorem Simulates.exists_time_lt_iff (sim : s.Simulates) {e f : ℕ} {a b : Occurrence}
    (at_e : s.trace[e]? = some a) (at_f : s.trace[f]? = some b) :
    (∃ node, a.vector.time node < b.vector.time node) ↔ ¬ Causality.Past s.events f e := by
  have within_e := (List.getElem?_eq_some_iff.mp at_e).1
  have within_f := (List.getElem?_eq_some_iff.mp at_f).1
  rw [← length_events] at within_e within_f
  rw [← State.stamp_le_stamp_iff sim.valid within_f within_e, Pi.le_def, not_forall]
  apply exists_congr
  intro node
  rw [Int64.lt_iff_toInt_lt, sim.stamp e a at_e, sim.stamp f b at_f, Int.ofNat_lt, not_le]

end Execution

open Execution in
/-- Comparing the vectors of two events says how the events are related: one happened
before the other, they are the same, or neither happened before the other. -/
theorem compare_iff_happenedBefore {peers : NodeID → List NodeID} {s : Execution}
    (reachable : Reachable peers s) (small : s.trace.length < 2 ^ 63) {e f : ℕ}
    {a b : Occurrence} (at_e : s.trace[e]? = some a) (at_f : s.trace[f]? = some b) :
    (compare a.vector b.vector = .before ↔ s.HappenedBefore e f) ∧
      (compare a.vector b.vector = .after ↔ s.HappenedBefore f e) ∧
      (compare a.vector b.vector = .concurrent ↔
        e ≠ f ∧ ¬ s.HappenedBefore e f ∧ ¬ s.HappenedBefore f e) ∧
      (compare a.vector b.vector = .equal ↔ e = f) := by
  classical
  have sim := reachable.simulates small
  have e_less := sim.exists_time_lt_iff at_e at_f
  have f_less := sim.exists_time_lt_iff at_f at_e
  have verdict_eq : compare a.vector b.vector =
      verdict (¬ Causality.Past s.events f e) (¬ Causality.Past s.events e f) :=
    compare_eq a.vector b.vector (by rw [e_less, decide_eq_true_iff])
      (by rw [f_less, decide_eq_true_iff])
  unfold HappenedBefore
  rw [verdict_eq, Causality.happenedBefore_iff sim.valid, Causality.happenedBefore_iff sim.valid,
    ne_eq, Causality.eq_iff_past sim.valid]
  by_cases forth : Causality.Past s.events e f <;> by_cases back : Causality.Past s.events f e <;>
    simp [verdict, forth, back]

/-- A process sends, another one receives: comparing the two vectors finds that the first
event happened before the second one. -/
theorem happenedBefore_received :
    ∃ s a b, Execution.Reachable (fun _ => []) s ∧ s.trace.length < 2 ^ 63 ∧
      s.trace[0]? = some a ∧ s.trace[1]? = some b ∧ s.HappenedBefore 0 1 := by
  have sent := @Execution.Reachable.step (fun _ => []) _ _ "a" .send .initial rfl
  have received := @Execution.Reachable.step (fun _ => []) _ _ "b" (.receive 0) sent rfl
  exact ⟨_, _, _, received, by decide, rfl, rfl,
    (compare_iff_happenedBefore received (by decide) rfl rfl).1.mp (by decide)⟩

end Hermes.Clock
