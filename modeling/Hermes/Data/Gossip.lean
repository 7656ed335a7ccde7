import Hermes.Data.Causality

/-!
# Replicas that merge each other's states

Replicas of an object are updated on their own and merge states of other replicas, current
or old, several times and in any order.  What a replica holds is determined by the updates
in its causal past if updating and merging agree with adding to the past and with uniting
two of them.
-/

namespace Hermes.Gossip

open Causality List Option
open Runs (getElem?_concat_eq_some)

variable {P S Op : Type*}

/-- How a replicated object starts, is updated and is merged. -/
structure Object (P S Op : Type*) where
  init : P → S
  apply : S → Op → S
  merge : S → S → S

/-- A state of a replica: its first one, or the one after an event of the run. -/
inductive Source (P : Type*) where
  | first (replica : P)
  | after (event : ℕ)
  deriving DecidableEq

inductive Action (P Op : Type*) where
  | update (op : Op)
  | merge (source : Source P)
  deriving DecidableEq

/-- An event of a run, with the state of the replica after it. -/
structure Occurrence (P S Op : Type*) where
  process : P
  action : Action P Op
  state : S

/-- An event as causality sees it: merging a state receives from the event that the state
has come from. -/
def Occurrence.event (o : Occurrence P S Op) : Event P where
  process := o.process
  source :=
    match o.action with
    | .merge (.after event) => some event
    | .merge (.first _) => none
    | .update _ => none

/-- The events of a run as causality sees them. -/
def events (history : List (Occurrence P S Op)) : List (Event P) :=
  history.map Occurrence.event

@[simp]
theorem length_events (history : List (Occurrence P S Op)) :
    (events history).length = history.length :=
  length_map _

@[simp]
theorem events_concat (history : List (Occurrence P S Op)) (o : Occurrence P S Op) :
    events (history ++ [o]) = events history ++ [o.event] :=
  map_append

variable {e : ℕ}

theorem getElem?_events {history : List (Occurrence P S Op)} {x : Event P} :
    (events history)[e]? = some x ↔ ∃ o, history[e]? = some o ∧ o.event = x := by
  rw [events, getElem?_map, map_eq_some_iff]

/-- The replicas and what has happened. -/
structure Execution (P S Op : Type*) where
  replicas : P → S
  trace : List (Occurrence P S Op) := []

namespace Execution

/-- The causal past of what a replica holds. -/
def known (s : Execution P S Op) (p : P) : Set ℕ :=
  { e | ∃ d o, s.trace[d]? = some o ∧ o.process = p ∧ Past (events s.trace) e d }

/-- All that has happened is in the causal past of what a replica holds: it has merged, by
itself or through others, the last state of every replica. -/
def Complete (s : Execution P S Op) (p : P) : Prop :=
  ∀ e < s.trace.length, e ∈ s.known p

/-- The causal past of an event. -/
def past (s : Execution P S Op) (e : ℕ) : Set ℕ :=
  { d | Past (events s.trace) d e }

end Execution

namespace Object

variable (object : Object P S Op)

def start : Execution P S Op where
  replicas := object.init

/-- The state that a replica merges. -/
def resolve (s : Execution P S Op) : Source P → Option S
  | .first replica => some (object.init replica)
  | .after event => (s.trace[event]?).map fun o => o.state

/-- The state of a replica after an action. -/
def result (s : Execution P S Op) (p : P) : Action P Op → Option S
  | .update op => some (object.apply (s.replicas p) op)
  | .merge source => (object.resolve s source).map (object.merge (s.replicas p))

variable [DecidableEq P]

def happen (s : Execution P S Op) (o : Occurrence P S Op) : Execution P S Op where
  replicas := Function.update s.replicas o.process o.state
  trace := s.trace ++ [o]

def step (s : Execution P S Op) (call : P × Action P Op) : Option (Execution P S Op) :=
  (object.result s call.1 call.2).map fun state =>
    happen s { process := call.1, action := call.2, state := state }

/-- The executions that allowed calls lead to. -/
abbrev Reachable (allowed : Execution P S Op → P × Action P Op → Prop) :
    Execution P S Op → Prop :=
  Runs.Reachable object.step allowed object.start

end Object

/-! ## One more event -/

variable {p : P}

section Extension

variable {s : Execution P S Op} {o : Occurrence P S Op}

/-- What an event receives is in the past of the events that were there before. -/
def received (s : Execution P S Op) (o : Occurrence P S Op) : Set ℕ :=
  { e | ∃ d, o.event.source = some d ∧ Past (events s.trace) e d }

theorem lt_of_mem_known (valid : Valid (events s.trace)) (mem : e ∈ s.known p) :
    e < s.trace.length := by
  obtain ⟨d, x, at_d, -, past⟩ := mem
  exact (past.le valid).trans_lt (List.getElem?_eq_some_iff.mp at_d).1

variable [DecidableEq P]

section

variable (valid : Valid (events (s.trace ++ [o])))

include valid

/-- The past of a new event is what its replica knew and what it receives. -/
theorem past_length :
    (Object.happen s o).past s.trace.length =
      insert s.trace.length (s.known o.process ∪ received s o) := by
  rw [events_concat] at valid
  ext e
  show Past (events (s.trace ++ [o])) e s.trace.length ↔ _
  rw [events_concat, ← length_events, past_length_iff valid]
  apply or_congr_right
  constructor
  · rintro ⟨d, past, within, ⟨x, at_d, same⟩ | source⟩
    · obtain ⟨y, found, rfl⟩ := getElem?_events.mp at_d
      exact .inl ⟨d, y, found, same, past⟩
    · exact .inr ⟨d, source, past⟩
  · rintro (⟨d, y, at_d, same, past⟩ | ⟨d, source, past⟩)
    · have found := getElem?_events.mpr ⟨y, at_d, rfl⟩
      exact ⟨d, past, (List.getElem?_eq_some_iff.mp found).1, .inl ⟨_, found, same⟩⟩
    · exact ⟨d, past, valid _ _ getElem?_concat_length d source, .inr source⟩

/-- Old events keep their pasts. -/
theorem past_of_lt (old : e < s.trace.length) : (Object.happen s o).past e = s.past e := by
  rw [events_concat] at valid
  ext d
  show Past (events (s.trace ++ [o])) d e ↔ Past (events s.trace) d e
  rw [events_concat, past_concat_iff valid (by simpa using old)]

/-- A new event adds its past to what its own replica knows. -/
theorem mem_known_happen : e ∈ (Object.happen s o).known p ↔
    e ∈ s.known p ∨ o.process = p ∧ e ∈ (Object.happen s o).past s.trace.length := by
  constructor
  · rintro ⟨d, x, at_d, process, past⟩
    have past : e ∈ (Object.happen s o).past d := past
    rcases getElem?_concat_eq_some at_d with ⟨old, at_d⟩ | ⟨rfl, rfl⟩
    · rw [past_of_lt valid old] at past
      exact .inl ⟨d, x, at_d, process, past⟩
    · exact .inr ⟨process, past⟩
  · rintro (⟨d, x, at_d, process, past⟩ | ⟨process, past⟩)
    · have old := (List.getElem?_eq_some_iff.mp at_d).1
      have past : e ∈ s.past d := past
      rw [← past_of_lt valid old] at past
      refine ⟨d, x, ?_, process, past⟩
      rw [Object.happen, getElem?_append_left old]
      exact at_d
    · exact ⟨s.trace.length, o, getElem?_concat_length, process, past⟩

theorem known_self :
    (Object.happen s o).known o.process = (Object.happen s o).past s.trace.length := by
  ext e
  rw [mem_known_happen valid, past_length valid]
  constructor
  · rintro (known | ⟨-, past⟩)
    · exact .inr (.inl known)
    · exact past
  · exact fun past => .inr ⟨rfl, past⟩

theorem known_of_ne (other : p ≠ o.process) : (Object.happen s o).known p = s.known p := by
  ext e
  rw [mem_known_happen valid]
  exact or_iff_left fun new => other new.1.symm

end

end Extension

/-! ## Runs -/

variable [DecidableEq P] {object : Object P S Op}
  {allowed : Execution P S Op → P × Action P Op → Prop} {s s' : Execution P S Op}

variable {call : P × Action P Op}

/-- A call adds one event. -/
theorem Object.step_eq_some (happens : object.step s call = some s') :
    ∃ state, object.result s call.1 call.2 = some state ∧
      s' = happen s { process := call.1, action := call.2, state := state } := by
  obtain ⟨state, result, eq⟩ := map_eq_some_iff.mp happens
  exact ⟨state, result, eq.symm⟩

variable {action : Action P Op} {state : S}

omit [DecidableEq P] in
/-- Merging takes states of earlier events. -/
theorem valid_concat (valid : Valid (events s.trace))
    (result : object.result s p action = some state) :
    Valid (events (s.trace ++ [{ process := p, action := action, state := state }])) := by
  rw [events_concat]
  intro f y at_f e received
  rcases getElem?_concat_eq_some at_f with ⟨-, at_f⟩ | ⟨rfl, rfl⟩
  · exact valid f y at_f e received
  · match action, received with
    | .merge (.after sent), rfl =>
      obtain ⟨_, resolved, -⟩ := map_eq_some_iff.mp result
      obtain ⟨_, at_sent, -⟩ := map_eq_some_iff.mp resolved
      rw [length_events]
      exact (List.getElem?_eq_some_iff.mp at_sent).1

theorem valid_of_reachable (reachable : object.Reachable allowed s) : Valid (events s.trace) := by
  apply reachable.invariant (I := fun s => Valid (events s.trace))
  · exact fun _ _ at_f => nomatch at_f
  · intro s call s' valid _ happens
    obtain ⟨state, result, rfl⟩ := Object.step_eq_some happens
    exact valid_concat valid result

/-- A relation between states and sets of events, in a run, that the calls respect. -/
structure Tracks (object : Object P S Op) (allowed : Execution P S Op → P × Action P Op → Prop)
    (Represents : List (Occurrence P S Op) → S → Set ℕ → Prop) : Prop where
  first : ∀ history p, Represents history (object.init p) ∅
  later : ∀ history o state known, Valid (events (history ++ [o])) →
    (∀ e ∈ known, e < history.length) → Represents history state known →
    Represents (history ++ [o]) state known
  merge : ∀ history a b A B, Represents history a A → Represents history b B →
    Represents history (object.merge a b) (A ∪ B)
  merged : ∀ history o source state known, o.action = .merge source →
    (∀ e (x : Occurrence P S Op), history[e]? = some x → x.process = o.process → e ∈ known) →
    Represents (history ++ [o]) state known →
    Represents (history ++ [o]) state (insert history.length known)
  update : ∀ s p op, object.Reachable allowed s → allowed s (p, .update op) →
    Represents s.trace (s.replicas p) (s.known p) →
    Represents (s.trace ++ [⟨p, .update op, object.apply (s.replicas p) op⟩])
      (object.apply (s.replicas p) op) (insert s.trace.length (s.known p))

/-- Every state represents its causal past. -/
structure Tracked (Represents : List (Occurrence P S Op) → S → Set ℕ → Prop)
    (s : Execution P S Op) : Prop where
  replica : ∀ p, Represents s.trace (s.replicas p) (s.known p)
  state : ∀ e o, s.trace[e]? = some o → Represents s.trace o.state (s.past e)

variable {Represents : List (Occurrence P S Op) → S → Set ℕ → Prop}

theorem Tracks.resolve (tracks : Tracks object allowed Represents) (tracked : Tracked Represents s)
    {o : Occurrence P S Op} {source : Source P} (merging : o.action = .merge source)
    (resolved : object.resolve s source = some state) :
    Represents s.trace state (received s o) := by
  cases source with
  | first replica =>
    cases resolved
    have nothing : received s o = ∅ := by
      simp [received, Occurrence.event, merging]
    rw [nothing]
    exact tracks.first _ _
  | after event =>
    obtain ⟨sent, at_event, rfl⟩ := map_eq_some_iff.mp resolved
    have past : received s o = s.past event := by
      simp [received, Occurrence.event, merging, Execution.past]
    rw [past]
    exact tracked.state event sent at_event

section

variable (tracks : Tracks object allowed Represents) (reachable : object.Reachable allowed s)

include tracks reachable

theorem Tracks.result (tracked : Tracked Represents s) (ok : allowed s (p, action))
    (result : object.result s p action = some state) :
    Represents (s.trace ++ [⟨p, action, state⟩]) state
      ((Object.happen s ⟨p, action, state⟩).past s.trace.length) := by
  have valid := valid_of_reachable reachable
  rw [past_length (valid_concat valid result)]
  cases action with
  | update op =>
    cases result
    have nothing : received s ⟨p, .update op, object.apply (s.replicas p) op⟩ = ∅ := by
      simp [received, Occurrence.event]
    rw [nothing, Set.union_empty]
    exact tracks.update s p op reachable ok (tracked.replica p)
  | merge source =>
    obtain ⟨other, resolved, rfl⟩ := map_eq_some_iff.mp result
    have longer := valid_concat valid result
    apply tracks.merged _ _ _ _ _ rfl fun e x at_e process =>
      .inl ⟨e, x, at_e, process, .refl⟩
    apply tracks.later _ _ _ _ longer
    · rintro e (mem | ⟨d, source, past⟩)
      · exact lt_of_mem_known valid mem
      · rw [events_concat] at longer
        have earlier := longer _ _ getElem?_concat_length d source
        rw [length_events] at earlier
        exact (past.le valid).trans_lt earlier
    · exact tracks.merge _ _ _ _ _ (tracked.replica p) (tracks.resolve tracked rfl resolved)

theorem Tracks.step (tracked : Tracked Represents s) (ok : allowed s call)
    (happens : object.step s call = some s') : Tracked Represents s' := by
  obtain ⟨state, result, rfl⟩ := Object.step_eq_some happens
  have valid := valid_of_reachable reachable
  have longer := valid_concat valid result
  have new := tracks.result reachable tracked ok result
  constructor
  · intro p
    by_cases own : p = call.1
    · subst own
      have known := known_self longer
      rw [known]
      simpa [Object.happen] using new
    · rw [known_of_ne longer own]
      have kept := tracks.later _ _ _ _ longer (fun e => lt_of_mem_known valid)
        (tracked.replica p)
      simpa [Object.happen, own] using kept
  · intro e o at_e
    rcases getElem?_concat_eq_some at_e with ⟨old, at_e⟩ | ⟨rfl, rfl⟩
    · rw [past_of_lt longer old]
      apply tracks.later _ _ _ _ longer _ (tracked.state e o at_e)
      exact fun d past => (Past.le valid past).trans_lt old
    · exact new

/-- In every run the states represent their causal pasts. -/
theorem Tracks.tracked : Tracked Represents s := by
  induction reachable with
  | start =>
    constructor
    · intro p
      have nothing : object.start.known p = ∅ := by
        simp [Execution.known, Object.start]
      rw [nothing]
      exact tracks.first _ p
    · exact fun _ _ at_e => nomatch at_e
  | next reachable ok happens ih => exact tracks.step reachable ih ok happens

end

end Hermes.Gossip
