import Hermes.Cdc.ChangeFeed

/-!
# What a change feed delivers

The batches that a sink takes, one after the other, are a beginning of the events that the
stream makes, whatever the sink refuses; and a checkpoint names the last event of them.
-/

namespace Hermes.Cdc

open Bool List

/-- The events that a call delivers. -/
def SinkCall.delivered : SinkCall → List ChangeEvent
  | .publish events true => events
  | .publish _ false => []
  | .checkpoint _ _ => []

/-- The batches that the sink has taken, one after the other. -/
def published (calls : List SinkCall) : List ChangeEvent :=
  calls.flatMap SinkCall.delivered

/-- The events that the entries of a stream make, numbered from one on. -/
def built (config : ChangeFeedConfig) (stream : List WALEntry) : List ChangeEvent :=
  (stream.filter config.accepts).mapIdx fun i entry =>
    buildEvent config.startAt (UInt64.ofNat (i + 1)) entry

@[simp]
theorem buildEvent_eventID (fromVersion eventID : UInt64) (entry : WALEntry) :
    (buildEvent fromVersion eventID entry).eventID = eventID := by
  unfold buildEvent
  split
  · rfl
  · split <;> rfl

theorem built_concat (config : ChangeFeedConfig) (stream : List WALEntry) (entry : WALEntry) :
    built config (stream ++ [entry]) =
      built config stream ++
        if config.accepts entry then
          [buildEvent config.startAt (UInt64.ofNat ((built config stream).length + 1)) entry]
        else [] := by
  unfold built
  rw [filter_append]
  split
  · rename_i accepted
    rw [filter_singleton, accepted, cond_true, mapIdx_concat, length_mapIdx]
  · rename_i rejected
    rw [filter_singleton, not_eq_true _ |>.mp rejected, cond_false,
      append_nil, append_nil]

variable {config : ChangeFeedConfig} {event : ChangeEvent} {stream : List WALEntry}

/-- The events are numbered one after the other. -/
theorem built_eventID {i : ℕ} (found : (built config stream)[i]? = some event) :
    event.eventID = UInt64.ofNat (i + 1) := by
  rw [built, getElem?_mapIdx, Option.map_eq_some_iff] at found
  obtain ⟨entry, -, rfl⟩ := found
  exact buildEvent_eventID _ _ _

theorem built_getLast_eventID (last : (built config stream).getLast? = some event) :
    event.eventID = UInt64.ofNat (built config stream).length := by
  rw [List.getLast?_eq_getElem?] at last
  rw [built_eventID last]
  have := (List.getElem?_eq_some_iff.mp last).1
  congr 1
  omega

/-! ## Flushing -/

/-- What flushing can do. -/
inductive Flushes (f : ChangeFeed) : ChangeFeed → List SinkCall → Prop where
  | idle (empty : f.batch = []) : Flushes f f []
  | refused : Flushes f f [.publish f.batch false]
  | taken {f' : ChangeFeed} {last : ChangeEvent} {ok : Bool}
    (nonempty : f.batch.getLast? = some last) (config : f'.config = f.config)
    (counter : f'.lastEventID = last.eventID) (batch : f'.batch = []) :
    Flushes f f' [.publish f.batch true, .checkpoint last.eventID ok]

theorem flush_flushes (f : ChangeFeed) (sink : Answers) :
    Flushes f (f.flush sink).1 (f.flush sink).2 := by
  unfold ChangeFeed.flush
  cases last : f.batch.getLast? with
  | none => exact .idle (getLast?_eq_none_iff.mp last)
  | some event =>
    dsimp only
    split
    · exact .taken last rfl rfl rfl
    · exact .refused

/-- A checkpoint names the last event that was delivered before it. -/
def Checkpointed (calls : List SinkCall) : Prop :=
  ∀ i id ok, calls[i]? = some (.checkpoint id ok) →
    (published (calls.take i)).getLast?.map ChangeEvent.eventID = some id

/-- The batch is what has been built and not delivered, and the counter is the number of the
last event built. -/
structure Consistent (config : ChangeFeedConfig) (stream : List WALEntry)
    (calls : List SinkCall) (f : ChangeFeed) : Prop where
  config_eq : f.config = config
  split : published calls ++ f.batch = built config stream
  counter : f.lastEventID = UInt64.ofNat (built config stream).length
  checkpointed : Checkpointed calls

variable {calls : List SinkCall}

theorem Checkpointed.publish (checkpointed : Checkpointed calls) (events : List ChangeEvent)
    (ok : Bool) : Checkpointed (calls ++ [.publish events ok]) := by
  intro i id ok' found
  rcases Runs.getElem?_concat_eq_some found with ⟨old, found⟩ | ⟨-, new⟩
  · rw [take_append_of_le_length (Nat.le_of_lt old)]
    exact checkpointed i id ok' found
  · nomatch new

theorem Checkpointed.checkpoint (checkpointed : Checkpointed calls)
    (last : (published calls).getLast? = some event) (ok : Bool) :
    Checkpointed (calls ++ [.checkpoint event.eventID ok]) := by
  intro i id ok' found
  rcases Runs.getElem?_concat_eq_some found with ⟨old, found⟩ | ⟨rfl, new⟩
  · rw [take_append_of_le_length (Nat.le_of_lt old)]
    exact checkpointed i id ok' found
  · cases new
    rw [take_left' rfl, last]
    rfl

variable {config : ChangeFeedConfig} {stream : List WALEntry} {calls more : List SinkCall}
  {f f' : ChangeFeed}

theorem Consistent.flushes (consistent : Consistent config stream calls f)
    (flushes : Flushes f f' more) : Consistent config stream (calls ++ more) f' := by
  cases flushes with
  | idle =>
    rw [append_nil]
    exact consistent
  | refused =>
    constructor
    · exact consistent.config_eq
    · simpa [published, SinkCall.delivered] using consistent.split
    · exact consistent.counter
    · exact consistent.checkpointed.publish _ _
  | taken nonempty config_eq counter batch =>
    rename_i last ok
    have delivered : published (calls ++ [.publish f.batch true]) = built config stream := by
      rw [← consistent.split]
      simp [published, SinkCall.delivered]
    have final : (built config stream).getLast? = some last := by
      rw [← consistent.split, getLast?_append, nonempty]
      rfl
    constructor
    · exact config_eq.trans consistent.config_eq
    · rw [batch, ← delivered]
      simp [published, SinkCall.delivered]
    · rw [counter]
      exact built_getLast_eventID final
    · rw [← singleton_append, ← append_assoc]
      apply (consistent.checkpointed.publish f.batch true).checkpoint
      rw [delivered]
      exact final

theorem Consistent.receive (consistent : Consistent config stream calls f) (entry : WALEntry)
    (sink : Answers) :
    Consistent config (stream ++ [entry]) (calls ++ (f.receive entry sink).2)
      (f.receive entry sink).1 := by
  obtain ⟨rfl, split, counter, checkpointed⟩ := consistent
  unfold ChangeFeed.receive
  cases accepted : f.config.accepts entry with
  | false =>
    rw [if_neg Bool.false_ne_true, append_nil]
    constructor
    · rfl
    · simpa [built_concat, accepted] using split
    · simpa [built_concat, accepted] using counter
    · exact checkpointed
  | true =>
    have counted : f.lastEventID + 1 = UInt64.ofNat ((built f.config stream).length + 1) := by
      rw [counter, UInt64.ofNat_add]
      rfl
    have grown : Consistent f.config (stream ++ [entry]) calls
        { f with
          lastEventID := f.lastEventID + 1
          batch := f.batch ++ [buildEvent f.config.startAt (f.lastEventID + 1) entry] } := by
      constructor
      · rfl
      · rw [built_concat, if_pos accepted, ← split, counted, append_assoc, ← split]
      · rw [built_concat, if_pos accepted, length_append]
        exact counted
      · exact checkpointed
    rw [if_pos rfl]
    dsimp only
    split
    · exact grown.flushes (flush_flushes _ sink)
    · rw [append_nil]
      exact grown

/-! ## Runs -/

namespace Feeding

/-- What holds of a feed and its sink: the loop runs and is consistent, or it has returned
after the last flush of a consistent one. -/
inductive Sound (config : ChangeFeedConfig) (s : Feeding) : Prop where
  | running {f : ChangeFeed} (feed : s.feed = some f)
    (consistent : Consistent config s.stream s.calls f)
  | returned {f : ChangeFeed} (feed : s.feed = none)
    (consistent : Consistent config s.stream s.calls f)

variable {s : Feeding}

theorem Sound.consistent (sound : Sound config s) : ∃ f, Consistent config s.stream s.calls f := by
  cases sound with
  | running _ consistent => exact ⟨_, consistent⟩
  | returned _ consistent => exact ⟨_, consistent⟩

theorem sound_start (config : ChangeFeedConfig) : Sound config (start config) := by
  apply Sound.running rfl
  constructor
  · rfl
  · rfl
  · rfl
  · exact nofun

theorem Sound.step {s' : Feeding} (sound : Sound config s) {event : Input × Answers}
    (happens : s.step event = some s') : Sound config s' := by
  obtain ⟨f, feed, rfl⟩ := Option.map_eq_some_iff.mp happens
  cases sound with
  | returned finished => nomatch finished.symm.trans feed
  | running was consistent =>
    cases was.symm.trans feed
    obtain ⟨input, sink⟩ := event
    have flushed := consistent.flushes (flush_flushes f sink)
    cases input with
    | entry entry => exact .running rfl (consistent.receive entry sink)
    | ended | stop => exact .returned rfl flushed
    | tick => exact .running rfl flushed

theorem sound_of_reachable (reachable : Reachable config s) : Sound config s := by
  apply reachable.invariant
  · exact sound_start config
  · exact fun _ _ _ sound _ happens => sound.step happens

/-- What a feed has delivered is a beginning of what its stream makes, with consecutive
numbers, and every checkpoint names the last event that had been delivered. -/
theorem delivered_of_reachable {config : ChangeFeedConfig} {s : Feeding}
    (reachable : Reachable config s) :
    published s.calls <+: built config s.stream ∧
      (∀ i event, (published s.calls)[i]? = some event → event.eventID = UInt64.ofNat (i + 1)) ∧
      Checkpointed s.calls := by
  obtain ⟨f, consistent⟩ := (sound_of_reachable reachable).consistent
  refine ⟨⟨f.batch, consistent.split⟩, ?_, consistent.checkpointed⟩
  intro i event found
  have within := (List.getElem?_eq_some_iff.mp found).1
  rw [← List.getElem?_append_left within, consistent.split] at found
  exact built_eventID found

/-- Two entries of three have the prefix; the sink refuses the first batch and then takes
the events in two batches, the second one when the feed is stopped. -/
def rounds : List (Input × Answers) :=
  [(.entry { sequence := 1, key := [7, 1] }, ⟨false, false⟩), (.tick, ⟨true, false⟩),
    (.entry { sequence := 2, key := [8] }, ⟨true, true⟩),
    (.entry { sequence := 3, key := [7], deleted := true }, ⟨false, true⟩),
    (.stop, ⟨true, true⟩)]

theorem delivered_of_reachable_rounds :
    ∃ s, Reachable { id := "f", keyPrefix := [7], batchSize := 1 } s ∧
      (published s.calls).map ChangeEvent.version = [1, 3] ∧ s.calls.length = 6 ∧
      Checkpointed s.calls := by
  obtain ⟨s, reachable, versions, calls⟩ := Runs.exists_of_exec step (fun _ _ => True)
    (start { id := "f", keyPrefix := [7], batchSize := 1 }) rounds
    (P := fun s => (published s.calls).map ChangeEvent.version = [1, 3] ∧ s.calls.length = 6)
    (by decide +kernel)
  exact ⟨s, reachable, versions, calls, (delivered_of_reachable reachable).2.2⟩

end Feeding

end Hermes.Cdc
