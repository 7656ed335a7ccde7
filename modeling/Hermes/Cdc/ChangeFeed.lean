import Hermes.Data.Bytes
import Hermes.Data.Runs

/-!
# Change feeds

A feed reads entries of the write-ahead log from a stream, turns those with the right prefix
into events and delivers them to a sink in batches.  A batch that the sink does not take
stays, grows and is offered again.

In every round the loop of the feed receives an entry, the end of the stream, a tick of its
timer or the stop, whichever comes; what the sink answers is part of what is received.
-/

namespace Hermes.Cdc

inductive ChangeOp where
  | insert
  | update
  | delete
  deriving DecidableEq, Repr

structure ChangeEvent where
  eventID : UInt64
  timestamp : Int
  op : ChangeOp := .insert
  key : Bytes
  beforeValue : Option Bytes := none
  afterValue : Option Bytes := none
  version : UInt64
  shardID : UInt64
  nodeID : String
  deriving DecidableEq, Repr

structure WALEntry where
  sequence : UInt64
  timestamp : Int := 0
  key : Bytes
  value : Bytes := []
  deleted : Bool := false
  shardID : UInt64 := 0
  nodeID : String := ""
  deriving DecidableEq, Repr

structure ChangeFeedConfig where
  id : String
  /-- Only changes of keys with this prefix are emitted; the empty one is a prefix of all. -/
  keyPrefix : Bytes := []
  startAt : UInt64 := 0
  batchSize : ℕ := 100
  deriving DecidableEq, Repr

/-- The filter of the loop. -/
def ChangeFeedConfig.accepts (config : ChangeFeedConfig) (entry : WALEntry) : Bool :=
  if config.keyPrefix ≠ [] then
    !(decide (entry.key.length < config.keyPrefix.length) ||
      decide (entry.key.take config.keyPrefix.length ≠ config.keyPrefix))
  else true

/-- The event of an entry. -/
def buildEvent (fromVersion eventID : UInt64) (entry : WALEntry) : ChangeEvent :=
  let event : ChangeEvent :=
    { eventID := eventID
      timestamp := entry.timestamp
      key := entry.key
      version := entry.sequence
      shardID := entry.shardID
      nodeID := entry.nodeID }
  if entry.deleted then { event with op := .delete }
  else if entry.sequence ≤ fromVersion then
    { event with op := .update, afterValue := some entry.value }
  else { event with op := .insert, afterValue := some entry.value }

/-- A call of the sink, and whether it succeeds. -/
inductive SinkCall where
  | publish (events : List ChangeEvent) (ok : Bool)
  | checkpoint (eventID : UInt64) (ok : Bool)
  deriving DecidableEq, Repr

/-- What the sink answers if it is called. -/
structure Answers where
  publish : Bool
  checkpoint : Bool
  deriving DecidableEq, Repr

/-- A feed whose loop runs, with the variable `batch` of it. -/
structure ChangeFeed where
  config : ChangeFeedConfig
  lastEventID : UInt64 := 0
  eventsDelivered : UInt64 := 0
  batch : List ChangeEvent := []
  deriving DecidableEq, Repr

namespace ChangeFeed

/-- The function `flush` of the loop. -/
def flush (f : ChangeFeed) (sink : Answers) : ChangeFeed × List SinkCall :=
  match f.batch.getLast? with
  | none => (f, [])
  | some last =>
    if sink.publish then
      ({ f with
          eventsDelivered := f.eventsDelivered + UInt64.ofNat f.batch.length
          lastEventID := last.eventID
          batch := [] },
        [.publish f.batch true, .checkpoint last.eventID sink.checkpoint])
    else (f, [.publish f.batch false])

/-- The case of an entry. -/
def receive (f : ChangeFeed) (entry : WALEntry) (sink : Answers) : ChangeFeed × List SinkCall :=
  if f.config.accepts entry then
    let f := { f with lastEventID := f.lastEventID + 1 }
    let f := { f with
      batch := f.batch ++ [buildEvent f.config.startAt f.lastEventID entry] }
    if f.batch.length ≥ f.config.batchSize then f.flush sink else (f, [])
  else (f, [])

end ChangeFeed

/-- What the loop receives in a round. -/
inductive Input where
  | entry (entry : WALEntry)
  | ended
  | tick
  | stop
  deriving DecidableEq, Repr

/-- A feed, or none after its loop has returned, with the stream so far and the calls of the
sink. -/
structure Feeding where
  feed : Option ChangeFeed
  stream : List WALEntry := []
  calls : List SinkCall := []
  deriving DecidableEq, Repr

namespace Feeding

/-- A round of the loop of `run`. -/
def step (s : Feeding) (event : Input × Answers) : Option Feeding :=
  s.feed.map fun f =>
    match event.1 with
    | .entry entry =>
      let (f, calls) := f.receive entry event.2
      { feed := some f, stream := s.stream ++ [entry], calls := s.calls ++ calls }
    | .ended | .stop => { s with feed := none, calls := s.calls ++ (f.flush event.2).2 }
    | .tick =>
      let (f, calls) := f.flush event.2
      { s with feed := some f, calls := s.calls ++ calls }

/-- A new feed whose stream has been opened. -/
def start (config : ChangeFeedConfig) : Feeding where
  feed := some { config := config }

/-- What a feed and its sink can do. -/
abbrev Reachable (config : ChangeFeedConfig) : Feeding → Prop :=
  Runs.Reachable step (fun _ _ => True) (start config)

end Feeding

end Hermes.Cdc
