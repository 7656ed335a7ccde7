import Hermes.Data.ByteOrder
import Hermes.Data.Slices

/-!
# The query planner

A query is cut into one query for each shard that its range or prefix may meet; the results
of the shards are gathered in the order they arrive in and merged.  Numbers are taken as
exact.
-/

namespace Hermes.Queries

open scoped ByteOrder

/-- A Go string used as a key. -/
abbrev Key := Bytes

/-- What a query keeps of the entries; without a function it keeps all. -/
abbrev Filter := Option (Key → Bytes → Bool)

inductive AggregationType where
  | aggNone
  | aggCount
  | aggSum
  | aggAvg
  | aggMin
  | aggMax
  deriving DecidableEq, Repr

structure Query where
  keyPrefix : Key := []
  startKey : Key := []
  endKey : Key := []
  filter : Filter := none
  aggregation : AggregationType := .aggNone
  limit : ℤ := 0
  /-- In nanoseconds. -/
  timeout : ℤ := 0

/-- The query sent to one shard. -/
structure ShardQuery where
  shardID : ℕ
  nodeID : String
  startKey : Key
  endKey : Key
  filter : Filter
  localAgg : AggregationType := .aggNone
  limit : ℤ

structure ExecutionPlan where
  shardPlans : List ShardQuery
  mergeOp : AggregationType
  finalLimit : ℤ

structure ShardInfo where
  shardID : ℕ
  startKey : Key
  endKey : Key
  leaderID : String
  deriving DecidableEq, Repr

structure QueryPlanner where
  shards : List ShardInfo

def maxStr (a b : Key) : Key :=
  if b < a then a else b

def minStr (a b : Key) : Key :=
  if a = [] then b
  else if b = [] then a
  else if a < b then a
  else b

/-- Whether `pruneShards` keeps a shard. -/
def affects (q : Query) (shard : ShardInfo) : Bool :=
  if q.startKey ≠ [] ∧ shard.endKey ≠ [] ∧ shard.endKey ≤ q.startKey then false
  else if q.endKey ≠ [] ∧ shard.startKey ≠ [] ∧ q.endKey ≤ shard.startKey then false
  else if q.keyPrefix ≠ [] then
    if shard.endKey ≠ [] ∧ shard.endKey < q.keyPrefix then false
    else if shard.startKey ≠ [] ∧ q.keyPrefix < shard.startKey ∧
        ¬ q.keyPrefix.isPrefixOf shard.startKey then
      (shard.startKey.take (min q.keyPrefix.length shard.startKey.length)).isPrefixOf q.keyPrefix
    else true
  else true

namespace QueryPlanner

variable (p : QueryPlanner) (q : Query)

def pruneShards : List ShardInfo :=
  p.shards.filter (affects q)

/-- The aggregation that is pushed down to a shard. -/
def localAgg : AggregationType → AggregationType
  | .aggNone => .aggNone
  | .aggCount => .aggCount
  | .aggSum => .aggSum
  | .aggAvg => .aggSum
  | .aggMin => .aggMin
  | .aggMax => .aggMax

/-- What a query asks of one shard. -/
def shardQuery (shard : ShardInfo) : ShardQuery where
  shardID := shard.shardID
  nodeID := shard.leaderID
  startKey := maxStr q.startKey shard.startKey
  endKey := minStr q.endKey shard.endKey
  filter := q.filter
  localAgg := localAgg q.aggregation
  limit := q.limit

def plan : ExecutionPlan where
  shardPlans := (p.pruneShards q).map (shardQuery q)
  mergeOp := q.aggregation
  finalLimit := q.limit

end QueryPlanner

structure KeyValue where
  key : Key
  value : Bytes
  deriving DecidableEq, Repr

structure ShardResult where
  shardID : ℕ := 0
  entries : List KeyValue := []
  count : ℤ := 0
  sum : ℚ := 0
  min : ℚ := 0
  max : ℚ := 0
  err : Option String := none

structure QueryResult where
  entries : List KeyValue := []
  count : ℤ := 0
  sum : ℚ := 0
  avg : ℚ := 0
  min : ℚ := 0
  max : ℚ := 0
  shardsQueried : ℕ := 0
  /-- Some shards failed. -/
  partialResult : Bool := false

namespace ScatterGather

/-- Keep the first entries when a limit is positive. -/
def cut (limit : ℤ) (entries : List KeyValue) : List KeyValue :=
  if limit > 0 ∧ (entries.length : ℤ) > limit then entries.take limit.toNat else entries

/-- A loop over the results of the shards that have not failed. -/
def loop {α : Type} (body : α → ShardResult → α) (final : α) (results : List ShardResult) : α :=
  results.foldl (fun final r => if r.err = none then body final r else final) final

def totalCount : List ShardResult → ℤ :=
  loop (fun total r => total + r.count) 0

def totalSum : List ShardResult → ℚ :=
  loop (fun total r => total + r.sum) 0

/-- The first minimum is taken, and then every smaller one. -/
def mergeMin : List ShardResult → ℚ × Bool :=
  loop (fun (min, first) r => if first ∨ r.min < min then (r.min, false) else (min, first))
    (0, true)

/-- Every maximum that is larger than the one before is taken, from zero on. -/
def mergeMax : List ShardResult → ℚ :=
  loop (fun max r => if max < r.max then r.max else max) 0

def allEntries : List ShardResult → List KeyValue :=
  loop (fun entries r => entries ++ r.entries) []

/-- `merge` combines shard results. -/
def merge (sorter : Slices.Sorter KeyValue Key) (plan : ExecutionPlan)
    (results : List ShardResult) : QueryResult :=
  let final : QueryResult := { partialResult := results.any fun r => r.err.isSome }
  match plan.mergeOp with
  | .aggCount => { final with count := totalCount results }
  | .aggSum => { final with sum := totalSum results }
  | .aggAvg =>
    if totalCount results > 0 then
      { final with
        avg := totalSum results / totalCount results
        count := totalCount results
        sum := totalSum results }
    else final
  | .aggMin => { final with min := (mergeMin results).1 }
  | .aggMax => { final with max := mergeMax results }
  | .aggNone =>
    let entries := cut plan.finalLimit (sorter.sort KeyValue.key (allEntries results))
    { final with entries := entries, count := entries.length }

/-- What executes a query on one shard. -/
abbrev ShardExecutor := ShardQuery → Except String ShardResult

/-- What is sent to the channel for a shard. -/
def scatter (executor : ShardExecutor) (sp : ShardQuery) : ShardResult :=
  match executor sp with
  | .ok result => result
  | .error err => { shardID := sp.shardID, err := some err }

/-- Receive from the channel until all shards have answered; none when the timeout comes
first. -/
def collect {α : Type} : (n : ℕ) → (received : List (Option α)) → Option (List α)
  | 0, _ => some []
  | n + 1, some result :: rest => (collect n rest).map (result :: ·)
  | _ + 1, _ => none

/-- `query timeout after %v`, with the duration. -/
structure Timeout where
  after : ℤ
  deriving DecidableEq, Repr

/-- `Execute`; each wait for the channel ends with the answer to a shard query or with the
timeout. -/
def execute (sorter : Slices.Sorter KeyValue Key) (planner : QueryPlanner)
    (executor : ShardExecutor) (q : Query) (arrivals : List (Option ShardQuery)) :
    Except Timeout QueryResult :=
  let plan := planner.plan q
  if plan.shardPlans.length = 0 then .ok {}
  else
    let timeout := if q.timeout = 0 then 30000000000 else q.timeout
    match collect plan.shardPlans.length (arrivals.map fun sp => sp.map (scatter executor)) with
    | none => .error ⟨timeout⟩
    | some shardResults =>
      .ok { merge sorter plan shardResults with shardsQueried := plan.shardPlans.length }

end ScatterGather

end Hermes.Queries
