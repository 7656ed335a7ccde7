import Hermes.Queries.Planner

/-!
# Shards with data

The planner sees the ranges of the shards; the entries are where their keys belong.  The
query for a shard asks for the part of the range the shard has, and a shard that is left out
has no entry that the query asks for.
-/

namespace Hermes.Queries

open scoped ByteOrder
open QueryPlanner ScatterGather

/-- Whether a key is in a range, which an empty end leaves open. -/
def inRange (startKey endKey key : Key) : Bool :=
  startKey ≤ key ∧ (endKey = [] ∨ key < endKey)

variable {key : Key}

theorem inRange_iff {startKey endKey : Key} :
    inRange startKey endKey key = true ↔ startKey ≤ key ∧ (endKey = [] ∨ key < endKey) :=
  decide_eq_true_iff

/-- A shard with the entries it holds, in key order. -/
structure Shard where
  info : ShardInfo
  entries : List KeyValue
  owned : ∀ e ∈ entries, inRange info.startKey info.endKey e.key
  sorted : entries.Pairwise fun a b => a.key < b.key

/-- Two shards that meet at `m`; the first holds `a` and `ab` and the second holds `z`. -/
def halves : List Shard :=
  [⟨⟨0, [], [109], "n"⟩, [⟨[97], [3]⟩, ⟨[97, 98], [5]⟩], by decide, by decide⟩,
    ⟨⟨1, [109], [], "n"⟩, [⟨[122], [7]⟩], by decide, by decide⟩]

/-- Whether an entry passes a filter. -/
def passes (filter : Filter) (e : KeyValue) : Bool :=
  filter.all fun f => f e.key e.value

/-- Whether an entry is in the range of a query and passes its filter. -/
def Query.admits (q : Query) (e : KeyValue) : Bool :=
  inRange q.startKey q.endKey e.key && passes q.filter e

def ShardQuery.admits (sq : ShardQuery) (e : KeyValue) : Bool :=
  inRange sq.startKey sq.endKey e.key && passes sq.filter e

variable {q : Query}

theorem maxStr_le {a b : Key} : maxStr a b ≤ key ↔ a ≤ key ∧ b ≤ key := by
  rw [maxStr]
  split
  · rename_i less
    exact (and_iff_left_of_imp less.le.trans).symm
  · rename_i notLess
    exact (and_iff_right_of_imp (not_lt.mp notLess).trans).symm

theorem lt_minStr {a b : Key} :
    (minStr a b = [] ∨ key < minStr a b) ↔ (a = [] ∨ key < a) ∧ (b = [] ∨ key < b) := by
  rw [minStr]
  split
  · simp [*]
  · split
    · simp [*]
    · rename_i bounded bounded'
      simp only [bounded, bounded']
      split
      · rename_i less
        simp only [bounded, false_or]
        exact (and_iff_left_of_imp fun below => below.trans less).symm
      · rename_i notLess
        simp only [bounded', false_or]
        exact (and_iff_right_of_imp fun below => below.trans_le (not_lt.mp notLess)).symm

variable {info : ShardInfo}

theorem inRange_shardQuery :
    inRange (shardQuery q info).startKey (shardQuery q info).endKey key = true ↔
      inRange q.startKey q.endKey key = true ∧ inRange info.startKey info.endKey key = true := by
  rw [inRange_iff, inRange_iff, inRange_iff, shardQuery, maxStr_le, lt_minStr]
  tauto

theorem Shard.admits_shardQuery (s : Shard) {e : KeyValue} (mem : e ∈ s.entries) :
    (shardQuery q s.info).admits e = q.admits e := by
  have range : inRange (shardQuery q s.info).startKey (shardQuery q s.info).endKey e.key =
      inRange q.startKey q.endKey e.key := by
    rw [Bool.eq_iff_iff, inRange_shardQuery, and_iff_left (s.owned e mem)]
  rw [ShardQuery.admits, range]
  rfl

/-- A shard that holds a key of the range with the prefix is kept. -/
theorem affects_of_inRange (asked : inRange q.startKey q.endKey key = true)
    (held : inRange info.startKey info.endKey key = true) (begins : q.keyPrefix <+: key) :
    affects q info = true := by
  rw [inRange_iff] at asked held
  have start : ¬ (q.startKey ≠ [] ∧ info.endKey ≠ [] ∧ info.endKey ≤ q.startKey) := by
    rintro ⟨-, bounded, after⟩
    exact (held.2.resolve_left bounded).not_ge (after.trans asked.1)
  have finish : ¬ (q.endKey ≠ [] ∧ info.startKey ≠ [] ∧ q.endKey ≤ info.startKey) := by
    rintro ⟨bounded, -, before⟩
    exact (asked.2.resolve_left bounded).not_ge (before.trans held.1)
  have below : ¬ (info.endKey ≠ [] ∧ info.endKey < q.keyPrefix) := by
    rintro ⟨bounded, less⟩
    exact (held.2.resolve_left bounded).not_gt (less.trans_le begins.le)
  have above : ¬ (info.startKey ≠ [] ∧ q.keyPrefix < info.startKey ∧
      ¬ q.keyPrefix.isPrefixOf info.startKey) := by
    rintro ⟨-, less, other⟩
    obtain ⟨rest, rfl⟩ := begins
    exact other (List.isPrefixOf_iff_prefix.mpr (ByteOrder.isPrefix_of_le_of_le less.le held.1))
  simp only [affects, start, finish, below, above, if_false, ite_self]

/-! ## Gathering -/

/-- The planner for some shards. -/
def planner (layout : List Shard) : QueryPlanner where
  shards := layout.map Shard.info

/-- The shards that are asked. -/
def queried (layout : List Shard) (q : Query) : List Shard :=
  layout.filter fun s => affects q s.info

variable {layout : List Shard}

/-- A shard that is not asked does not matter for what it has nothing of. -/
theorem flatMap_queried {β : Type} {f : Shard → List β}
    (nothing : ∀ s ∈ layout, affects q s.info = false → f s = []) :
    (queried layout q).flatMap f = layout.flatMap f := by
  induction layout with
  | nil => rfl
  | cons s rest ih =>
    rw [List.forall_mem_cons] at nothing
    rw [List.flatMap_cons, ← ih nothing.2, queried, List.filter_cons]
    split
    · rfl
    · rename_i pruned
      rw [nothing.1 (Bool.eq_false_of_not_eq_true pruned)]
      rfl

theorem shardPlans_planner (layout : List Shard) (q : Query) :
    ((planner layout).plan q).shardPlans = (queried layout q).map fun s => shardQuery q s.info := by
  rw [plan, pruneShards, planner, List.filter_map, List.map_map]
  rfl

theorem collect_map_some {α : Type} (l : List α) : collect l.length (l.map some) = some l := by
  induction l with
  | nil => rfl
  | cons a rest ih => rw [List.length_cons, List.map_cons, collect, ih, Option.map_some]

theorem merge_nil (sorter : Slices.Sorter KeyValue Key) (plan : ExecutionPlan) :
    merge sorter plan [] = {} := by
  have empty : sorter.sort KeyValue.key [] = [] := (sorter.perm _ []).eq_nil
  rw [merge]
  cases plan.mergeOp <;>
    simp [totalCount, totalSum, mergeMin, mergeMax, allEntries, loop, empty, cut]

variable {order : List ShardQuery}

/-- What the query ends in when all shards that are asked answer. -/
theorem execute_of_perm (sorter : Slices.Sorter KeyValue Key) (executor : ShardExecutor)
    (perm : order.Perm ((planner layout).plan q).shardPlans) :
    execute sorter (planner layout) executor q (order.map some) =
      .ok { merge sorter ((planner layout).plan q) (order.map (scatter executor)) with
        shardsQueried := order.length } := by
  rw [execute, ← perm.length_eq]
  split
  · rename_i none_asked
    rw [List.eq_nil_of_length_eq_zero none_asked, List.map_nil, merge_nil]
    rfl
  · have received : (order.map some).map (fun sp => sp.map (scatter executor)) =
        (order.map (scatter executor)).map some := by
      rw [List.map_map, List.map_map]
      rfl
    have length : order.length = (order.map (scatter executor)).length := List.length_map _ |>.symm
    rw [received, length, collect_map_some]

/-- A loop over results without a failure. -/
theorem loop_eq {α : Type} {body : α → ShardResult → α} {results : List ShardResult}
    (ok : ∀ r ∈ results, r.err = none) (final : α) :
    loop body final results = results.foldl body final := by
  induction results generalizing final with
  | nil => rfl
  | cons r rest ih =>
    rw [List.forall_mem_cons] at ok
    rw [loop, List.foldl_cons, if_pos ok.1]
    exact ih ok.2 _

/-- The answers arrive in some order. -/
theorem results_perm (executor : ShardExecutor)
    (perm : order.Perm ((planner layout).plan q).shardPlans) :
    (order.map (scatter executor)).Perm
      ((queried layout q).map fun s => scatter executor (shardQuery q s.info)) := by
  rw [shardPlans_planner] at perm
  have answered := perm.map (scatter executor)
  rw [List.map_map] at answered
  exact answered

/-- Every key is in the range of exactly one shard. -/
def PartitionsKeys (shards : List ShardInfo) : Prop :=
  ∀ key, ∃ owner, shards.filter (fun info => inRange info.startKey info.endKey key) = [owner]

/-- The plan asks one shard for a key that the query asks for, and that is its owner; it asks a
shard only for keys of the shard and of the query. -/
theorem plan_exact {p : QueryPlanner} (partitions : PartitionsKeys p.shards) (q : Query) :
    (∀ key, inRange q.startKey q.endKey key → q.keyPrefix <+: key → ∃ owner,
      p.shards.filter (fun info => inRange info.startKey info.endKey key) = [owner] ∧
        (p.plan q).shardPlans.filter (fun sq => inRange sq.startKey sq.endKey key) =
          [shardQuery q owner]) ∧
      ∀ sq ∈ (p.plan q).shardPlans, ∃ info ∈ p.shards, sq = shardQuery q info ∧
        ∀ key, inRange sq.startKey sq.endKey key →
          inRange info.startKey info.endKey key ∧ inRange q.startKey q.endKey key := by
  constructor
  · intro key asked begins
    obtain ⟨owner, owned⟩ := partitions key
    refine ⟨owner, owned, ?_⟩
    have same : ∀ info ∈ p.shards, (inRange (shardQuery q info).startKey
        (shardQuery q info).endKey key && affects q info) =
          inRange info.startKey info.endKey key := by
      intro info _
      rw [Bool.eq_iff_iff, Bool.and_eq_true, inRange_shardQuery, and_iff_right asked]
      exact and_iff_left_of_imp fun held => affects_of_inRange asked held begins
    rw [plan, pruneShards, List.filter_map, List.filter_filter, ← List.map_singleton, ← owned]
    exact congrArg _ (List.filter_congr same)
  · intro sq mem
    obtain ⟨info, kept, rfl⟩ := List.mem_map.mp mem
    refine ⟨info, List.mem_of_mem_filter kept, rfl, fun key within => ?_⟩
    exact (inRange_shardQuery.mp within).symm

/-- Two shards that meet at `m`, and a query over both for the keys that start with `x`. -/
theorem plan_exact_halves :
    PartitionsKeys (planner halves).shards ∧
      ((planner halves).plan
          { startKey := [97], endKey := [122], keyPrefix := [120] }).shardPlans.filter
          (fun sq => inRange sq.startKey sq.endKey [120, 49]) =
        [shardQuery { startKey := [97], endKey := [122], keyPrefix := [120] }
          ⟨1, [109], [], "n"⟩] := by
  have partitions : PartitionsKeys (planner halves).shards := by
    intro key
    by_cases less : key < [109]
    · exact ⟨⟨0, [], [109], "n"⟩, by simp [planner, halves, inRange, less]⟩
    · exact ⟨⟨1, [109], [], "n"⟩, by simp [planner, halves, inRange, less, not_lt.mp less]⟩
  refine ⟨partitions, ?_⟩
  obtain ⟨owner, owned, asked⟩ :=
    (plan_exact partitions { startKey := [97], endKey := [122], keyPrefix := [120] }).1
      [120, 49] (by decide) (List.prefix_append [120] [49])
  rw [asked]
  have same : (planner halves).shards.filter
      (fun info => inRange info.startKey info.endKey [120, 49]) = [⟨1, [109], [], "n"⟩] := by
    decide
  rw [same] at owned
  cases owned
  rfl

end Hermes.Queries
