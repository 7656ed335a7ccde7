import Hermes.Data.Extremes
import Hermes.Queries.Pruning

/-!
# Aggregates

Counts and sums of the shards add up to those of the whole data set.  An average is computed
from counts that no shard was asked for, a shard without a matching entry takes part in the
minimum with its zero, and the maximum begins at zero.
-/

namespace Hermes.Queries

open scoped ByteOrder
open QueryPlanner ScatterGather

/-- An aggregate of some values; an average, a minimum or a maximum needs a value. -/
def aggregate : AggregationType → List ℚ → Option ℚ
  | .aggNone, _ => none
  | .aggCount, values => some values.length
  | .aggSum, values => some values.sum
  | .aggAvg, values => if values = [] then none else some (values.sum / values.length)
  | .aggMin, values => values.min?
  | .aggMax, values => values.max?

/-- The field of a result that an aggregation is about. -/
def QueryResult.value (result : QueryResult) : AggregationType → ℚ
  | .aggNone => 0
  | .aggCount => result.count
  | .aggSum => result.sum
  | .aggAvg => result.avg
  | .aggMin => result.min
  | .aggMax => result.max

section

variable (num : Bytes → ℤ)

/-- The numbers in some entries. -/
def numbers (entries : List KeyValue) : List ℚ :=
  entries.map fun e => (num e.value : ℚ)

/-- The numbers of a shard that a query is about. -/
def Shard.numbers (q : Query) (s : Shard) : List ℚ :=
  Queries.numbers num (s.entries.filter q.admits)

/-- The numbers of the whole data set that a query is about. -/
def wholeNumbers (layout : List Shard) (q : Query) : List ℚ :=
  numbers num ((layout.flatMap Shard.entries).filter q.admits)

/-- The numbers of the shards that are asked. -/
def shardNumbers (layout : List Shard) (q : Query) : List (List ℚ) :=
  (queried layout q).map (Shard.numbers num q)

/-- The field of the result of a shard: the aggregate it was asked for, and zero otherwise. -/
def shardValue (sq : ShardQuery) (s : Shard) (agg : AggregationType) : ℚ :=
  if sq.localAgg = agg then
    (aggregate agg (numbers num (s.entries.filter sq.admits))).getD 0
  else 0

/-- A shard returns the aggregate that it was asked for. -/
structure Exact (sq : ShardQuery) (s : Shard) (r : ShardResult) : Prop where
  err : r.err = none
  count : (r.count : ℚ) = shardValue num sq s .aggCount
  sum : r.sum = shardValue num sq s .aggSum
  min : r.min = shardValue num sq s .aggMin
  max : r.max = shardValue num sq s .aggMax

/-- Every shard that is asked returns its aggregate. -/
def AnswersAggregates (executor : ShardExecutor) (layout : List Shard) (q : Query) : Prop :=
  ∀ s ∈ queried layout q, ∃ r, executor (shardQuery q s.info) = .ok r ∧
    Exact num (shardQuery q s.info) s r

/-- The aggregate of the whole data set follows from those of the shards. -/
def Decomposes (layout : List Shard) (q : Query) : Prop :=
  match q.aggregation with
  | .aggAvg => (wholeNumbers num layout q).sum = 0
  | .aggMin => wholeNumbers num layout q = [] ∨ (∃ x ∈ wholeNumbers num layout q, x ≤ 0) ∨
    ∀ s ∈ queried layout q, s.numbers num q ≠ []
  | .aggMax => wholeNumbers num layout q = [] ∨ ∃ x ∈ wholeNumbers num layout q, 0 ≤ x
  | _ => True

end

variable {num : Bytes → ℤ} {q : Query} {layout : List Shard}
  {sorter : Slices.Sorter KeyValue Key} {executor : ShardExecutor}

theorem shardValue_shardQuery (s : Shard) (agg : AggregationType) :
    shardValue num (shardQuery q s.info) s agg =
      if localAgg q.aggregation = agg then (aggregate agg (s.numbers num q)).getD 0 else 0 := by
  rw [shardValue, List.filter_congr fun e mem => s.admits_shardQuery mem]
  rfl

/-- Without a prefix the shards that are asked have all numbers. -/
theorem wholeNumbers_eq (unprefixed : q.keyPrefix = []) :
    wholeNumbers num layout q = (shardNumbers num layout q).flatten := by
  rw [wholeNumbers, numbers, List.filter_flatMap,
    List.map_flatMap]
  symm
  apply flatMap_queried
  intro s _ pruned
  rw [Shard.numbers, numbers, List.map_eq_nil_iff, List.filter_eq_nil_iff]
  intro e mem admitted
  rw [Query.admits, Bool.and_eq_true] at admitted
  have asked := affects_of_inRange admitted.1 (s.owned e mem) (unprefixed ▸ List.nil_prefix)
  rw [pruned] at asked
  nomatch asked

/-! ## Sums -/

variable {results : List ShardResult}

/-- A loop that adds up something of each result. -/
theorem loop_add {M : Type} [AddCommMonoid M] {f : ShardResult → M}
    (ok : ∀ r ∈ results, r.err = none) :
    loop (fun total r => total + f r) 0 results = (results.map f).sum := by
  rw [loop_eq ok, List.sum_eq_foldl, List.foldl_map]

/-- What is additive in lists is added up over parts. -/
theorem sum_map_eq {M : Type} [AddCommMonoid M] (parts : List (List ℚ)) (h : List ℚ → M)
    (zero : h [] = 0) (add : ∀ l l', h (l ++ l') = h l + h l') :
    (parts.map h).sum = h parts.flatten := by
  induction parts with
  | nil => exact zero.symm
  | cons part rest ih => rw [List.map_cons, List.sum_cons, ih, List.flatten_cons, add]

/-! ## Extremes -/

theorem min?_mergeMin (ok : ∀ r ∈ results, r.err = none) (nonempty : results ≠ []) :
    (results.map ShardResult.min).min? = some (mergeMin results).1 := by
  cases results with
  | nil => exact absurd rfl nonempty
  | cons r rest =>
    rw [mergeMin, loop_eq ok, List.map_cons, List.min?_cons', List.foldl_cons, List.foldl_map]
    -- After the first result the loop takes the smaller one each time.
    refine congrArg (fun p => some p.1) (List.foldl_hom (fun m => (m, false)) fun m r => ?_).symm
    rcases lt_or_ge r.min m with less | le
    · simp [less, min_eq_right less.le]
    · simp [le.not_gt, min_eq_left le]

theorem max?_mergeMax (ok : ∀ r ∈ results, r.err = none) :
    (0 :: results.map ShardResult.max).max? = some (mergeMax results) := by
  rw [mergeMax, loop_eq ok, List.max?_cons', List.foldl_map]
  congr 2
  funext m r
  rcases lt_or_ge m r.max with less | le
  · rw [if_pos less, max_eq_right less.le]
  · rw [if_neg le.not_gt, max_eq_left le]

/-! ## Merging -/

/-- A field of the results is what the shards were asked for, in the order of arrival. -/
theorem map_results_perm {order : List ShardQuery}
    (perm : order.Perm ((planner layout).plan q).shardPlans) {f : ShardResult → ℚ}
    {agg : AggregationType} (field : ∀ s ∈ queried layout q,
      f (scatter executor (shardQuery q s.info)) = shardValue num (shardQuery q s.info) s agg) :
    ((order.map (scatter executor)).map f).Perm ((shardNumbers num layout q).map fun part =>
      if localAgg q.aggregation = agg then (aggregate agg part).getD 0 else 0) := by
  apply ((results_perm executor perm).map f).trans
  rw [shardNumbers, List.map_map, List.map_map]
  apply List.Perm.of_eq
  apply List.map_congr_left
  intro s asked
  rw [Function.comp_apply, field s asked, shardValue_shardQuery]
  rfl

section

variable {order : List ShardQuery}

theorem AnswersAggregates.exact (answers : AnswersAggregates num executor layout q) :
    ∀ s ∈ queried layout q,
      Exact num (shardQuery q s.info) s (scatter executor (shardQuery q s.info)) := by
  intro s asked
  obtain ⟨r, ok, exact⟩ := answers s asked
  rw [scatter, ok]
  exact exact

section

variable (answers : AnswersAggregates num executor layout q)
  (perm : order.Perm ((planner layout).plan q).shardPlans)

include answers perm

theorem AnswersAggregates.ok : ∀ r ∈ order.map (scatter executor), r.err = none := by
  intro r mem
  obtain ⟨s, asked, rfl⟩ := List.mem_map.mp ((results_perm executor perm).subset mem)
  exact (answers.exact s asked).err

theorem AnswersAggregates.totalCount_eq :
    (totalCount (order.map (scatter executor)) : ℚ) =
      if localAgg q.aggregation = .aggCount then
        ((shardNumbers num layout q).flatten.length : ℚ) else 0 := by
  rw [totalCount, loop_add (answers.ok perm), Int.cast_list_sum, List.map_map,
    (map_results_perm perm fun s asked => (answers.exact s asked).count).sum_eq]
  split
  · exact sum_map_eq _ (fun l => (l.length : ℚ)) rfl fun l l' => by simp
  · simp

theorem AnswersAggregates.totalSum_eq (asked : localAgg q.aggregation = .aggSum) :
    totalSum (order.map (scatter executor)) = (shardNumbers num layout q).flatten.sum := by
  rw [totalSum, loop_add (answers.ok perm),
    (map_results_perm perm fun s asked => (answers.exact s asked).sum).sum_eq]
  simp only [asked]
  exact sum_map_eq _ List.sum rfl fun l l' => List.sum_append

theorem AnswersAggregates.mergeMin_iff (asked : localAgg q.aggregation = .aggMin) :
    (∀ v, (shardNumbers num layout q).flatten.min? = some v →
      (mergeMin (order.map (scatter executor))).1 = v) ↔
      (shardNumbers num layout q).flatten = [] ∨
        (∃ x ∈ (shardNumbers num layout q).flatten, x ≤ 0) ∨
        ∀ s ∈ queried layout q, s.numbers num q ≠ [] := by
  have fields := map_results_perm perm fun s asked => (answers.exact s asked).min
  simp only [asked] at fields
  have full : (∀ part ∈ shardNumbers num layout q, part ≠ []) ↔
      ∀ s ∈ queried layout q, s.numbers num q ≠ [] := List.forall_mem_map
  rw [← full]
  apply Extremes.min?_parts_iff fields
  intro nonempty
  exact min?_mergeMin (answers.ok perm) fun empty => nonempty (by rw [empty]; rfl)

theorem AnswersAggregates.mergeMax_iff (asked : localAgg q.aggregation = .aggMax) :
    (∀ v, (shardNumbers num layout q).flatten.max? = some v →
      mergeMax (order.map (scatter executor)) = v) ↔
      (shardNumbers num layout q).flatten = [] ∨
        ∃ x ∈ (shardNumbers num layout q).flatten, 0 ≤ x := by
  have fields := map_results_perm perm fun s asked => (answers.exact s asked).max
  simp only [asked] at fields
  exact Extremes.max?_parts_iff fields (max?_mergeMax (answers.ok perm))

end

end

/-- The value that the merged results have for an aggregation. -/
def mergedValue (results : List ShardResult) : AggregationType → ℚ
  | .aggNone => 0
  | .aggCount => totalCount results
  | .aggSum => totalSum results
  | .aggAvg => if totalCount results > 0 then totalSum results / totalCount results else 0
  | .aggMin => (mergeMin results).1
  | .aggMax => mergeMax results

theorem value_merge (sorter : Slices.Sorter KeyValue Key) (plan : ExecutionPlan)
    (results : List ShardResult) :
    (merge sorter plan results).value plan.mergeOp = mergedValue results plan.mergeOp := by
  rw [merge]
  cases plan.mergeOp with
  | aggAvg =>
    dsimp only [mergedValue]
    split <;> rfl
  | _ => rfl

/-- The results of the shards give the aggregate of the whole data set exactly if it follows
from their aggregates. -/
theorem aggregate_iff_decomposes (unprefixed : q.keyPrefix = [])
    (answers : AnswersAggregates num executor layout q) {order : List ShardQuery}
    (perm : order.Perm ((planner layout).plan q).shardPlans) :
    (∃ result, execute sorter (planner layout) executor q (order.map some) = .ok result ∧
      ∀ v, aggregate q.aggregation (wholeNumbers num layout q) = some v →
        result.value q.aggregation = v) ↔ Decomposes num layout q := by
  have merged : (∃ result, execute sorter (planner layout) executor q (order.map some) =
      .ok result ∧ ∀ v, aggregate q.aggregation (wholeNumbers num layout q) = some v →
        result.value q.aggregation = v) ↔
      ∀ v, aggregate q.aggregation (wholeNumbers num layout q) = some v →
        mergedValue (order.map (scatter executor)) q.aggregation = v := by
    rw [execute_of_perm sorter executor perm]
    have value := value_merge sorter ((planner layout).plan q) (order.map (scatter executor))
    constructor
    · rintro ⟨_, same, equal⟩
      cases same
      intro v whole
      rw [← equal v whole]
      exact value.symm
    · exact fun equal => ⟨_, rfl, fun v whole => value.trans (equal v whole)⟩
  have count := answers.totalCount_eq perm
  have sum := answers.totalSum_eq perm
  have least := answers.mergeMin_iff perm
  have greatest := answers.mergeMax_iff perm
  rw [merged, Decomposes, wholeNumbers_eq unprefixed]
  cases kind : q.aggregation with
  | aggNone => simp [aggregate]
  | aggCount => simp [aggregate, mergedValue, count, kind, localAgg]
  | aggSum => simp [aggregate, mergedValue, sum, kind, localAgg]
  | aggAvg =>
    -- No shard was asked for a count, so the average stays zero.
    simp only [kind, localAgg, reduceCtorEq, if_false, Int.cast_eq_zero] at count
    simp only [aggregate, mergedValue, count]
    by_cases empty : (shardNumbers num layout q).flatten = []
    · simp only [empty, if_true, reduceCtorEq, false_implies, implies_true, List.sum_nil]
    · have length : ((shardNumbers num layout q).flatten.length : ℚ) ≠ 0 :=
        Nat.cast_ne_zero.mpr (List.length_pos_iff.mpr empty).ne'
      rw [if_neg empty, ← div_eq_zero_iff.trans (or_iff_left length)]
      simp only [Option.some.injEq, forall_eq']
      exact eq_comm
  | aggMin => exact least (by rw [kind]; rfl)
  | aggMax => exact greatest (by rw [kind]; rfl)

/-- An executor that aggregates over the shard with the ID of the query. -/
def aggregateExecutor (num : Bytes → ℤ) (layout : List Shard) : ShardExecutor := fun sq =>
  match layout.find? fun s => s.info.shardID = sq.shardID with
  | some s => .ok
    { shardID := sq.shardID
      count := if sq.localAgg = .aggCount then (s.entries.filter sq.admits).length else 0
      sum := shardValue num sq s .aggSum
      min := shardValue num sq s .aggMin
      max := shardValue num sq s .aggMax }
  | none => .error "shard not found"

theorem answersAggregates_halves (num : Bytes → ℤ) (q : Query) :
    AnswersAggregates num (aggregateExecutor num halves) halves q := by
  intro s asked
  have mem : s ∈ halves := List.mem_of_mem_filter asked
  have count (sq : ShardQuery) : (((if sq.localAgg = .aggCount then
      ((s.entries.filter sq.admits).length : ℤ) else 0 : ℤ)) : ℚ) =
        shardValue num sq s .aggCount := by
    rw [shardValue]
    split
    · simp [aggregate, numbers]
    · rfl
  rw [halves, List.mem_cons, List.mem_singleton] at mem
  rcases mem with rfl | rfl
  · exact ⟨_, rfl, rfl, count _, rfl, rfl, rfl⟩
  · exact ⟨_, rfl, rfl, count _, rfl, rfl, rfl⟩

/-- The first byte of a value as a number. -/
def firstByte (value : Bytes) : ℤ :=
  (value.headD 0).toNat

theorem aggregate_iff_decomposes_halves :
    ∃ result, execute .insertion (planner halves) (aggregateExecutor firstByte halves)
      { aggregation := .aggMin }
      (((planner halves).plan { aggregation := .aggMin }).shardPlans.reverse.map some) =
        .ok result ∧
      ∀ v, aggregate .aggMin (wholeNumbers firstByte halves { aggregation := .aggMin }) = some v →
        result.value .aggMin = v :=
  (aggregate_iff_decomposes rfl (answersAggregates_halves firstByte _)
    (List.reverse_perm _)).mpr (.inr (.inr (by decide +kernel)))

/-- What a query over the two shards returns. -/
def answer (num : Bytes → ℤ) (q : Query) : Option ℚ :=
  (execute .insertion (planner halves) (aggregateExecutor num halves) q
    (((planner halves).plan q).shardPlans.map some)).toOption.map fun result =>
      result.value q.aggregation

/-- The average of 3, 5 and 7 comes out as 0; so does the minimum of 3 and 5 when the second
shard has no matching entry, and the maximum of -3, -5 and -7. -/
theorem aggregate_not_decomposes :
    (AnswersAggregates firstByte (aggregateExecutor firstByte halves) halves
        { aggregation := .aggAvg } ∧
      aggregate .aggAvg (wholeNumbers firstByte halves { aggregation := .aggAvg }) = some 5 ∧
      answer firstByte { aggregation := .aggAvg } = some 0) ∧
    (aggregate .aggMin (wholeNumbers firstByte halves
        { aggregation := .aggMin, endKey := [110] }) = some 3 ∧
      answer firstByte { aggregation := .aggMin, endKey := [110] } = some 0) ∧
    aggregate .aggMax (wholeNumbers (fun value => - firstByte value) halves
        { aggregation := .aggMax }) = some (-3) ∧
      answer (fun value => - firstByte value) { aggregation := .aggMax } = some 0 :=
  ⟨⟨answersAggregates_halves _ _, by decide +kernel, by decide +kernel⟩,
    ⟨by decide +kernel, by decide +kernel⟩, by decide +kernel, by decide +kernel⟩

end Hermes.Queries
