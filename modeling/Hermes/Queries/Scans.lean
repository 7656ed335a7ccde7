import Hermes.Queries.Pruning

/-!
# Scans

A scan of all shards finds the entries of the whole data set in the range of the query that
pass its filter, up to its limit.  The prefix only decides which shards are asked: an entry
without it that a shard sends is not removed.
-/

namespace Hermes.Queries

open scoped ByteOrder
open QueryPlanner ScatterGather

variable {q : Query} {layout : List Shard} {sorter : Slices.Sorter KeyValue Key}
  {executor : ShardExecutor}

/-- Every key is in one shard. -/
def Partitions (layout : List Shard) : Prop :=
  ∀ key, ∃ s, layout.filter (fun s => inRange s.info.startKey s.info.endKey key) = [s]

/-- Whether an entry satisfies the range, the filter and the prefix of a query. -/
def Query.wants (q : Query) (e : KeyValue) : Bool :=
  q.admits e && q.keyPrefix.isPrefixOf e.key

/-- What a scan of the whole data set returns. -/
def wholeScan (layout : List Shard) (q : Query) : List KeyValue :=
  cut q.limit (Slices.Sorter.insertion.sort KeyValue.key
    ((layout.flatMap Shard.entries).filter q.wants))

/-- What a shard returns to a query: its entries in the range of the query that pass the
filter, up to the limit. -/
def shardScan (sq : ShardQuery) (s : Shard) : List KeyValue :=
  cut sq.limit (s.entries.filter sq.admits)

/-- Every shard that is asked returns its entries. -/
def AnswersScans (executor : ShardExecutor) (layout : List Shard) (q : Query) : Prop :=
  ∀ s ∈ queried layout q, ∃ r, executor (shardQuery q s.info) = .ok r ∧ r.err = none ∧
    r.entries = shardScan (shardQuery q s.info) s

theorem cut_eq (limit : ℤ) (entries : List KeyValue) :
    cut limit entries = if 0 < limit then entries.take limit.toNat else entries := by
  rw [cut]
  by_cases limited : 0 < limit
  · split
    · rfl
    · rw [List.take_of_length_le]
      omega
  · simp [limited]

theorem cut_sublist (limit : ℤ) (entries : List KeyValue) :
    (cut limit entries).Sublist entries := by
  rw [cut_eq]
  split
  · exact List.take_sublist _ _
  · exact List.Sublist.refl _

/-- The entries that the shards find before their limit applies. -/
def found (layout : List Shard) (q : Query) : List (List KeyValue) :=
  (queried layout q).map fun s => s.entries.filter q.admits

theorem shardScan_shardQuery (s : Shard) :
    shardScan (shardQuery q s.info) s = cut q.limit (s.entries.filter q.admits) := by
  rw [shardScan, List.filter_congr fun e mem => s.admits_shardQuery mem]
  rfl

/-- Every shard has keys of its own. -/
theorem Partitions.nodup_keys (partitions : Partitions layout) :
    ((found layout q).flatten.map KeyValue.key).Nodup := by
  rw [List.Nodup, List.pairwise_map, List.pairwise_flatten, found, List.pairwise_map]
  constructor
  · simp only [List.mem_map]
    rintro _ ⟨s, -, rfl⟩
    exact (s.sorted.filter _).imp ne_of_lt
  · apply List.Pairwise.filter
    rw [List.pairwise_iff_forall_sublist]
    intro s s' sublist e mem e' mem' same
    obtain ⟨only, filtered⟩ := partitions e.key
    have both := sublist.filter fun s => inRange s.info.startKey s.info.endKey e.key
    have here := s.owned e (List.mem_of_mem_filter mem)
    have there := s'.owned e' (List.mem_of_mem_filter mem')
    rw [← same] at there
    rw [filtered, List.filter_cons, if_pos here, List.filter_cons, if_pos there] at both
    exact absurd both.length_le (by simp)

theorem sorted_of_mem_found : ∀ part ∈ found layout q, part.Pairwise fun a b => a.key < b.key := by
  intro part mem
  obtain ⟨s, -, rfl⟩ := List.mem_map.mp mem
  exact s.sorted.filter _

theorem cut_sort_flatMap_cut {parts : List (List KeyValue)}
    (sorted : ∀ part ∈ parts, part.Pairwise fun a b => a.key < b.key)
    (distinct : (parts.flatten.map KeyValue.key).Nodup) (limit : ℤ) :
    cut limit (sorter.sort KeyValue.key (parts.flatMap (cut limit))) =
      cut limit (sorter.sort KeyValue.key parts.flatten) := by
  have cut_eq' : cut limit = fun entries => if 0 < limit then entries.take limit.toNat
      else entries := funext (cut_eq limit)
  rw [cut_eq']
  by_cases limited : 0 < limit
  · simp only [limited]
    exact Slices.Sorter.take_sort_flatten sorted distinct limit.toNat
  · simp only [limited]
    rw [← List.flatMap_id]
    rfl

theorem entries_execute (sorter : Slices.Sorter KeyValue Key) (scan : q.aggregation = .aggNone)
    (partitions : Partitions layout) (answers : AnswersScans executor layout q)
    {order : List ShardQuery} (perm : order.Perm ((planner layout).plan q).shardPlans) :
    ∃ result, execute sorter (planner layout) executor q (order.map some) = .ok result ∧
      result.entries = cut q.limit (sorter.sort KeyValue.key (found layout q).flatten) := by
  refine ⟨_, execute_of_perm sorter executor perm, ?_⟩
  have answered : ∀ s ∈ queried layout q, (scatter executor (shardQuery q s.info)).err = none ∧
      (scatter executor (shardQuery q s.info)).entries =
        cut q.limit (s.entries.filter q.admits) := by
    intro s asked
    obtain ⟨r, ok, noError, entries⟩ := answers s asked
    rw [scatter, ok, ← shardScan_shardQuery]
    exact ⟨noError, entries⟩
  have arrived := results_perm executor perm
  have ok : ∀ r ∈ order.map (scatter executor), r.err = none := by
    intro r mem
    obtain ⟨s, asked, rfl⟩ := List.mem_map.mp (arrived.subset mem)
    exact (answered s asked).1
  have gathered : (allEntries (order.map (scatter executor))).Perm
      ((found layout q).flatMap (cut q.limit)) := by
    rw [allEntries, loop_eq ok, ← List.flatMap_eq_foldl]
    apply (arrived.flatMap_right _).trans
    rw [found, List.flatMap_map, List.flatMap_map]
    exact List.Perm.of_eq (List.flatMap_congr fun s asked => (answered s asked).2)
  have distinct : ((found layout q).flatten.map KeyValue.key).Nodup := partitions.nodup_keys
  have sublist : ((found layout q).flatMap (cut q.limit)).Sublist (found layout q).flatten := by
    rw [← List.flatMap_id]
    exact List.Sublist.flatMap_right _ fun entries _ => cut_sublist q.limit entries
  have sort_eq := sorter.sort_congr gathered (distinct.sublist (sublist.map _))
  calc
    (merge sorter ((planner layout).plan q) (order.map (scatter executor))).entries
      = cut q.limit (sorter.sort KeyValue.key
          (allEntries (order.map (scatter executor)))) := by simp [merge, plan, scan]
    _ = cut q.limit (sorter.sort KeyValue.key ((found layout q).flatMap (cut q.limit))) := by
      rw [sort_eq]
    _ = cut q.limit (sorter.sort KeyValue.key (found layout q).flatten) :=
      cut_sort_flatMap_cut sorted_of_mem_found distinct q.limit

/-- The entries that are found, whichever shard they are from. -/
theorem flatten_found : (found layout q).flatten =
    ((queried layout q).flatMap Shard.entries).filter q.admits := by
  rw [found, ← List.flatMap_def, List.filter_flatMap]

/-- What is left out with a shard has no entry that the query wants. -/
theorem filter_wants : (layout.flatMap Shard.entries).filter q.wants =
    (found layout q).flatten.filter fun e => q.keyPrefix.isPrefixOf e.key := by
  have pruned : (layout.flatMap Shard.entries).filter q.wants =
      ((queried layout q).flatMap Shard.entries).filter q.wants := by
    rw [List.filter_flatMap, List.filter_flatMap, flatMap_queried]
    intro s _ pruned
    rw [List.filter_eq_nil_iff]
    intro e mem wanted
    rw [Query.wants, Query.admits, Bool.and_eq_true, Bool.and_eq_true] at wanted
    have asked := affects_of_inRange wanted.1.1 (s.owned e mem)
      (List.isPrefixOf_iff_prefix.mp wanted.2)
    rw [pruned] at asked
    nomatch asked
  rw [pruned, flatten_found, List.filter_filter]
  apply List.filter_congr
  intro e _
  rw [Query.wants, Bool.and_comm]

/-- An entry that is found has the prefix, or the limit leaves it out: there are enough
entries before it. -/
def Selective (layout : List Shard) (q : Query) : Prop :=
  ∀ e ∈ ((queried layout q).flatMap Shard.entries).filter q.admits,
    q.keyPrefix.isPrefixOf e.key = true ∨
      0 < q.limit ∧ q.limit ≤ ((((queried layout q).flatMap Shard.entries).filter q.admits).filter
        fun e' => e'.key < e.key).length

theorem cut_filter_iff (limit : ℤ) {l l' : List KeyValue} (perm : l'.Perm l)
    (sorted : l'.Pairwise fun a b => a.key < b.key) (p : KeyValue → Bool) :
    cut limit l' = cut limit (l'.filter p) ↔ ∀ e ∈ l, p e = true ∨
      0 < limit ∧ limit ≤ (l.filter fun e' => e'.key < e.key).length := by
  have count (e : KeyValue) : (l'.filter fun e' => e'.key < e.key).length =
      (l.filter fun e' => e'.key < e.key).length := (perm.filter _).length_eq
  rw [cut_eq, cut_eq]
  by_cases limited : 0 < limit
  · simp only [limited, if_true, true_and]
    rw [Slices.take_eq_take_filter_iff sorted]
    simp only [perm.mem_iff, count, Int.toNat_le]
  · simp only [limited, if_false, false_and, or_false]
    rw [eq_comm, List.filter_eq_self]
    simp only [perm.mem_iff]

/-- A scan of the shards returns what a scan of the whole data set returns exactly if no entry
without the prefix gets through. -/
theorem scan_iff_selective (scan : q.aggregation = .aggNone) (partitions : Partitions layout)
    (answers : AnswersScans executor layout q) {order : List ShardQuery}
    (perm : order.Perm ((planner layout).plan q).shardPlans) :
    (∃ result, execute sorter (planner layout) executor q (order.map some) = .ok result ∧
      result.entries = wholeScan layout q) ↔ Selective layout q := by
  obtain ⟨result, executed, entries⟩ := entries_execute sorter scan partitions answers perm
  have distinct : ((found layout q).flatten.map KeyValue.key).Nodup := partitions.nodup_keys
  rw [executed, wholeScan, filter_wants, sorter.sort_filter _ distinct, Selective,
    ← flatten_found, ← cut_filter_iff q.limit (sorter.perm KeyValue.key _)
      (Slices.Sorter.pairwise_lt_sort distinct), ← entries]
  constructor
  · rintro ⟨_, same, equal⟩
    cases same
    exact equal
  · exact fun equal => ⟨result, rfl, equal⟩

/-- An executor that scans the shard with the ID of the query. -/
def scanExecutor (layout : List Shard) : ShardExecutor := fun sq =>
  match layout.find? fun s => s.info.shardID = sq.shardID with
  | some s => .ok { shardID := sq.shardID, entries := shardScan sq s }
  | none => .error "shard not found"

theorem partitions_halves : Partitions halves := by
  intro key
  by_cases less : key < [109]
  · simp [halves, inRange, less]
  · simp [halves, inRange, not_lt.mp less]

theorem answersScans_halves (q : Query) : AnswersScans (scanExecutor halves) halves q := by
  intro s asked
  have mem : s ∈ halves := List.mem_of_mem_filter asked
  rw [halves, List.mem_cons, List.mem_singleton] at mem
  rcases mem with rfl | rfl
  · exact ⟨_, rfl, rfl, rfl⟩
  · exact ⟨_, rfl, rfl, rfl⟩

theorem scan_iff_selective_halves :
    ∃ result, execute .insertion (planner halves) (scanExecutor halves)
      { keyPrefix := [97], limit := 2 }
      (((planner halves).plan { keyPrefix := [97], limit := 2 }).shardPlans.reverse.map some) =
        .ok result ∧
      result.entries = wholeScan halves { keyPrefix := [97], limit := 2 } :=
  (scan_iff_selective rfl partitions_halves (answersScans_halves _)
    (List.reverse_perm _)).mpr (by unfold Selective; decide +kernel)

/-- A scan with the prefix `ab` returns `a` as well. -/
theorem scan_not_selective :
    Partitions halves ∧ AnswersScans (scanExecutor halves) halves { keyPrefix := [97, 98] } ∧
      (execute .insertion (planner halves) (scanExecutor halves) { keyPrefix := [97, 98] }
        (((planner halves).plan { keyPrefix := [97, 98] }).shardPlans.map some)).toOption.map
          QueryResult.entries = some [⟨[97], [3]⟩, ⟨[97, 98], [5]⟩] ∧
      wholeScan halves { keyPrefix := [97, 98] } = [⟨[97, 98], [5]⟩] :=
  ⟨partitions_halves, answersScans_halves _, by decide +kernel, by decide +kernel⟩

end Hermes.Queries
