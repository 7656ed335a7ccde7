import Hermes.Consistency.Convergence
import Hermes.Data.Gossip

/-!
# Counting with replicas

Replicas of a `PNCounter` count up and down and merge states of each other.  No copy of a
count is ahead of what its node has counted, and a replica that knows of everything shows
the difference of the totals.
-/

namespace Hermes.Consistency

open Gossip List Merge UInt64

inductive CounterOp where
  | increment (n : UInt64)
  | decrement (n : UInt64)
  deriving DecidableEq, Repr

namespace PNCounter

def apply (c : PNCounter) : CounterOp → PNCounter
  | .increment n => c.increment n
  | .decrement n => c.decrement n

/-- Replicas with distinct node IDs. -/
def object : Object NodeID PNCounter CounterOp where
  init := new
  apply := apply
  merge := merge

/-- The two counters that a `PNCounter` is made of. -/
inductive Side where
  | positive
  | negative
  deriving DecidableEq, Repr

def half (c : PNCounter) : Side → GCounter
  | .positive => c.positive
  | .negative => c.negative

/-- What a counter has for a node on one side. -/
def count (c : PNCounter) (side : Side) (node : NodeID) : ℕ :=
  ((c.half side).count node).toNat

end PNCounter

open PNCounter

abbrev CounterEvent := Occurrence NodeID PNCounter CounterOp

/-- What an action counts on a side. -/
def amount (side : Side) : Action NodeID CounterOp → ℕ
  | .update (.increment n) => if side = .positive then n.toNat else 0
  | .update (.decrement n) => if side = .negative then n.toNat else 0
  | .merge _ => 0

/-- What a node has counted. -/
def counted (side : Side) (history : List CounterEvent) (node : NodeID) : ℕ :=
  (history.map fun o => if o.process = node then amount side o.action else 0).sum

/-- What all nodes have counted. -/
def total (side : Side) (history : List CounterEvent) : ℕ :=
  (history.map fun o => amount side o.action).sum

/-! ## Totals -/

section Totals

variable {side : Side} {history : List CounterEvent} {o : CounterEvent} {node : NodeID}

theorem counted_concat : counted side (history ++ [o]) node =
    counted side history node + if o.process = node then amount side o.action else 0 := by
  simp [counted]

theorem counted_le_concat : counted side history node ≤ counted side (history ++ [o]) node := by
  rw [counted_concat]
  exact Nat.le_add_right _ _

theorem total_concat : total side (history ++ [o]) = total side history + amount side o.action := by
  simp [total]

theorem counted_le_total : counted side history node ≤ total side history := by
  induction history using reverseRecOn with
  | nil => exact le_rfl
  | append_singleton history o ih =>
    rw [counted_concat, total_concat]
    split
    · exact Nat.add_le_add_right ih _
    · exact ih.trans (Nat.le_add_right _ _)

theorem counted_eq_zero_or (side : Side) (history : List CounterEvent) (node : NodeID) :
    counted side history node = 0 ∨ ∃ e o, history[e]? = some o ∧ o.process = node ∧
      counted side (history.take (e + 1)) node = counted side history node := by
  induction history using reverseRecOn with
  | nil => exact .inl rfl
  | append_singleton history o ih =>
    by_cases own : o.process = node
    · refine .inr ⟨history.length, o, getElem?_concat_length, own, ?_⟩
      rw [take_of_length_le (by simp)]
    · rw [counted_concat, if_neg own, add_zero]
      rcases ih with nothing | ⟨e, x, at_e, process, all⟩
      · exact .inl nothing
      · have old := (List.getElem?_eq_some_iff.mp at_e).1
        refine .inr ⟨e, x, ?_, process, ?_⟩
        · rw [getElem?_append_left old]
          exact at_e
        · rw [take_append_of_le_length old]
          exact all

theorem sum_counted {nodes : List NodeID} (nodup : nodes.Nodup)
    (rest : ∀ node ∉ nodes, counted side history node = 0) :
    (nodes.map (counted side history)).sum = total side history := by
  induction history using reverseRecOn with
  | nil =>
    rw [sum_eq_zero]
    · rfl
    · simp [counted]
  | append_singleton history o ih =>
    have before : ∀ node ∉ nodes, counted side history node = 0 := fun node out =>
      Nat.le_zero.mp (counted_le_concat.trans_eq (rest node out))
    have split : nodes.map (counted side (history ++ [o])) = nodes.map fun node =>
        counted side history node + if o.process = node then amount side o.action else 0 :=
      map_congr_left fun _ _ => counted_concat
    have once : (nodes.map fun node => if o.process = node then amount side o.action else 0).sum =
        amount side o.action := by
      by_cases mem : o.process ∈ nodes
      · rw [← sum_toFinset _ nodup, Finset.sum_ite_eq,
          if_pos (mem_toFinset.mpr mem)]
      · have nothing := rest _ mem
        rw [counted_concat, if_pos rfl] at nothing
        rw [(Nat.add_eq_zero_iff.mp nothing).2]
        simp
    rw [split, sum_map_add, ih before, once, total_concat]

end Totals

/-! ## Counts -/

namespace GCounter

theorem toNat_count_increment (c : GCounter) (n : UInt64) (node : NodeID) :
    ((c.increment n).count node).toNat =
      if node = c.nodeID then ((c.count node).toNat + n.toNat) % 2 ^ 64
      else (c.count node).toNat := by
  rw [count, increment, lookup_insert_ite]
  split
  · rename_i own
    rw [own]
    exact UInt64.toNat_add _ _
  · rfl

theorem toNat_count (c : GCounter) (node : NodeID) :
    (c.count node).toNat = (c.rank node).unbotD 0 := by
  unfold count rank shown
  cases c.counts.lookup node <;> rfl

/-- Merging takes the maximum at every node. -/
theorem toNat_count_merge (c other : GCounter) (node : NodeID) :
    ((c.merge other).count node).toNat = max (c.count node).toNat (other.count node).toNat := by
  rw [toNat_count, rank_merge, toNat_count, toNat_count, Pi.sup_apply]
  cases c.rank node <;> cases other.rank node <;> simp [← WithBot.coe_sup]

theorem toNat_value (c : GCounter) :
    c.value.toNat = (c.counts.keys.map fun node => (c.count node).toNat).sum % 2 ^ 64 := by
  have loop : ∀ (entries : List ((_ : NodeID) × UInt64)) (start : UInt64),
      (entries.foldl (fun total entry => total + entry.2) start).toNat =
        (start.toNat + (entries.map fun entry => entry.2.toNat).sum) % 2 ^ 64 := by
    intro entries
    induction entries with
    | nil =>
      intro start
      simp [Nat.mod_eq_of_lt start.toNat_lt]
    | cons entry rest ih =>
      intro start
      rw [foldl_cons, ih, UInt64.toNat_add, map_cons, sum_cons, Nat.mod_add_mod,
        add_assoc]
  have counts : (c.counts.entries.map fun entry => entry.2.toNat) =
      c.counts.keys.map fun node => (c.count node).toNat := by
    unfold AList.keys keys
    rw [map_map]
    apply map_congr_left
    intro entry mem
    have found : c.counts.lookup entry.1 = some entry.2 := AList.mem_lookup_iff.mpr mem
    simp [count, found]
  rw [value, loop, counts]
  simp

end GCounter

namespace PNCounter

theorem count_apply (c : PNCounter) (op : CounterOp) (side : Side) (node : NodeID) :
    (c.apply op).count side node =
      if node = (c.half side).nodeID then (c.count side node + amount side (.update op)) % 2 ^ 64
      else c.count side node := by
  have same : c.count side node = c.count side node % 2 ^ 64 :=
    (Nat.mod_eq_of_lt (toNat_lt _)).symm
  cases op <;> cases side
  case increment.positive n => exact GCounter.toNat_count_increment c.positive n node
  case decrement.negative n => exact GCounter.toNat_count_increment c.negative n node
  all_goals
    split
    · exact same
    · rfl

theorem count_merge (c other : PNCounter) (side : Side) (node : NodeID) :
    (c.merge other).count side node = max (c.count side node) (other.count side node) := by
  cases side <;> exact GCounter.toNat_count_merge _ _ _

theorem count_new (replica : NodeID) (side : Side) (node : NodeID) :
    (new replica).count side node = 0 := by
  have zero : ((GCounter.new replica).count node).toNat = 0 := by
    rw [GCounter.new, GCounter.count, lookup_insert_ite]
    split <;> rfl
  cases side <;> exact zero

end PNCounter

/-! ## Runs -/

/-- A state in a run.  Its counts are not ahead of the nodes, and it has all that a node had
counted at an event in its past. -/
structure Represents (history : List CounterEvent) (c : PNCounter) (known : Set ℕ) : Prop where
  bound : ∀ side node, c.count side node ≤ counted side history node
  complete : ∀ side, total side history < 2 ^ 64 → ∀ e ∈ known, ∀ o : CounterEvent,
    history[e]? = some o → counted side (history.take (e + 1)) o.process ≤ c.count side o.process

variable {s : Execution NodeID PNCounter CounterOp} {history : List CounterEvent} {c : PNCounter}

variable {known : Set ℕ}

/-- A state has all that a node has counted, up to a point of the run, if its past includes
the events of the node until then. -/
theorem Represents.counted_le {later : List CounterEvent}
    (represents : Represents (history ++ later) c known) {side : Side}
    (small : total side (history ++ later) < 2 ^ 64) {node : NodeID}
    (includes : ∀ e o, history[e]? = some o → o.process = node → e ∈ known) :
    counted side history node ≤ c.count side node := by
  rcases counted_eq_zero_or side history node with nothing | ⟨e, o, at_e, process, all⟩
  · rw [nothing]
    exact Nat.zero_le _
  · subst process
    have old := (List.getElem?_eq_some_iff.mp at_e).1
    have found := represents.complete side small e (includes e o at_e rfl) o
      ((getElem?_append_left old).trans at_e)
    rwa [take_append_of_le_length old, all] at found

theorem nodeID_half_replicas {allowed} (reachable : object.Reachable allowed s) (p : NodeID)
    (side : Side) : ((s.replicas p).half side).nodeID = p := by
  apply reachable.invariant (I := fun s => ((s.replicas p).half side).nodeID = p)
  · cases side <;> rfl
  · intro s call s' ih _ happens
    obtain ⟨state, result, rfl⟩ := Object.step_eq_some happens
    unfold Object.happen
    dsimp only
    by_cases own : p = call.1
    · subst own
      rw [Function.update_self]
      cases action : call.2 with
      | update op =>
        rw [action] at result
        cases result
        cases op <;> cases side <;> exact ih
      | merge source =>
        rw [action] at result
        obtain ⟨other, -, rfl⟩ := Option.map_eq_some_iff.mp result
        cases side <;> exact ih
    · rw [Function.update_of_ne own]
      exact ih

theorem Represents.apply (represents : Represents history c known) {p : NodeID}
    (own : ∀ side, (c.half side).nodeID = p) (op : CounterOp)
    (includes : ∀ e o, history[e]? = some o → o.process = p → e ∈ known) :
    Represents (history ++ [⟨p, .update op, c.apply op⟩]) (c.apply op)
      (insert history.length known) := by
  constructor
  · intro side node
    rw [count_apply, own, counted_concat]
    split
    · rename_i same
      rw [if_pos same.symm]
      exact (Nat.mod_le _ _).trans (Nat.add_le_add_right (represents.bound side node) _)
    · rename_i other
      rw [if_neg (Ne.symm other)]
      exact represents.bound side node
  · intro side small e mem o at_e
    rw [total_concat] at small
    -- nothing overflows, so that the new count of the node itself is exact
    have exact_count : (c.apply op).count side p =
        c.count side p + amount side (.update op) := by
      rw [count_apply, own, if_pos rfl, Nat.mod_eq_of_lt]
      exact (Nat.add_le_add_right ((represents.bound side p).trans counted_le_total) _).trans_lt
        small
    have grows : ∀ node, c.count side node ≤ (c.apply op).count side node := by
      intro node
      by_cases same : node = p
      · rw [same, exact_count]
        exact Nat.le_add_right _ _
      · rw [count_apply, own, if_neg same]
    have small : total side history < 2 ^ 64 := (Nat.le_add_right _ _).trans_lt small
    rcases Runs.getElem?_concat_eq_some at_e with ⟨old, at_e⟩ | ⟨rfl, rfl⟩
    · have mem : e ∈ known := mem.resolve_left (Nat.ne_of_lt old)
      rw [take_append_of_le_length old]
      exact (represents.complete side small e mem o at_e).trans (grows _)
    · rw [take_of_length_le (by simp), counted_concat, if_pos rfl]
      rw [exact_count]
      apply Nat.add_le_add_right
      rw [← append_nil history] at represents small
      exact represents.counted_le small includes

/-- Counting and merging keep to what the nodes have counted. -/
theorem tracks_represents : Tracks object (fun _ _ => True) Represents where
  first history p := by
    constructor
    · intro side node
      exact (count_new p side node).trans_le (Nat.zero_le _)
    · exact nofun
  later history o c known _ within represents := by
    constructor
    · exact fun side node => (represents.bound side node).trans counted_le_concat
    · intro side small e mem x at_e
      have old := within e mem
      rw [getElem?_append_left old] at at_e
      rw [take_append_of_le_length old]
      rw [total_concat] at small
      exact represents.complete side ((Nat.le_add_right _ _).trans_lt small) e mem x at_e
  merge history a b A B left right := by
    constructor
    · intro side node
      show (a.merge b).count side node ≤ _
      rw [count_merge]
      exact max_le (left.bound side node) (right.bound side node)
    · intro side small e mem x at_e
      show _ ≤ (a.merge b).count side x.process
      rw [count_merge]
      rcases mem with mem | mem
      · exact (left.complete side small e mem x at_e).trans (le_max_left _ _)
      · exact (right.complete side small e mem x at_e).trans (le_max_right _ _)
  merged history o source c known merging includes represents := by
    refine ⟨represents.bound, fun side small e mem x at_e => ?_⟩
    rcases mem with rfl | mem
    · rw [getElem?_concat_length] at at_e
      cases at_e
      have nothing : amount side o.action = 0 := by
        rw [merging]
        rfl
      rw [take_of_length_le (by simp), counted_concat, if_pos rfl, nothing]
      exact represents.counted_le small includes
    · exact represents.complete side small e mem x at_e
  update s p op reachable _ represents := by
    apply represents.apply (nodeID_half_replicas reachable p) op
    exact fun e o at_e process => ⟨e, o, at_e, process, .refl⟩

theorem toNat_value_half {side : Side}
    (exactly : ∀ node, c.count side node = counted side history node)
    (small : total side history < 2 ^ 64) : (c.half side).value.toNat = total side history := by
  rw [GCounter.toNat_value]
  have counts : ((c.half side).counts.keys.map fun node => ((c.half side).count node).toNat) =
      (c.half side).counts.keys.map (counted side history) :=
    map_congr_left fun node _ => exactly node
  rw [counts, sum_counted (AList.keys_nodup _), Nat.mod_eq_of_lt small]
  intro node absent
  rw [← exactly]
  have absent : (c.half side).counts.lookup node = none :=
    AList.lookup_eq_none.mpr fun mem => absent (AList.mem_keys.mp mem)
  unfold PNCounter.count GCounter.count
  rw [absent]
  rfl

theorem toInt_value {up down : ℕ} (positive : c.positive.value.toNat = up)
    (negative : c.negative.value.toNat = down) (up_small : up < 2 ^ 63)
    (down_small : down < 2 ^ 63) :
    c.value.toInt = up - down := by
  have signed : ∀ (n : UInt64) (k : ℕ), n.toNat = k → k < 2 ^ 63 → n.toInt64.toInt = k := by
    intro n k eq small
    show n.toBitVec.toInt = k
    rw [BitVec.toInt_eq_toNat_of_lt] <;> rw [toNat_toBitVec, eq]
    omega
  rw [PNCounter.value, Int64.toInt_sub, signed _ _ positive up_small,
    signed _ _ negative down_small, Int.bmod_eq_of_le_mul_two] <;> omega

/-- Counting with replicas.  In every run no replica has a count of a node that exceeds
what the node has counted, and a replica that has merged the last state of every replica,
by itself or through others, shows the total of the increments minus the total of the
decrements. -/
theorem counters_converge {s : Execution NodeID PNCounter CounterOp}
    (reachable : object.Reachable (fun _ _ => True) s) :
    (∀ p side node, (s.replicas p).count side node ≤ counted side s.trace node) ∧
      ∀ p, s.Complete p → total .positive s.trace < 2 ^ 63 → total .negative s.trace < 2 ^ 63 →
        (s.replicas p).value.toInt = total .positive s.trace - total .negative s.trace := by
  have tracked := tracks_represents.tracked reachable
  refine ⟨fun p => (tracked.replica p).bound, fun p complete up down => ?_⟩
  have represents := tracked.replica p
  have exactly : ∀ side, total side s.trace < 2 ^ 64 → ∀ node,
      (s.replicas p).count side node = counted side s.trace node := by
    intro side small node
    apply le_antisymm (represents.bound side node)
    rw [← append_nil s.trace] at represents small
    apply represents.counted_le small
    exact fun e o at_e _ => complete e (List.getElem?_eq_some_iff.mp at_e).1
  have wide : (2 : ℕ) ^ 63 ≤ 2 ^ 64 := by omega
  exact toInt_value (toNat_value_half (exactly _ (up.trans_le wide)) (up.trans_le wide))
    (toNat_value_half (exactly _ (down.trans_le wide)) (down.trans_le wide)) up down

/-- A node counts three up, another one counts one down and merges: it shows two. -/
theorem counters_converge_two :
    ∃ s, object.Reachable (fun _ _ => True) s ∧ s.Complete "b" ∧
      total .positive s.trace = 3 ∧ total .negative s.trace = 1 ∧
      (s.replicas "b").value.toInt = 2 := by
  have none : object.Reachable (fun _ _ => True) object.start := .start
  have up := @none.next _ _ _ _ _ _ _ ("a", .update (.increment 3)) trivial rfl
  have down := @up.next _ _ _ _ _ _ _ ("b", .update (.decrement 1)) trivial rfl
  have merged := @down.next _ _ _ _ _ _ _ ("b", .merge (.after 0)) trivial rfl
  have value := (counters_converge merged).2 "b"
  refine ⟨_, merged, (fun complete => ⟨complete, rfl, rfl, value complete ?up ?down⟩) ?complete⟩
  case up => decide
  case down => decide
  case complete =>
    intro e within
    match e, within with
    | 0, _ => exact ⟨2, _, rfl, rfl, .single (.message rfl rfl)⟩
    | 1, _ => exact ⟨1, _, rfl, rfl, .refl⟩
    | 2, _ => exact ⟨2, _, rfl, rfl, .refl⟩

end Hermes.Consistency
