import Hermes.Data.Merge

/-!
# Maps laid over one another

Values that carry their key are written into a map one after the other, so that the last
value of a key stays.  The map is then listed in the order of its keys.
-/

namespace Hermes.Overlay

open AList List

universe u v

variable {K : Type u} {V : Type v} [DecidableEq K] {key : V → K}

/-- Write values over a map, each under its own key. -/
def overlay (key : V → K) (m : AList fun _ : K => V) (values : List V) : AList fun _ : K => V :=
  values.foldl (fun m v => m.insert (key v) v) m

theorem overlay_append (m : AList fun _ : K => V) (values others : List V) :
    overlay key m (values ++ others) = overlay key (overlay key m values) others :=
  foldl_append

/-- The last value of a key is found, and a key without one is found where it was. -/
theorem lookup_overlay (m : AList fun _ : K => V) (values : List V) (k : K) :
    (overlay key m values).lookup k
      = (values.reverse.find? fun v => key v = k).or (m.lookup k) := by
  induction values generalizing m with
  | nil => rfl
  | cons v rest ih =>
    have first : (m.insert (key v) v).lookup k
        = ([v].find? fun v => key v = k).or (m.lookup k) := by
      rw [Merge.lookup_insert_ite]
      by_cases same : k = key v
      · simp [same]
      · simp [same, Ne.symm same]
    rw [reverse_cons, find?_append, Option.or_assoc, ← first]
    exact ih _

variable {values : List V}

theorem findSome?_congr {W : Type*} {f g : V → Option W} (same : ∀ v ∈ values, f v = g v) :
    values.findSome? f = values.findSome? g := by
  induction values with
  | nil => rfl
  | cons v rest ih =>
    rw [findSome?_cons, findSome?_cons, same v mem_cons_self,
      ih fun w mem => same w (mem_cons_of_mem _ mem)]

variable {v : V}

/-- Where the keys are distinct, the value of a key is found. -/
theorem find?_eq_some_iff (distinct : (values.map key).Nodup) {k : K} :
    (values.find? fun v => key v = k) = some v ↔ v ∈ values ∧ key v = k := by
  constructor
  · intro found
    exact ⟨mem_of_find?_eq_some found, of_decide_eq_true (find?_some found :)⟩
  · rintro ⟨mem, rfl⟩
    cases found : values.find? fun w => key w = key v with
    | none => exact absurd (decide_eq_true rfl) (find?_eq_none.mp found v mem)
    | some w =>
      have same : key w = key v := of_decide_eq_true (find?_some found :)
      rw [inj_on_of_nodup_map distinct (mem_of_find?_eq_some found) mem same]

theorem find?_reverse (distinct : (values.map key).Nodup) (k : K) :
    (values.reverse.find? fun v => key v = k) = values.find? fun v => key v = k := by
  have reversed : (values.reverse.map key).Nodup := by
    rw [map_reverse, nodup_reverse]
    exact distinct
  apply Option.ext
  intro v
  rw [find?_eq_some_iff reversed, find?_eq_some_iff distinct, mem_reverse]

/-- Where ranks ascend, the last value with a property is the one of the highest rank. -/
theorem rank_le_of_find?_reverse {rank : V → ℕ}
    (ascending : values.Pairwise fun v w => rank v < rank w) {p : V → Bool} {w : V}
    (found : values.reverse.find? p = some v) (mem : w ∈ values) (holds : p w = true) :
    rank w ≤ rank v := by
  induction values with
  | nil => nomatch mem
  | cons first rest ih =>
    obtain ⟨lowest, ascending⟩ := pairwise_cons.mp ascending
    rw [reverse_cons, find?_append] at found
    cases later : rest.reverse.find? p with
    | some u =>
      rw [later] at found
      cases found
      rcases mem_cons.mp mem with rfl | mem
      · have inRest := mem_reverse.mp (mem_of_find?_eq_some later)
        exact (lowest _ inRest).le
      · exact ih ascending later mem
    | none =>
      rw [later] at found
      have isFirst := mem_singleton.mp (mem_of_find?_eq_some found)
      rcases mem_cons.mp mem with rfl | mem
      · rw [isFirst]
      · exact absurd holds (find?_eq_none.mp later w (mem_reverse.mpr mem))

/-- Every value of a map stands under its own key. -/
def Keyed (key : V → K) (m : AList fun _ : K => V) : Prop :=
  ∀ k v, m.lookup k = some v → key v = k

theorem keyed_overlay (values : List V) : Keyed key (overlay key ∅ values) := by
  intro k v found
  rw [lookup_overlay, lookup_empty, Option.or_none] at found
  exact of_decide_eq_true (find?_some found :)

variable {m : AList fun _ : K => V}

theorem Keyed.mem_values (keyed : Keyed key m) :
    v ∈ m.entries.map Sigma.snd ↔ m.lookup (key v) = some v := by
  rw [mem_map]
  constructor
  · rintro ⟨⟨k, w⟩, mem, rfl⟩
    have found : m.lookup k = some w := mem_lookup_iff.mpr mem
    rw [keyed k w found]
    exact found
  · intro found
    exact ⟨⟨key v, v⟩, mem_lookup_iff.mp found, rfl⟩

theorem Keyed.nodup_values (keyed : Keyed key m) : ((m.entries.map Sigma.snd).map key).Nodup := by
  have keys : (m.entries.map Sigma.snd).map key = m.entries.map Sigma.fst := by
    rw [map_map]
    apply map_congr_left
    rintro ⟨k, v⟩ mem
    exact keyed k v (mem_lookup_iff.mpr mem)
  rw [keys]
  exact m.nodupKeys

section Listing

variable [LT K] [DecidableLT K]

/-- The values of a map that are chosen, in the order of their keys. -/
def listing (key : V → K) (m : AList fun _ : K => V) (chosen : V → Bool) : List V :=
  ((m.entries.map Sigma.snd).filter chosen).mergeSort fun a b => ¬ key b < key a

variable {chosen : V → Bool}

theorem mem_listing (keyed : Keyed key m) :
    v ∈ listing key m chosen ↔ m.lookup (key v) = some v ∧ chosen v = true := by
  rw [listing, mem_mergeSort, mem_filter, keyed.mem_values]

/-- A listing is in order and has no key twice. -/
theorem pairwise_listing [LE K] [Std.IsLinearOrder K] [Std.LawfulOrderLT K]
    (keyed : Keyed key m) : ((listing key m chosen).map key).Pairwise (· < ·) := by
  have sorted : (listing key m chosen).Pairwise fun a b => ¬ key b < key a := by
    have ordered : (listing key m chosen).Pairwise fun a b => decide (¬ key b < key a) = true := by
      apply pairwise_mergeSort
      · intro a b c ab bc
        simp only [decide_eq_true_eq, Std.not_lt] at ab bc ⊢
        exact Std.le_trans ab bc
      · intro a b
        simp only [Bool.or_eq_true, decide_eq_true_eq, Std.not_lt]
        exact Std.le_total
    exact ordered.imp of_decide_eq_true
  have distinct : ((listing key m chosen).map key).Nodup := by
    have sub : (((m.entries.map Sigma.snd).filter chosen).map key).Nodup :=
      keyed.nodup_values.sublist (filter_sublist.map key)
    exact ((mergeSort_perm _ _).map key).nodup_iff.mpr sub
  rw [pairwise_map]
  refine (sorted.and (pairwise_map.mp distinct)).imp ?_
  intro a b ⟨ordered, different⟩
  exact Std.lt_of_le_of_ne (Std.not_lt.mp ordered) different

end Listing

end Hermes.Overlay
