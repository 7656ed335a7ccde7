import Hermes.Consistency.Convergence
import Hermes.Data.Gossip

/-!
# Additions and removals of replicas

Replicas of an `ORSet` add and remove elements and merge states of each other.  An element
should be in the set if its causal past has an addition that no removal has seen.  Additions
are told apart by tags that each replica counts for itself, so that this holds as long as no
two additions of an element have the same tag.
-/

namespace Hermes.Consistency

open AList Causality Gossip List Merge

inductive SetOp where
  | add (element : String)
  | remove (element : String)
  deriving DecidableEq, Repr

namespace ORSet

def apply (s : ORSet) : SetOp → ORSet
  | .add element => s.add element
  | .remove element => s.remove element

/-- Replicas with distinct node IDs. -/
def object : Object NodeID ORSet SetOp where
  init := new
  apply := apply
  merge := merge

end ORSet

abbrev SetEvent := Occurrence NodeID ORSet SetOp

abbrev SetExecution := Execution NodeID ORSet SetOp

/-- An event of the run is an update. -/
def Does (history : List SetEvent) (e : ℕ) (op : SetOp) : Prop :=
  ∃ o, history[e]? = some o ∧ o.action = .update op

/-- An event adds an element, with a tag. -/
def Adds (history : List SetEvent) (e : ℕ) (element : String) (tag : UInt64) : Prop :=
  ∃ o, history[e]? = some o ∧ o.action = .update (.add element) ∧ o.state.nextTag = tag

/-- The causal past of a replica has an addition of the element that is in the past of none
of the removals there. -/
def AddWins (s : SetExecution) (p : NodeID) (element : String) : Prop :=
  ∃ e ∈ s.known p, Does s.trace e (.add element) ∧
    ∀ r ∈ s.known p, Does s.trace r (.remove element) → e ∉ s.past r

/-- An addition takes a tag that no addition of the same element has taken. -/
def Fresh (s : SetExecution) (call : NodeID × Action NodeID SetOp) : Prop :=
  match call.2 with
  | .update (.add element) => ∀ o ∈ s.trace, o.action = .update (.add element) →
    o.state.nextTag ≠ (s.replicas call.1).nextTag + 1
  | .update (.remove _) => True
  | .merge _ => True

instance (s : SetExecution) : DecidablePred (Fresh s) := by
  rintro ⟨_, (_ | _) | _⟩ <;> delta Fresh <;> infer_instance

/-! ## Marks -/

variable {element : String} {s : ORSet}

namespace ORSet

/-- What a set has for a tag of an element: nothing, or whether it is removed. -/
def mark (s : ORSet) (element : String) (tag : UInt64) : WithBot Bool :=
  shown id (s.tags element) tag

theorem mark_of_absent (absent : s.elements.lookup element = none) (tag : UInt64) :
    s.mark element tag = ⊥ := by
  unfold mark tags
  rw [absent]
  rfl

section

variable (s : ORSet) (element other : String) (tag : UInt64)

theorem shown_tags : shown id (s.tags element) = (s.rank element).unbotD ⊥ := by
  unfold tags rank
  rw [shown.eq_def (shown id)]
  cases s.elements.lookup element <;> rfl

theorem mark_merge (other : ORSet) :
    (s.merge other).mark element tag = s.mark element tag ⊔ other.mark element tag := by
  unfold mark
  rw [shown_tags, shown_tags, shown_tags, rank_merge, Pi.sup_apply]
  cases s.rank element <;> cases other.rank element <;> simp [← WithBot.coe_sup]

theorem tags_insert (tags : Tags) :
    ({ s with elements := s.elements.insert element tags } : ORSet).tags other =
      if other = element then tags else s.tags other := by
  rw [ORSet.tags, lookup_insert_ite]
  split <;> rfl

theorem mark_add :
    (s.add element).mark other tag =
      if other = element ∧ tag = s.nextTag + 1 then (false : WithBot Bool)
      else s.mark other tag := by
  have tags : (s.add element).tags other = if other = element then
      (s.tags element).insert (s.nextTag + 1) false else s.tags other := tags_insert s _ _ _
  unfold mark
  rw [tags]
  by_cases same : other = element
  · subst same
    rw [if_pos rfl, shown_insert]
    simp [Function.update_apply]
  · rw [if_neg same, if_neg fun both => same both.1]

theorem shown_markRemoved (tags : Tags) :
    shown id (markRemoved tags) tag =
      if shown id tags tag = ⊥ then ⊥ else (true : WithBot Bool) := by
  have loop : ∀ (entries : List ((_ : UInt64) × Bool)) (marked : Tags),
      shown id (entries.foldl (fun marked entry => marked.insert entry.1 true) marked) tag =
        if tag ∈ entries.keys then (true : WithBot Bool) else shown id marked tag := by
    intro entries
    induction entries with
    | nil => exact fun _ => rfl
    | cons entry rest ih =>
      intro marked
      rw [foldl_cons, ih, shown_insert]
      by_cases here : tag = entry.1
      · simp [here]
      · simp [here]
  have absent : tag ∉ tags.entries.keys ↔ shown id tags tag = ⊥ := by
    show tag ∉ tags.keys ↔ _
    rw [← AList.mem_keys, ← AList.lookup_eq_none, shown]
    cases tags.lookup tag <;> simp [level]
  rw [markRemoved, loop]
  by_cases mem : tag ∈ tags.entries.keys
  · rw [if_pos mem, if_neg fun nothing => absent.mpr nothing mem]
  · rw [if_neg mem, if_pos (absent.mp mem), absent.mp mem]

theorem mark_remove :
    (s.remove element).mark other tag =
      if other = element ∧ s.mark other tag ≠ ⊥ then (true : WithBot Bool)
      else s.mark other tag := by
  unfold remove
  split
  · rename_i absent
    rw [if_neg]
    rintro ⟨rfl, present⟩
    exact present (mark_of_absent absent tag)
  · rename_i tags found
    by_cases same : other = element
    · have here : s.mark other tag = shown id tags tag := by
        unfold mark ORSet.tags
        rw [same, found]
        rfl
      rw [mark, tags_insert, if_pos same, shown_markRemoved, here]
      by_cases nothing : shown id tags tag = ⊥ <;> simp [nothing, same]
    · rw [mark, tags_insert, if_neg same, if_neg fun both => same both.1]
      rfl

theorem contains_iff : s.contains element ↔ ∃ tag, s.mark element tag = (false : WithBot Bool) := by
  unfold contains
  cases found : s.elements.lookup element with
  | none => simp [mark_of_absent found]
  | some tags =>
    have here : ∀ tag, s.mark element tag = level id (tags.lookup tag) := by
      intro tag
      unfold mark ORSet.tags
      rw [found]
      rfl
    dsimp only
    rw [live, any_eq_true]
    constructor
    · rintro ⟨entry, mem, notRemoved⟩
      refine ⟨entry.1, ?_⟩
      rw [here, mem_lookup_iff.mpr mem]
      exact congrArg _ (Bool.eq_false_of_not_eq_true (by simpa using notRemoved))
    · rintro ⟨tag, marked⟩
      rw [here] at marked
      cases value : tags.lookup tag with
      | none => simp [value, level] at marked
      | some removed =>
        rw [value] at marked
        have notRemoved : removed = false := WithBot.coe_injective marked
        exact ⟨⟨tag, removed⟩, mem_lookup_iff.mp value, by simp [notRemoved]⟩

end

end ORSet

/-! ## Runs -/

variable {tag : UInt64} {history : List SetEvent} {o : SetEvent}

section Extension

variable {e : ℕ}

theorem adds_concat_iff (old : e < history.length) :
    Adds (history ++ [o]) e element tag ↔ Adds history e element tag := by
  unfold Adds
  rw [getElem?_append_left old]

theorem does_concat_iff (old : e < history.length) {op : SetOp} :
    Does (history ++ [o]) e op ↔ Does history e op := by
  unfold Does
  rw [getElem?_append_left old]

theorem adds_length_iff : Adds (history ++ [o]) history.length element tag ↔
      o.action = .update (.add element) ∧ o.state.nextTag = tag := by
  simp [Adds]

theorem does_length_iff {op : SetOp} :
    Does (history ++ [o]) history.length op ↔ o.action = .update op := by
  simp [Does]

end Extension

/-- What removals have seen: a tag of an element that some removal there has in its past. -/
def Seen (history : List SetEvent) (known : Set ℕ) (element : String) (tag : UInt64) : Prop :=
  ∃ r ∈ known, Does history r (.remove element) ∧
    ∃ e, Past (events history) e r ∧ Adds history e element tag

/-- A set has the tags of the additions in its past, and has removed those that removals
there have seen. -/
structure Marks (history : List SetEvent) (s : ORSet) (known : Set ℕ) : Prop where
  present : ∀ element tag, s.mark element tag ≠ ⊥ ↔ ∃ e ∈ known, Adds history e element tag
  removed : ∀ element tag, s.mark element tag = ((true : Bool) : WithBot Bool) ↔
    Seen history known element tag

variable {known : Set ℕ}

/-- An event that does not remove the element sees nothing of it. -/
theorem seen_insert_iff {n : ℕ} (other : ¬ Does history n (.remove element)) :
    Seen history (insert n known) element tag ↔ Seen history known element tag := by
  constructor
  · rintro ⟨r, rfl | mem, does, rest⟩
    · exact absurd does other
    · exact ⟨r, mem, does, rest⟩
  · rintro ⟨r, mem, rest⟩
    exact ⟨r, .inr mem, rest⟩

theorem exists_adds_insert_iff {n : ℕ} :
    (∃ e ∈ insert n known, Adds history e element tag) ↔
      Adds history n element tag ∨ ∃ e ∈ known, Adds history e element tag := by
  simp only [Set.mem_insert_iff, or_and_right, exists_or, exists_eq_left]

theorem Marks.merge {a b : ORSet} {A B : Set ℕ} (left : Marks history a A)
    (right : Marks history b B) : Marks history (a.merge b) (A ∪ B) := by
  constructor
  · intro element tag
    rw [ORSet.mark_merge, ne_eq, sup_eq_bot_iff, not_and_or, ← ne_eq, ← ne_eq,
      left.present, right.present]
    simp only [Set.mem_union, or_and_right, exists_or]
  · intro element tag
    have sup : ∀ x y : WithBot Bool, x ⊔ y = (true : WithBot Bool) ↔
        x = (true : WithBot Bool) ∨ y = (true : WithBot Bool) := by
      intro x y
      cases x <;> cases y <;> simp [← WithBot.coe_sup]
    rw [ORSet.mark_merge, sup, left.removed, right.removed]
    simp only [Seen, Set.mem_union, or_and_right, exists_or]

theorem Marks.merged {source : Source NodeID} (marks : Marks (history ++ [o]) s known)
    (merging : o.action = .merge source) :
    Marks (history ++ [o]) s (insert history.length known) := by
  constructor
  · intro element tag
    rw [marks.present, exists_adds_insert_iff, adds_length_iff, merging]
    simp
  · intro element tag
    rw [marks.removed, seen_insert_iff]
    rw [does_length_iff, merging]
    simp

section

variable (within : ∀ e ∈ known, e < history.length)

include within

theorem exists_adds_concat_iff :
    (∃ e ∈ known, Adds (history ++ [o]) e element tag) ↔
      ∃ e ∈ known, Adds history e element tag := by
  apply exists_congr
  intro e
  apply and_congr_right
  exact fun mem => adds_concat_iff (within e mem)

/-- A new event is seen by the old removals as little as before. -/
theorem seen_concat_iff (valid : Valid (events (history ++ [o]))) :
    Seen (history ++ [o]) known element tag ↔ Seen history known element tag := by
  rw [events_concat] at valid
  apply exists_congr
  intro r
  apply and_congr_right
  intro mem
  have old := within r mem
  rw [does_concat_iff old, events_concat]
  apply and_congr_right
  intro _
  apply exists_congr
  intro e
  rw [past_concat_iff valid (by simpa using old)]
  apply and_congr_right
  intro past
  exact adds_concat_iff ((past.le valid.of_concat).trans_lt old)

variable (marks : Marks history s known)

include marks

theorem Marks.later (valid : Valid (events (history ++ [o]))) : Marks (history ++ [o]) s known := by
  constructor
  · intro element tag
    rw [exists_adds_concat_iff within]
    exact marks.present element tag
  · intro element tag
    rw [seen_concat_iff within valid]
    exact marks.removed element tag

/-- An addition with a fresh tag. -/
theorem Marks.add {p : NodeID}
    (valid : Valid (events (history ++ [⟨p, .update (.add element), s.add element⟩])))
    (fresh : ∀ e, ¬ Adds history e element (s.nextTag + 1)) :
    Marks (history ++ [⟨p, .update (.add element), s.add element⟩]) (s.add element)
      (insert history.length known) := by
  have longer := marks.later within valid
  constructor
  · intro other tag
    rw [exists_adds_insert_iff, adds_length_iff, ← longer.present, ORSet.mark_add]
    by_cases new : other = element ∧ tag = s.nextTag + 1
    · rw [if_pos new]
      obtain ⟨rfl, rfl⟩ := new
      exact iff_of_true (WithBot.coe_ne_bot) (.inl ⟨rfl, rfl⟩)
    · rw [if_neg new]
      apply (or_iff_right _).symm
      rintro ⟨same, rfl⟩
      simp only [Action.update.injEq, SetOp.add.injEq] at same
      exact new ⟨same.symm, rfl⟩
  · intro other tag
    rw [seen_insert_iff (by simp [does_length_iff]), ← longer.removed, ORSet.mark_add]
    split
    · -- a removal that has seen the tag would have seen another addition with it
      rename_i new
      obtain ⟨rfl, rfl⟩ := new
      rw [longer.removed, seen_concat_iff within valid]
      apply iff_of_false
      · simp
      · rintro ⟨_, _, _, e, _, adds⟩
        exact fresh e adds
    · rfl

/-- A removal sees the additions in its past. -/
theorem Marks.remove {p : NodeID}
    (valid : Valid (events (history ++ [⟨p, .update (.remove element), s.remove element⟩])))
    (past : ∀ e, Past (events (history ++ [⟨p, .update (.remove element), s.remove element⟩])) e
      history.length ↔ e = history.length ∨ e ∈ known) :
    Marks (history ++ [⟨p, .update (.remove element), s.remove element⟩]) (s.remove element)
      (insert history.length known) := by
  have longer := marks.later within valid
  constructor
  · intro other tag
    rw [exists_adds_insert_iff, adds_length_iff, ← longer.present, ORSet.mark_remove]
    simp only [reduceCtorEq, Action.update.injEq, false_and, false_or]
    split
    · rename_i here
      exact iff_of_true WithBot.coe_ne_bot here.2
    · rfl
  · intro other tag
    rw [ORSet.mark_remove]
    by_cases same : other = element
    · subst same
      have all : s.mark other tag ≠ ⊥ ↔ Seen (history ++ [⟨p, .update (.remove other),
          s.remove other⟩]) (insert history.length known) other tag := by
        constructor
        · intro present
          obtain ⟨e, mem, adds⟩ := (longer.present other tag).mp present
          exact ⟨history.length, .inl rfl, does_length_iff.mpr rfl, e,
            (past e).mpr (.inr mem), adds⟩
        · rintro ⟨r, rfl | mem, does, e, before, adds⟩
          · rcases (past e).mp before with rfl | mem
            · simp [adds_length_iff] at adds
            · exact (longer.present other tag).mpr ⟨e, mem, adds⟩
          · rw [(longer.removed other tag).mpr ⟨r, mem, does, e, before, adds⟩]
            exact WithBot.coe_ne_bot
      rw [← all]
      by_cases present : s.mark other tag = ⊥ <;> simp [present]
    · rw [if_neg fun here => same here.1, longer.removed, seen_insert_iff]
      rw [does_length_iff]
      simp [Ne.symm same]

end

theorem tracks_marks : Tracks ORSet.object Fresh Marks where
  first history p := by
    have nothing : ∀ element tag, (ORSet.new p).mark element tag = ⊥ := fun _ _ => rfl
    constructor
    · simp [ORSet.object, nothing]
    · simp [ORSet.object, nothing, Seen]
  later _ _ _ _ valid within marks := marks.later within valid
  merge _ _ _ _ _ left right := left.merge right
  merged _ _ _ _ _ merging _ marks := marks.merged merging
  update s p op reachable fresh marks := by
    have valid := valid_of_reachable reachable
    have result : ORSet.object.result s p (.update op) = some ((s.replicas p).apply op) := rfl
    have longer := valid_concat valid result
    have within : ∀ e ∈ s.known p, e < s.trace.length := fun e => lt_of_mem_known valid
    cases op with
    | add element =>
      apply marks.add within longer
      rintro e ⟨o, at_e, action, tag⟩
      exact fresh o (mem_of_getElem? at_e) action tag
    | remove element =>
      apply marks.remove within longer
      intro e
      show e ∈ (Object.happen s ⟨p, _, (s.replicas p).apply (.remove element)⟩).past _ ↔ _
      rw [past_length longer]
      simp [received, Occurrence.event]

/-- In a run where additions take fresh tags, the tag tells an addition of an element. -/
theorem adds_unique {s : SetExecution} (reachable : ORSet.object.Reachable Fresh s) {e f : ℕ}
    (first : Adds s.trace e element tag) (second : Adds s.trace f element tag) : e = f := by
  induction reachable generalizing e f element tag with
  | start =>
    obtain ⟨o, at_e, -⟩ := first
    nomatch at_e
  | @next s s' call _ fresh happens ih =>
    obtain ⟨state, result, rfl⟩ := Object.step_eq_some happens
    -- the new event does not repeat the tag of an old one
    have new : ∀ {e : ℕ}, Adds s.trace e element tag →
        ¬ (call.2 = .update (.add element) ∧ state.nextTag = tag) := by
      rintro e ⟨o, at_e, action, rfl⟩ ⟨adding, same⟩
      unfold Fresh at fresh
      rw [adding] at result fresh
      cases result
      exact fresh o (mem_of_getElem? at_e) action same.symm
    have cases : ∀ {e : ℕ}, Adds (s.trace ++ [⟨call.1, call.2, state⟩]) e element tag →
        Adds s.trace e element tag ∨ e = s.trace.length ∧
          call.2 = .update (.add element) ∧ state.nextTag = tag := by
      rintro e ⟨o, at_e, rest⟩
      rcases Runs.getElem?_concat_eq_some at_e with ⟨-, at_e⟩ | ⟨rfl, rfl⟩
      · exact .inl ⟨o, at_e, rest⟩
      · exact .inr ⟨rfl, rest⟩
    rcases cases first with old | ⟨rfl, one⟩ <;>
      rcases cases second with old' | ⟨rfl, other⟩
    · exact ih old old'
    · exact absurd other (new old)
    · exact absurd one (new old')
    · rfl

/-- In every run where no addition takes the tag of another addition of the same element,
an element is in the set of a replica exactly if an addition wins there. -/
theorem contains_iff_addWins {s : SetExecution} (reachable : ORSet.object.Reachable Fresh s)
    (p : NodeID) (element : String) :
    (s.replicas p).contains element = true ↔ AddWins s p element := by
  have marks := (tracks_marks.tracked reachable).replica p
  have live : ∀ mark : WithBot Bool, mark = (false : WithBot Bool) ↔
      mark ≠ ⊥ ∧ mark ≠ (true : WithBot Bool) := by
    intro mark
    cases mark with
    | bot => simp
    | coe removed => cases removed <;> simp
  rw [ORSet.contains_iff]
  constructor
  · rintro ⟨tag, marked⟩
    obtain ⟨present, notRemoved⟩ := (live _).mp marked
    rw [marks.present] at present
    rw [ne_eq, marks.removed] at notRemoved
    obtain ⟨e, mem, o, at_e, action, tagged⟩ := present
    refine ⟨e, mem, ⟨o, at_e, action⟩, fun r known removes past => ?_⟩
    exact notRemoved ⟨r, known, removes, e, past, o, at_e, action, tagged⟩
  · rintro ⟨e, mem, ⟨o, at_e, action⟩, unseen⟩
    have adds : Adds s.trace e element o.state.nextTag := ⟨o, at_e, action, rfl⟩
    refine ⟨o.state.nextTag, (live _).mpr ⟨?_, ?_⟩⟩
    · exact (marks.present _ _).mpr ⟨e, mem, adds⟩
    · intro removed
      obtain ⟨r, known, removes, f, past, other⟩ := (marks.removed _ _).mp removed
      rw [adds_unique reachable adds other] at unseen
      exact unseen r known removes past

/-- One replica adds an element that another one has known and removes: the addition wins
at the other replica. -/
theorem contains_iff_addWins_concurrent :
    ∃ s, ORSet.object.Reachable Fresh s ∧ AddWins s "b" "x" := by
  obtain ⟨s, reachable, contains⟩ := Runs.exists_of_exec ORSet.object.step Fresh
    ORSet.object.start
    [("a", .update (.add "x")), ("b", .merge (.after 0)), ("b", .update (.remove "x")),
      ("a", .update (.add "x")), ("b", .merge (.after 3))]
    (P := fun s => (s.replicas "b").contains "x") (by decide +kernel)
  exact ⟨s, reachable, (contains_iff_addWins reachable "b" "x").mp contains⟩

/-- Two replicas add an element with the same tag, and one of them removes it: when the
other one merges, its own addition is lost, although the removal has not seen it. -/
theorem addWins_lost :
    ∃ s, ORSet.object.Reachable (fun _ _ => True) s ∧ AddWins s "a" "x" ∧
      (s.replicas "a").contains "x" = false := by
  have none : ORSet.object.Reachable (fun _ _ => True) ORSet.object.start := .start
  have own := @none.next _ _ _ _ _ _ _ ("a", .update (.add "x")) trivial rfl
  have other := @own.next _ _ _ _ _ _ _ ("b", .update (.add "x")) trivial rfl
  have removed := @other.next _ _ _ _ _ _ _ ("b", .update (.remove "x")) trivial rfl
  have merged := @removed.next _ _ _ _ _ _ _ ("a", .merge (.after 2)) trivial rfl
  have valid := valid_of_reachable merged
  refine ⟨_, merged, ⟨0, ⟨0, _, rfl, rfl, .refl⟩, ⟨_, rfl, rfl⟩, ?_⟩, by decide⟩
  rintro r - ⟨o, at_r, removes⟩ past
  have only : r = 2 := by
    match r, at_r with
    | 0, rfl => nomatch removes
    | 1, rfl => nomatch removes
    | 2, _ => rfl
    | 3, rfl => nomatch removes
  subst only
  have below := (State.stamp_le_stamp_iff valid (by decide) (by decide)).mpr past
  exact absurd (below "a") (by decide)

end Hermes.Consistency
