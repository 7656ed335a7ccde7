import Hermes.Data.Merge
import Hermes.Membership.MemberList

/-!
# Convergence of gossip

What a list says about a member has a rank, first by the incarnation and then by the state.
An update is news if its rank is higher, and applying it takes the maximum of the ranks.  A
list therefore depends only on which updates have reached it.
-/

namespace Hermes.Membership

open Bool Option
open Raft (NodeID)
open Merge (shown)

/-- The rank of a state and an incarnation. -/
def rank (state : MemberState) (incarnation : UInt64) : ℕ ×ₗ ℕ :=
  toLex (incarnation.toNat, state.priority)

theorem priority_injective : Function.Injective MemberState.priority := by
  intro a b same
  cases a <;> cases b <;> first | rfl | nomatch same

theorem rank_injective {s s' : MemberState} {i i' : UInt64} (same : rank s i = rank s' i') :
    (s, i) = (s', i') := by
  obtain ⟨incarnation, priority⟩ := Prod.mk.inj (toLex.injective same)
  rw [priority_injective priority, UInt64.toNat_inj.mp incarnation]

def Member.rank (m : Member) : ℕ ×ₗ ℕ :=
  Membership.rank m.state m.incarnation

def GossipUpdate.rank (update : GossipUpdate) : ℕ ×ₗ ℕ :=
  Membership.rank update.state update.incarnation

/-- The record that an update brings. -/
def GossipUpdate.member (update : GossipUpdate) (now : Int) : Member where
  nodeID := update.nodeID
  address := update.address
  state := update.state
  incarnation := update.incarnation
  lastSeen := now

/-- Superseding is having a higher rank. -/
theorem Member.supersedes_iff {m other : Member} (same : m.nodeID = other.nodeID) :
    m.supersedes other = true ↔ other.rank < m.rank := by
  rw [rank, rank, Membership.rank, Membership.rank, Prod.Lex.toLex_lt_toLex, supersedes,
    if_neg (not_not_intro same)]
  simp only [UInt64.lt_iff_toNat_lt]
  rcases lt_trichotomy m.incarnation.toNat other.incarnation.toNat with less | equal | more
  · simp [less, less.ne']
  · simp [equal]
  · simp [more]

namespace MemberList

variable {ml : MemberList} {update : GossipUpdate} {now : Int}

/-- What applying an update can do. -/
inductive Applies (ml : MemberList) (update : GossipUpdate) (now : Int) : MemberList → Prop where
  | joined (unknown : ml.members.lookup update.nodeID = none) :
    Applies ml update now ((ml.put (update.member now)).queueUpdate update)
  | stale {m : Member} (known : ml.members.lookup update.nodeID = some m)
    (old : update.rank ≤ m.rank) : Applies ml update now ml
  | renewed {m : Member} (known : ml.members.lookup update.nodeID = some m)
    (news : m.rank < update.rank) (same : m.state = update.state) :
    Applies ml update now (ml.put (update.member now))
  | changed {m : Member} (known : ml.members.lookup update.nodeID = some m)
    (news : m.rank < update.rank) (other : m.state ≠ update.state) :
    Applies ml update now ((ml.put (update.member now)).queueUpdate update)

theorem applyUpdate_applies (ml : MemberList) (update : GossipUpdate) (now : Int) :
    Applies ml update now (ml.applyUpdate update now).1 := by
  unfold applyUpdate
  cases known : ml.members.lookup update.nodeID with
  | none => exact .joined known
  | some m =>
    have filed := ml.nodeID_eq known
    have news := Member.supersedes_iff (m := update.member now) filed.symm
    dsimp only
    split
    · rename_i stale
      apply Applies.stale known
      rw [not_eq_true', eq_false_iff] at stale
      exact not_lt.mp fun higher => stale (news.mpr higher)
    · rename_i fresh
      rw [not_eq_true', not_eq_false] at fresh
      have higher := news.mp fresh
      split
      · rename_i same
        exact .renewed known higher same
      · rename_i other
        exact .changed known higher other

/-- The list after an update. -/
theorem applyUpdate_fst (ml : MemberList) (update : GossipUpdate) (now : Int) :
    (ml.applyUpdate update now).1 =
      match ml.members.lookup update.nodeID with
      | none => (ml.put (update.member now)).queueUpdate update
      | some m =>
        if m.rank < update.rank then
          if m.state = update.state then ml.put (update.member now)
          else (ml.put (update.member now)).queueUpdate update
        else ml := by
  have applies := applyUpdate_applies ml update now
  generalize (ml.applyUpdate update now).1 = ml' at applies
  cases applies with
  | joined unknown => rw [unknown]
  | stale known old =>
    rw [known]
    exact (if_neg (not_lt.mpr old)).symm
  | renewed known news same =>
    rw [known]
    dsimp only
    rw [if_pos news, if_pos same]
  | changed known news other =>
    rw [known]
    dsimp only
    rw [if_pos news, if_neg other]

/-- An update that is no news changes nothing. -/
theorem applyUpdate_of_le {m : Member} (known : ml.members.lookup update.nodeID = some m)
    (old : update.rank ≤ m.rank) : (ml.applyUpdate update now).1 = ml := by
  rw [applyUpdate_fst, known]
  exact if_neg (not_lt.mpr old)

/-- What a list says about a node. -/
def view (ml : MemberList) (id : NodeID) : Option (MemberState × UInt64) :=
  (ml.members.lookup id).map fun m => (m.state, m.incarnation)

/-- Apply updates one after the other, each at its own time. -/
def applyUpdates (ml : MemberList) (updates : List (GossipUpdate × Int)) : MemberList :=
  updates.foldl (fun ml u => (ml.applyUpdate u.1 u.2).1) ml

theorem applyUpdates_singleton (ml : MemberList) (update : GossipUpdate × Int) :
    ml.applyUpdates [update] = (ml.applyUpdate update.1 update.2).1 :=
  rfl

theorem view_put (ml : MemberList) (m : Member) (id : NodeID) :
    (ml.put m).view id = if id = m.nodeID then some (m.state, m.incarnation) else ml.view id := by
  rw [view, put, Merge.lookup_insert_ite]
  split <;> rfl

/-- The rank of what a list says about a node, with ignorance below everything else. -/
def standing (id : NodeID) (ml : MemberList) : WithBot (ℕ ×ₗ ℕ) :=
  shown Member.rank ml.members id

variable {id : NodeID}

theorem standing_of_lookup {ml : MemberList} {m : Option Member}
    (known : ml.members.lookup id = m) :
    standing id ml = Merge.level Member.rank m := by
  rw [standing, shown, known]

/-- The rank of what is said about a node determines it. -/
theorem view_eq_of_standing {ml ml' : MemberList} (same : standing id ml = standing id ml') :
    ml.view id = ml'.view id := by
  have ranks := Merge.level_eq_level_iff.mp same
  unfold view
  cases known : ml.members.lookup id with
  | none =>
    rw [known, map_none, eq_comm, map_eq_none_iff] at ranks
    rw [ranks]
  | some m =>
    rw [known, map_some, eq_comm, map_eq_some_iff] at ranks
    obtain ⟨m', known', equal⟩ := ranks
    rw [known', map_some, map_some, rank_injective equal]

/-- Applying an update takes the maximum. -/
theorem Applies.standing_eq {ml' : MemberList} (applies : Applies ml update now ml')
    (id : NodeID) : standing id ml' =
      standing id ml ⊔ if id = update.nodeID then (update.rank : WithBot (ℕ ×ₗ ℕ)) else ⊥ := by
  have put : standing id (ml.put (update.member now)) =
      if id = update.nodeID then (update.rank : WithBot (ℕ ×ₗ ℕ)) else standing id ml :=
    (congrFun (Merge.shown_insert Member.rank ml.members update.nodeID _) id).trans
      (Function.update_apply ..)
  split
  · rename_i same
    subst same
    rw [if_pos rfl] at put
    cases applies with
    | joined unknown =>
      rw [standing_of_lookup unknown]
      exact put.trans (bot_sup_eq _).symm
    | stale known old =>
      rw [standing_of_lookup known]
      exact (sup_eq_left.mpr (WithBot.coe_le_coe.mpr old)).symm
    | renewed known news =>
      rw [standing_of_lookup known]
      exact put.trans (sup_eq_right.mpr (WithBot.coe_le_coe.mpr news.le)).symm
    | changed known news =>
      rw [standing_of_lookup known]
      exact put.trans (sup_eq_right.mpr (WithBot.coe_le_coe.mpr news.le)).symm
  · rename_i other
    rw [if_neg other] at put
    rw [sup_bot_eq]
    cases applies with
    | joined | renewed | changed => exact put
    | stale => rfl

theorem view_applyUpdate_of_ne (ml : MemberList) (update : GossipUpdate) (now : Int)
    (other : id ≠ update.nodeID) : (ml.applyUpdate update now).1.view id = ml.view id := by
  apply view_eq_of_standing
  rw [(applyUpdate_applies ml update now).standing_eq, if_neg other, sup_bot_eq]

/-- Lists to which the same updates are applied, in any order and as often as one likes, say
the same about every node. -/
theorem view_applyUpdates_eq (ml : MemberList) (updates others : List (GossipUpdate × Int))
    (same : ∀ update, update ∈ updates.map Prod.fst ↔ update ∈ others.map Prod.fst)
    (id : NodeID) : (ml.applyUpdates updates).view id = (ml.applyUpdates others).view id := by
  apply view_eq_of_standing
  apply Merge.foldl_congr fun update : GossipUpdate =>
    if id = update.nodeID then (update.rank : WithBot (ℕ ×ₗ ℕ)) else ⊥
  · intro ml u
    exact (applyUpdate_applies ml u.1 u.2).standing_eq id
  · exact same

/-- A node is suspected and refutes it, another one leaves. -/
def rumours : List (GossipUpdate × Int) :=
  [(⟨"a", .suspected, 1, ""⟩, 1), (⟨"a", .alive, 2, ""⟩, 2), (⟨"b", .left, 1, "b:1"⟩, 3)]

theorem view_applyUpdates_eq_rumours :
    ((new "a" 0).applyUpdates rumours).view "a" = some (.alive, 2) ∧
      ((new "a" 0).applyUpdates (rumours ++ rumours).reverse).view "a" =
        ((new "a" 0).applyUpdates rumours).view "a" :=
  ⟨by decide, view_applyUpdates_eq (new "a" 0) (rumours ++ rumours).reverse rumours
    (fun _ => by simp) "a"⟩

end MemberList

end Hermes.Membership
