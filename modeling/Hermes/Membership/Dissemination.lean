import Hermes.Data.Runs
import Hermes.Membership.Convergence

/-!
# Dissemination of changes

A change of the member list is meant to reach the other nodes through the queue of recent
updates, from which outgoing messages take a few.  Not every change enters the queue: marking
a node as suspected or dead, refuting a suspicion and renewing an incarnation do not.  And a
message takes the oldest updates, so that later ones are not sent once the queue is longer
than what a message takes.
-/

namespace Hermes.Membership

open List
open Raft (NodeID)

/-- What is gossiped about a node. -/
abbrev Announcement := NodeID × MemberState × UInt64

def GossipUpdate.announcement (update : GossipUpdate) : Announcement :=
  (update.nodeID, update.state, update.incarnation)

inductive Call where
  | applyUpdate (update : GossipUpdate)
  | suspectNode (nodeID : NodeID)
  | confirmDead (nodeID : NodeID)
  | refuteSuspicion
  deriving DecidableEq, Repr

namespace Call

def run (ml : MemberList) (now : Int) : Call → MemberList
  | .applyUpdate update => (ml.applyUpdate update now).1
  | .suspectNode nodeID => (ml.suspectNode nodeID now).1
  | .confirmDead nodeID => (ml.confirmDead nodeID now).1
  | .refuteSuspicion => ml.refuteSuspicion.2

/-- The node that a call is about. -/
def subject (ml : MemberList) : Call → NodeID
  | .applyUpdate update => update.nodeID
  | .suspectNode nodeID => nodeID
  | .confirmDead nodeID => nodeID
  | .refuteSuspicion => ml.localID

end Call

/-- A list and the changes of what it says about nodes, in the order in which they came. -/
structure Gossiping where
  list : MemberList
  changes : List Announcement := []

namespace Gossiping

/-- The change that a call has made. -/
def change (before after : MemberList) (id : NodeID) : List Announcement :=
  if after.view id = before.view id then []
  else (after.view id).toList.map fun (state, incarnation) => (id, state, incarnation)

/-- A call at a time. -/
def step (s : Gossiping) (event : Call × Int) : Option Gossiping :=
  let list := event.1.run s.list event.2
  some
    { list := list
      changes := s.changes ++ change s.list list (event.1.subject s.list) }

/-- The member list of a new node. -/
def start (localID : NodeID) (now : Int) : Gossiping where
  list := .new localID now

/-- A change is among the updates that a message takes until as many others have happened. -/
def Disseminated (m : ℕ) (s : Gossiping) : Prop :=
  ∀ i change, s.changes[i]? = some change → s.changes.length ≤ i + m →
    change ∈ (s.list.recentUpdatesUpTo m).map GossipUpdate.announcement

/-- A call announces what it changes: it is an update that is no news, or one that changes
the state while a message takes the whole queue. -/
def Announces (m : ℕ) (s : Gossiping) (event : Call × Int) : Prop :=
  match event.1 with
  | .applyUpdate update =>
    (∃ member ∈ s.list.members.lookup update.nodeID,
      (update.member event.2).supersedes member = false) ∨
    (∀ member ∈ s.list.members.lookup update.nodeID, member.state ≠ update.state) ∧
      (s.list.recentUpdates.length < m ∨ m = 64)
  | .suspectNode nodeID => ∀ member ∈ s.list.members.lookup nodeID, member.state ≠ .alive
  | .confirmDead nodeID => ∀ member ∈ s.list.members.lookup nodeID, member.state = .dead
  | .refuteSuspicion => False

instance (m : ℕ) (s : Gossiping) : DecidablePred (Announces m s) := by
  rintro ⟨_ | _, _⟩ <;> delta Announces <;> infer_instance

/-! ## What announced calls do -/

variable {m : ℕ} {s s' : Gossiping}

theorem change_of_view_eq {before after : MemberList} {id : NodeID}
    (same : after.view id = before.view id) : change before after id = [] :=
  if_pos same

variable {update : GossipUpdate} {now : Int} {ml : MemberList}

theorem change_put (news : ml.view update.nodeID ≠ some (update.state, update.incarnation)) :
    change ml (ml.put (update.member now)) update.nodeID = [update.announcement] := by
  have view : (ml.put (update.member now)).view update.nodeID =
      some (update.state, update.incarnation) := by
    rw [MemberList.view_put]
    exact if_pos rfl
  rw [change, view, if_neg (Ne.symm news)]
  rfl

variable {member : Member}

theorem view_ne_of_rank_lt (known : ml.members.lookup update.nodeID = some member)
    (news : member.rank < update.rank) :
    ml.view update.nodeID ≠ some (update.state, update.incarnation) := by
  intro same
  rw [MemberList.view, known, Option.map_some, Option.some_inj, Prod.mk.injEq] at same
  rw [Member.rank, same.1, same.2] at news
  exact lt_irrefl _ news

/-- A call that announces what it changes either changes nothing or queues its change. -/
inductive Announced (m : ℕ) (s s' : Gossiping) : Prop where
  | quiet (changes : s'.changes = s.changes)
    (queue : s'.list.recentUpdates = s.list.recentUpdates)
  | queued (update : GossipUpdate) (changes : s'.changes = s.changes ++ [update.announcement])
    (queue : s'.list.recentUpdates = (s.list.queueUpdate update).recentUpdates)
    (room : s.list.recentUpdates.length < m ∨ m = 64)

variable {event : Call × Int}

theorem announced_of_run_eq (happens : s.step event = some s')
    (same : event.1.run s.list event.2 = s.list) : Announced m s s' := by
  cases happens
  apply Announced.quiet
  · rw [same, change_of_view_eq rfl, append_nil]
  · rw [same]

theorem Announces.of_news (announces : Announces m s (.applyUpdate update, now))
    (known : s.list.members.lookup update.nodeID = some member) (news : member.rank < update.rank) :
    member.state ≠ update.state ∧ (s.list.recentUpdates.length < m ∨ m = 64) := by
  rcases announces with ⟨other, found, stale⟩ | ⟨differs, room⟩
  · cases known.symm.trans found
    have filed := s.list.nodeID_eq known
    have supersedes := (Member.supersedes_iff (m := update.member now) filed.symm).mpr news
    rw [stale] at supersedes
    nomatch supersedes
  · exact ⟨differs member known, room⟩

theorem announced_of_applies {list : MemberList}
    (announces : Announces m s (.applyUpdate update, now))
    (applies : s.list.Applies update now list) :
    Announced m s { list := list, changes := s.changes ++ change s.list list update.nodeID } := by
  cases applies with
  | joined unknown =>
    rcases announces with ⟨member, known, -⟩ | ⟨-, room⟩
    · rw [unknown] at known
      cases known
    · apply Announced.queued update _ rfl room
      have news : s.list.view update.nodeID ≠ some (update.state, update.incarnation) := by
        rw [MemberList.view, unknown]
        rintro ⟨⟩
      exact congrArg _ (change_put news)
  | stale known old =>
    apply Announced.quiet
    · rw [change_of_view_eq rfl, append_nil]
    · rfl
  | renewed known news same => exact absurd same (announces.of_news known news).1
  | changed known news other =>
    apply Announced.queued update _ rfl (announces.of_news known news).2
    exact congrArg _ (change_put (view_ne_of_rank_lt known news))

theorem Announces.announced (announces : Announces m s event) (happens : s.step event = some s') :
    Announced m s s' := by
  obtain ⟨call, now⟩ := event
  cases call with
  | applyUpdate update =>
    cases happens
    exact announced_of_applies announces (MemberList.applyUpdate_applies s.list update now)
  | suspectNode nodeID =>
    apply announced_of_run_eq happens
    rw [Call.run, MemberList.suspectNode]
    cases known : s.list.members.lookup nodeID with
    | none => rfl
    | some member =>
      dsimp only
      rw [if_pos (announces member known)]
  | confirmDead nodeID =>
    apply announced_of_run_eq happens
    rw [Call.run, MemberList.confirmDead]
    cases known : s.list.members.lookup nodeID with
    | none => rfl
    | some member =>
      dsimp only
      rw [if_pos (announces member known)]
  | refuteSuspicion => exact announces.elim

/-! ## Runs -/

/-- The queue holds the last changes, and a message takes all of it. -/
structure Queued (m : ℕ) (s : Gossiping) : Prop where
  bounded : s.list.recentUpdates.length ≤ 64
  last : ∃ old, s.changes = old ++ s.list.recentUpdates.map GossipUpdate.announcement ∧
    (old = [] ∨ s.list.recentUpdates.length = 64)
  room : s.changes.length ≤ m ∨ m = 64

/-- A queue that is not full grows, and a full one loses its oldest update. -/
theorem queueUpdate_cases (ml : MemberList) (update : GossipUpdate)
    (bounded : ml.recentUpdates.length ≤ 64) :
    ml.recentUpdates.length < 64 ∧
      (ml.queueUpdate update).recentUpdates = ml.recentUpdates ++ [update] ∨
    ∃ oldest rest, ml.recentUpdates = oldest :: rest ∧ rest.length = 63 ∧
      (ml.queueUpdate update).recentUpdates = rest ++ [update] := by
  rw [MemberList.queueUpdate]
  rw [length_append, length_singleton]
  rcases bounded.lt_or_eq with less | full
  · rw [if_neg (by omega)]
    exact .inl ⟨less, rfl⟩
  · rw [if_pos (by omega)]
    obtain ⟨oldest, rest, queue⟩ := exists_cons_of_length_eq_add_one full
    rw [queue] at full
    rw [queue]
    exact .inr ⟨oldest, rest, rfl, Nat.succ.inj full, rfl⟩

theorem queued_start (localID : NodeID) (now : Int) : Queued m (start localID now) where
  bounded := Nat.zero_le _
  last := ⟨[], rfl, .inl rfl⟩
  room := .inl (Nat.zero_le _)

theorem Queued.length_changes_lt (queued : Queued m s) (high : m ≤ 64)
    (space : s.list.recentUpdates.length < m) : s.changes.length < m := by
  obtain ⟨old, changes, rfl | full⟩ := queued.last
  · rw [changes, nil_append, length_map]
    exact space
  · omega

theorem Queued.announced (queued : Queued m s) (high : m ≤ 64) (announced : Announced m s s') :
    Queued m s' := by
  cases announced with
  | quiet changes queue =>
    constructor
    · rw [queue]
      exact queued.bounded
    · rw [queue, changes]
      exact queued.last
    · rw [changes]
      exact queued.room
  | queued update changes queue space =>
    have room : s'.changes.length ≤ m ∨ m = 64 := by
      apply space.imp_left
      intro less
      rw [changes, length_append]
      exact queued.length_changes_lt high less
    obtain ⟨old, before, full⟩ := queued.last
    rcases queueUpdate_cases s.list update queued.bounded with
      ⟨less, grown⟩ | ⟨oldest, rest, was, length, lost⟩
    · constructor
      · rw [queue, grown, length_append]
        exact less
      · rw [queue, grown, changes, before]
        exact ⟨old, by simp, .inl (full.resolve_right less.ne)⟩
      · exact room
    · constructor
      · rw [queue, lost, length_append, length]
        rfl
      · rw [queue, lost, changes, before, was, length_append, length]
        exact ⟨old ++ [oldest.announcement], by simp, .inr rfl⟩
      · exact room

theorem Queued.disseminated (queued : Queued m s) (high : m ≤ 64) : Disseminated m s := by
  intro i change found recent
  obtain ⟨old, changes, full⟩ := queued.last
  have length := congrArg length changes
  rw [length_append, length_map] at length
  -- the queue is within what a message takes, and the change is not older than the queue
  have whole : s.list.recentUpdatesUpTo m = s.list.recentUpdates := by
    apply take_of_length_le
    rcases queued.room with few | rfl
    · omega
    · exact queued.bounded
  have later : old.length ≤ i := by
    rcases full with rfl | full
    · exact Nat.zero_le _
    · omega
  rw [changes, getElem?_append_right later] at found
  rw [whole]
  exact mem_of_getElem? found

theorem queued_of_reachable (high : m ≤ 64) {localID : NodeID}
    (reachable : Runs.Reachable step (Announces m) (start localID now) s) : Queued m s := by
  apply reachable.invariant
  · exact queued_start localID now
  · intro s event s' queued announces happens
    exact queued.announced high (announces.announced happens)

/-- Changes are gossiped as long as calls announce what they change. -/
theorem disseminated_of_announces {m : ℕ} (high : m ≤ 64) {localID : NodeID} {now : Int}
    {s : Gossiping} (reachable : Runs.Reachable step (Announces m) (start localID now) s) :
    Disseminated m s :=
  (queued_of_reachable high reachable).disseminated high

/-- A node joins, is suspected by another one, dies, and is suspected here in vain. -/
def announcedCalls : List (Call × Int) :=
  [(.applyUpdate ⟨"b", .alive, 1, "b:1"⟩, 1), (.applyUpdate ⟨"b", .suspected, 1, ""⟩, 2),
    (.applyUpdate ⟨"b", .dead, 1, ""⟩, 3), (.suspectNode "b", 4)]

theorem disseminated_of_announces_calls :
    ∃ s, Runs.Reachable step (Announces 8) (start "a" 0) s ∧
      s.changes = [("b", .alive, 1), ("b", .suspected, 1), ("b", .dead, 1)] ∧
      Disseminated 8 s := by
  refine Runs.exists_of_exec_and step (Announces 8) (start "a" 0) announcedCalls (by decide +kernel)
    fun s reachable _ => ?_
  exact disseminated_of_announces (by decide) reachable

theorem not_disseminated_of_missing {i : ℕ} {change : Announcement}
    (found : s.changes[i]? = some change) (recent : s.changes.length ≤ i + m)
    (missing : change ∉ (s.list.recentUpdatesUpTo m).map GossipUpdate.announcement) :
    ¬ Disseminated m s :=
  fun disseminated => missing (disseminated i change found recent)

/-- A suspicion is not gossiped at all, and of two joins a message that takes one update has
only the first. -/
theorem not_disseminated :
    (∃ s, Runs.Reachable step (fun _ _ => True) (start "a" 0) s ∧ ¬ Disseminated 8 s) ∧
      ∃ s, Runs.Reachable step (fun _ _ => True) (start "a" 0) s ∧ ¬ Disseminated 1 s := by
  constructor
  · obtain ⟨s, reachable, found, recent, missing⟩ := Runs.exists_of_exec step (fun _ _ => True)
      (start "a" 0) [(.applyUpdate ⟨"b", .alive, 1, "b:1"⟩, 1), (.suspectNode "b", 2)]
      (P := fun s => s.changes[1]? = some ("b", .suspected, 1) ∧ s.changes.length ≤ 1 + 8 ∧
        ("b", .suspected, 1) ∉ (s.list.recentUpdatesUpTo 8).map GossipUpdate.announcement)
      (by decide +kernel)
    exact ⟨s, reachable, not_disseminated_of_missing found recent missing⟩
  · obtain ⟨s, reachable, found, recent, missing⟩ := Runs.exists_of_exec step (fun _ _ => True)
      (start "a" 0)
      [(.applyUpdate ⟨"b", .alive, 1, "b:1"⟩, 1), (.applyUpdate ⟨"c", .alive, 1, "c:1"⟩, 2)]
      (P := fun s => s.changes[1]? = some ("c", .alive, 1) ∧ s.changes.length ≤ 1 + 1 ∧
        ("c", .alive, 1) ∉ (s.list.recentUpdatesUpTo 1).map GossipUpdate.announcement)
      (by decide +kernel)
    exact ⟨s, reachable, not_disseminated_of_missing found recent missing⟩

end Gossiping

end Hermes.Membership
