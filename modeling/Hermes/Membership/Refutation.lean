import Hermes.Membership.Dissemination
import Hermes.Membership.Swim

/-!
# Refuting accusations

A node that hears that it is suspected or dead should answer with a higher incarnation.  It
does so only if its own list calls it suspected, it counts up its own incarnation and not the
one of the accusation, and what it says then does not enter the queue of updates.
-/

namespace Hermes.Membership

open List
open Raft (NodeID)

namespace MemberList

/-! ## The node's own record -/

variable {ml : MemberList} {nodeID : NodeID} {now : Int} {state : MemberState}
  {incarnation : UInt64}

section

variable (ml : MemberList)

theorem view_localID : ml.view ml.localID = some (ml.self.state, ml.self.incarnation) := by
  rw [view, lookup_localID, Option.map_some]

theorem lookup_refuteSuspicion :
    ml.refuteSuspicion.2.members.lookup ml.localID =
      some { ml.self with incarnation := ml.self.incarnation + 1, state := .alive } := by
  have filed := ml.self_nodeID
  rw [refuteSuspicion, put]
  dsimp only
  rw [filed, AList.lookup_insert]

theorem view_refuteSuspicion :
    ml.refuteSuspicion.2.view ml.localID = some (.alive, ml.self.incarnation + 1) := by
  rw [view, lookup_refuteSuspicion, Option.map_some]

end

theorem self_of_view (own : ml.view ml.localID = some (state, incarnation)) :
    ml.self.state = state ∧ ml.self.incarnation = incarnation := by
  rw [view_localID, Option.some_inj, Prod.mk.injEq] at own
  exact own

variable {update : GossipUpdate}

/-- The refutation is applied to a list that already has it. -/
theorem receive_of_suspected (suspected : ml.self.state = .suspected)
    (about : update.nodeID = ml.localID) :
    ml.receive ml.localID now update = ml.refuteSuspicion.2 := by
  rw [receive, if_pos about, lookup_localID]
  dsimp only
  rw [if_pos suspected]
  exact applyUpdate_of_le (lookup_refuteSuspicion ml) le_rfl

theorem receive_of_not_suspected (calm : ml.self.state ≠ .suspected)
    (about : update.nodeID = ml.localID) : ml.receive ml.localID now update = ml := by
  rw [receive, if_pos about, lookup_localID]
  exact if_neg calm

theorem receive_of_ne (other : update.nodeID ≠ nodeID) :
    ml.receive nodeID now update = (ml.applyUpdate update now).1 :=
  if_neg other

theorem view_receive_of_ne (other : update.nodeID ≠ nodeID) :
    (ml.receive nodeID now update).view nodeID = ml.view nodeID := by
  rw [receive_of_ne other]
  exact view_applyUpdate_of_ne ml update now (Ne.symm other)

/-- The record of a node that does not call itself suspected stays as it is. -/
theorem view_foldl_receive_of_not_suspected (updates : List GossipUpdate)
    (self : ml.localID = nodeID) (own : ml.view nodeID = some (state, incarnation))
    (calm : state ≠ .suspected) :
    (updates.foldl (receive · nodeID now) ml).view nodeID = some (state, incarnation) := by
  induction updates generalizing ml with
  | nil => exact own
  | cons update rest ih =>
    rw [foldl_cons]
    apply ih
    · rw [localID_receive, self]
    · by_cases about : update.nodeID = nodeID
      · subst self
        rw [receive_of_not_suspected ((self_of_view own).1 ▸ calm) about]
        exact own
      · rw [view_receive_of_ne about]
        exact own

/-- A node that calls itself suspected answers the first update about it, whatever it is. -/
theorem view_foldl_receive_of_suspected {updates : List GossipUpdate}
    (self : ml.localID = nodeID) (own : ml.view nodeID = some (.suspected, incarnation))
    (mentioned : ∃ update ∈ updates, update.nodeID = nodeID) :
    (updates.foldl (receive · nodeID now) ml).view nodeID = some (.alive, incarnation + 1) := by
  induction updates generalizing ml with
  | nil =>
    obtain ⟨update, mem, -⟩ := mentioned
    nomatch mem
  | cons update rest ih =>
    have self' : (ml.receive nodeID now update).localID = nodeID := by
      rw [localID_receive, self]
    by_cases about : update.nodeID = nodeID
    · apply view_foldl_receive_of_not_suspected rest self'
      · subst self
        obtain ⟨suspected, rfl⟩ := self_of_view own
        rw [receive_of_suspected suspected about]
        exact view_refuteSuspicion ml
      · exact nofun
    · apply ih self'
      · rw [view_receive_of_ne about]
        exact own
      · obtain ⟨other, mem, same⟩ := mentioned
        rcases mem_cons.mp mem with rfl | later
        · exact absurd same about
        · exact ⟨other, later, same⟩

/-! ## The queue -/

/-- Two lists that differ in one record at most. -/
structure AgreeElsewhere (nodeID : NodeID) (a b : MemberList) : Prop where
  queue : a.recentUpdates = b.recentUpdates
  lookup : ∀ id ≠ nodeID, a.members.lookup id = b.members.lookup id

namespace AgreeElsewhere

variable {a b : MemberList}

theorem refl (a : MemberList) : AgreeElsewhere nodeID a a where
  queue := rfl
  lookup _ _ := rfl

variable (agree : AgreeElsewhere nodeID a b)

include agree

theorem put (m : Member) : AgreeElsewhere nodeID (a.put m) (b.put m) where
  queue := agree.queue
  lookup id other := by
    rw [MemberList.put, MemberList.put, Merge.lookup_insert_ite, Merge.lookup_insert_ite,
      agree.lookup id other]

theorem queueUpdate (update : GossipUpdate) :
    AgreeElsewhere nodeID (a.queueUpdate update) (b.queueUpdate update) where
  queue := by simp only [MemberList.queueUpdate, agree.queue]
  lookup := agree.lookup

theorem applyUpdate (now : Int) (other : update.nodeID ≠ nodeID) :
    AgreeElsewhere nodeID (a.applyUpdate update now).1 (b.applyUpdate update now).1 := by
  rw [applyUpdate_fst, applyUpdate_fst, agree.lookup _ other]
  cases b.members.lookup update.nodeID with
  | none => exact (agree.put _).queueUpdate update
  | some m =>
    dsimp only
    by_cases news : m.rank < update.rank
    · rw [if_pos news, if_pos news]
      by_cases same : m.state = update.state
      · rw [if_pos same, if_pos same]
        exact agree.put _
      · rw [if_neg same, if_neg same]
        exact (agree.put _).queueUpdate update
    · rw [if_neg news, if_neg news]
      exact agree

variable (self : a.localID = nodeID)

include self

theorem refuteSuspicion : AgreeElsewhere nodeID a.refuteSuspicion.2 b where
  queue := agree.queue
  lookup id other := by
    rw [← agree.lookup id other]
    apply AList.lookup_insert_ne
    rw [← self] at other
    exact a.self_nodeID.symm ▸ other

/-- Receiving updates has the same effect on the queue and on the other records as applying
those that are about other nodes. -/
theorem foldl_receive (updates : List GossipUpdate) :
    AgreeElsewhere nodeID (updates.foldl (receive · nodeID now) a)
      (b.applyUpdates ((updates.filter (·.nodeID ≠ nodeID)).map (·, now))) := by
  induction updates generalizing a b with
  | nil => exact agree
  | cons update rest ih =>
    have self' : (a.receive nodeID now update).localID = nodeID := by
      rw [localID_receive, self]
    by_cases about : update.nodeID = nodeID
    · rw [filter_cons_of_neg (by simpa using about)]
      apply ih _ self'
      subst self
      by_cases suspected : a.self.state = .suspected
      · rw [receive_of_suspected suspected about]
        exact agree.refuteSuspicion rfl
      · rw [receive_of_not_suspected suspected about]
        exact agree
    · rw [filter_cons_of_pos (by simpa using about)]
      apply ih _ self'
      rw [receive_of_ne about]
      exact agree.applyUpdate now about

end AgreeElsewhere

/-! ## What is queued -/

/-- An update is queued if its node is unknown, or if it is news and changes the state. -/
def queues (ml : MemberList) (update : GossipUpdate) (now : Int) : Bool :=
  match ml.members.lookup update.nodeID with
  | none => true
  | some m => (update.member now).supersedes m && decide (m.state ≠ update.state)

/-- Those of some updates that are queued as they are applied one after the other. -/
def queued (ml : MemberList) : List (GossipUpdate × Int) → List GossipUpdate
  | [] => []
  | (update, now) :: rest =>
    let later := queued (ml.applyUpdate update now).1 rest
    if ml.queues update now then update :: later else later

/-- How many updates, beginning with the oldest one, leave a queue for others. -/
def displaced (ml : MemberList) (updates : List (GossipUpdate × Int)) : ℕ :=
  min (ml.queued updates).length (ml.recentUpdates.length + (ml.queued updates).length - 64)

section

variable (ml : MemberList) (update : GossipUpdate) (now : Int)
  (updates : List (GossipUpdate × Int))

theorem queueUpdate_eq_drop :
    (ml.queueUpdate update).recentUpdates =
      (ml.recentUpdates ++ [update]).drop (min 1 (ml.recentUpdates.length + 1 - 64)) := by
  rw [queueUpdate]
  rw [length_append, length_singleton]
  split
  · rw [min_eq_left (by omega), drop_one]
  · rw [Nat.sub_eq_zero_of_le (by omega), Nat.min_zero, drop_zero]

theorem recentUpdates_applyUpdate :
    (ml.applyUpdate update now).1.recentUpdates =
      if ml.queues update now then (ml.queueUpdate update).recentUpdates
      else ml.recentUpdates := by
  have applies := applyUpdate_applies ml update now
  generalize (ml.applyUpdate update now).1 = ml' at applies
  have news {m : Member} (known : ml.members.lookup update.nodeID = some m) :=
    Member.supersedes_iff (m := update.member now) (ml.nodeID_eq known).symm
  rw [queues]
  cases applies with
  | joined unknown =>
    rw [unknown]
    rfl
  | stale known old =>
    have stale := mt (news known).mp (not_lt.mpr old)
    simp [known, stale]
  | renewed known higher same => simp [known, same, put]
  | changed known higher other =>
    have fresh := (news known).mpr higher
    simp only [known, fresh, other, ne_eq]
    rfl

theorem queued_subset : ml.queued updates ⊆ updates.map Prod.fst := by
  induction updates generalizing ml with
  | nil => exact Subset.refl _
  | cons update rest ih =>
    rw [queued]
    split
    · exact cons_subset_cons _ (ih _)
    · exact subset_cons_of_subset _ (ih _)

/-- The queue after some updates: those that are queued stand at its end, and as many old ones
as there is no place for are gone. -/
theorem recentUpdates_applyUpdates :
    (ml.applyUpdates updates).recentUpdates =
      (ml.recentUpdates ++ ml.queued updates).drop (ml.displaced updates) := by
  induction updates generalizing ml with
  | nil => simp [applyUpdates, queued, displaced]
  | cons update rest ih =>
    obtain ⟨update, now⟩ := update
    have queue := recentUpdates_applyUpdate ml update now
    change ((ml.applyUpdate update now).1.applyUpdates rest).recentUpdates = _
    rw [ih, displaced, displaced, queued]
    split
    · rename_i queues
      rw [if_pos queues, queueUpdate_eq_drop] at queue
      rw [queue, ← drop_append_of_le_length (by simp), drop_drop, append_assoc,
        length_drop, length_append]
      congr 1
      simp only [length_cons, length_nil]
      omega
    · rename_i quiet
      rw [if_neg quiet] at queue
      rw [queue]

variable {updates} in
theorem mem_recentUpdates_applyUpdates_iff {a : Announcement}
    (unsaid : ∀ update ∈ updates.map Prod.fst, update.announcement ≠ a) :
    a ∈ (ml.applyUpdates updates).recentUpdates.map GossipUpdate.announcement ↔
      a ∈ (ml.recentUpdates.drop (ml.displaced updates)).map GossipUpdate.announcement := by
  rw [recentUpdates_applyUpdates, drop_append, map_append, mem_append,
    or_iff_left]
  intro mem
  obtain ⟨update, late, said⟩ := mem_map.mp mem
  exact unsaid update (queued_subset ml updates (mem_of_mem_drop late)) said

end

/-! ## The callback of a heartbeat -/

theorem rank_alive_zero_le (m : Member) : rank .alive 0 ≤ m.rank := by
  rw [Member.rank, rank, rank, Prod.Lex.toLex_le_toLex]
  rcases Nat.eq_zero_or_pos m.incarnation.toNat with zero | pos
  · exact .inr ⟨zero.symm, Nat.zero_le _⟩
  · exact .inl pos

/-- A node is not revived in its own list. -/
theorem applyUpdate_alive_zero_self (self : ml.localID = nodeID) :
    (ml.applyUpdate { nodeID := nodeID, state := .alive, incarnation := 0 } now).1 = ml := by
  subst self
  exact applyUpdate_of_le ml.lookup_localID (rank_alive_zero_le ml.self)

end MemberList

namespace SWIM

open MemberList

/-- The update of the callback of a heartbeat. -/
def revival (around : Surroundings) (nodeID : NodeID) : List GossipUpdate :=
  if around.revived then [{ nodeID := nodeID, state := .alive, incarnation := 0 }] else []

/-- The update of the callback that a message leads to. -/
def revived (around : Surroundings) (msg : SWIMMessage) : List GossipUpdate :=
  match msg.type with
  | .ping | .pingAck => revival around msg.fromID
  | .pingReq | .pingReqAck => []

/-- What a message tells a node about others: by the updates that come with it, and as a
heartbeat of its sender. -/
def hearsay (s : SWIM) (around : Surroundings) (msg : SWIMMessage) : List (GossipUpdate × Int) :=
  (msg.updates.filter (·.nodeID ≠ s.config.nodeID)).map (·, around.now) ++
    (revived around msg).map (·, around.now)

section

variable (s : SWIM) {around : Surroundings} {msg : SWIMMessage}

variable (around msg)

theorem heartbeat_spec (nodeID : NodeID) :
    (s.heartbeat around nodeID).config = s.config ∧ (s.heartbeat around nodeID).memberList =
      s.memberList.applyUpdates ((revival around nodeID).map (·, around.now)) := by
  rw [heartbeat, revival]
  split <;> exact ⟨rfl, rfl⟩

theorem answerPending_spec (acked : Bool) : (s.answerPending msg acked).1.config = s.config ∧
    (s.answerPending msg acked).1.memberList = s.memberList := by
  rw [answerPending]
  split <;> exact ⟨rfl, rfl⟩

/-- Besides the updates that come along, only the callback changes the list. -/
theorem handleMessage_spec : (s.handleMessage around msg).1.config = s.config ∧
    (s.handleMessage around msg).1.memberList = (s.applyGossip around msg).memberList.applyUpdates
      ((revived around msg).map (·, around.now)) := by
  rw [handleMessage, revived]
  cases msg.type with
  | ping => exact heartbeat_spec (s.applyGossip around msg) around msg.fromID
  | pingAck =>
    obtain ⟨config, memberList⟩ := answerPending_spec (s.applyGossip around msg) msg true
    rw [← memberList]
    obtain ⟨same, revived⟩ := heartbeat_spec
      ((s.applyGossip around msg).answerPending msg true).1 around msg.fromID
    exact ⟨same.trans config, revived⟩
  | pingReq =>
    dsimp only
    rw [handlePingReq]
    split <;> exact ⟨rfl, rfl⟩
  | pingReqAck => exact answerPending_spec (s.applyGossip around msg) msg _

theorem revived_cases :
    revived around msg = [] ∨
      revived around msg = [{ nodeID := msg.fromID, state := .alive, incarnation := 0 }] := by
  rw [revived, revival]
  cases msg.type <;> cases around.revived <;> simp

variable {around msg} in
theorem mem_revived {update : GossipUpdate} (mem : update ∈ revived around msg) :
    update.incarnation = 0 := by
  rcases revived_cases around msg with silent | revives
  · rw [silent] at mem
    nomatch mem
  · rw [revives] at mem
    rw [mem_singleton.mp mem]

variable {nodeID : NodeID}

theorem view_revived {ml : MemberList} (self : ml.localID = nodeID) :
    (ml.applyUpdates ((revived around msg).map (·, around.now))).view nodeID = ml.view nodeID := by
  rcases revived_cases around msg with silent | revives
  · rw [silent]
    rfl
  · rw [revives, map_singleton, applyUpdates_singleton]
    by_cases own : msg.fromID = nodeID
    · rw [own, applyUpdate_alive_zero_self self]
    · exact view_applyUpdate_of_ne ml _ around.now (Ne.symm own)

theorem agree_revived {a b : MemberList} (agree : AgreeElsewhere nodeID a b)
    (left : a.localID = nodeID) (right : b.localID = nodeID) :
    AgreeElsewhere nodeID (a.applyUpdates ((revived around msg).map (·, around.now)))
      (b.applyUpdates ((revived around msg).map (·, around.now))) := by
  rcases revived_cases around msg with silent | revives
  · rw [silent]
    exact agree
  · rw [revives, map_singleton, applyUpdates_singleton,
      applyUpdates_singleton]
    by_cases own : msg.fromID = nodeID
    · rw [own, applyUpdate_alive_zero_self left,
        applyUpdate_alive_zero_self right]
      exact agree
    · exact agree.applyUpdate around.now own

theorem recentUpdates_handleMessage :
    (s.handleMessage around msg).1.memberList.recentUpdates =
      (s.memberList.applyUpdates (s.hearsay around msg)).recentUpdates := by
  have agree : AgreeElsewhere s.config.nodeID (s.applyGossip around msg).memberList
      (s.memberList.applyUpdates
        ((msg.updates.filter (·.nodeID ≠ s.config.nodeID)).map (·, around.now))) :=
    (AgreeElsewhere.refl s.memberList).foldl_receive s.localID_eq msg.updates
  rw [(handleMessage_spec s around msg).2, hearsay]
  nth_rewrite 2 [applyUpdates]
  rw [foldl_append]
  apply AgreeElsewhere.queue
  apply agree_revived around msg agree
  · exact (s.applyGossip around msg).localID_eq
  · rw [localID_applyUpdates]
    exact s.localID_eq

theorem hearsay_announcement_ne {own : UInt64} (counts : own < own + 1) :
    ∀ update ∈ (s.hearsay around msg).map Prod.fst,
      update.announcement ≠ (s.config.nodeID, .alive, own + 1) := by
  intro update mem said
  rw [Prod.mk.injEq, Prod.mk.injEq] at said
  rw [hearsay, map_append, map_map, map_map, mem_append] at mem
  rcases mem with mem | mem
  · obtain ⟨other, told, rfl⟩ := mem_map.mp mem
    exact of_decide_eq_true (mem_filter.mp told).2 said.1
  · obtain ⟨other, told, rfl⟩ := mem_map.mp mem
    have zero : own + 1 = 0 := said.2.2.symm.trans (mem_revived told)
    rw [zero] at counts
    exact UInt64.not_lt_zero counts

variable {msg} (mentioned : ∃ update ∈ msg.updates, update.nodeID = s.config.nodeID)

include mentioned

theorem view_handleMessage :
    (s.handleMessage around msg).1.memberList.view s.config.nodeID =
      some (if s.memberList.self.state = .suspected then
          (.alive, s.memberList.self.incarnation + 1)
        else (s.memberList.self.state, s.memberList.self.incarnation)) := by
  have own := s.memberList.view_localID
  rw [s.localID_eq] at own
  have self : (s.applyGossip around msg).memberList.localID = s.config.nodeID :=
    (s.applyGossip around msg).localID_eq
  rw [(handleMessage_spec s around msg).2, view_revived around msg self]
  split
  · rename_i suspected
    rw [suspected] at own
    exact view_foldl_receive_of_suspected s.localID_eq own mentioned
  · rename_i calm
    exact view_foldl_receive_of_not_suspected msg.updates s.localID_eq own calm

theorem self_handleMessage :
    ((s.handleMessage around msg).1.memberList.self.state,
        (s.handleMessage around msg).1.memberList.self.incarnation) =
      if s.memberList.self.state = .suspected then (.alive, s.memberList.self.incarnation + 1)
      else (s.memberList.self.state, s.memberList.self.incarnation) := by
  have view := view_handleMessage s around mentioned
  rw [← (handleMessage_spec s around msg).1, ← (s.handleMessage around msg).1.localID_eq,
    view_localID] at view
  exact Option.some.inj view

end

/-! ## Accusations -/

/-- The node is alive with an incarnation above the given one, and its queue says so. -/
def Refuted (s : SWIM) (incarnation : UInt64) : Prop :=
  s.memberList.self.state = .alive ∧ incarnation < s.memberList.self.incarnation ∧
    ∃ max, (s.config.nodeID, .alive, s.memberList.self.incarnation) ∈
      (s.memberList.recentUpdatesUpTo max).map GossipUpdate.announcement

/-- An update that says that a node is suspected or dead, and is not outdated. -/
structure Accuses (s : SWIM) (accusation : GossipUpdate) : Prop where
  nodeID : accusation.nodeID = s.config.nodeID
  state : accusation.state = .suspected ∨ accusation.state = .dead
  current : s.memberList.self.incarnation ≤ accusation.incarnation

/-- The node calls itself suspected already, the accusation has the very incarnation of the
node, which can be counted up, and the refutation is in the queue beforehand, not so old that
the other news of the message displace it. -/
def Foretold (s : SWIM) (around : Surroundings) (msg : SWIMMessage) (accusation : GossipUpdate) :
    Prop :=
  s.memberList.self.state = .suspected ∧
    accusation.incarnation = s.memberList.self.incarnation ∧
    s.memberList.self.incarnation < s.memberList.self.incarnation + 1 ∧
    (s.config.nodeID, .alive, s.memberList.self.incarnation + 1) ∈
      (s.memberList.recentUpdates.drop (s.memberList.displaced (s.hearsay around msg))).map
        GossipUpdate.announcement
  deriving Decidable

/-- If counting up leads beyond what is not below, the two are the same. -/
theorem eq_of_lt_add_one {i own : UInt64} (current : own ≤ i) (above : i < own + 1) :
    i = own ∧ own < own + 1 := by
  rw [UInt64.le_iff_toNat_le] at current
  rw [UInt64.lt_iff_toNat_lt, UInt64.toNat_add] at above
  have one : (1 : UInt64).toNat = 1 := rfl
  constructor
  · apply UInt64.toNat_inj.mp
    omega
  · rw [UInt64.lt_iff_toNat_lt, UInt64.toNat_add]
    omega

theorem exists_mem_recentUpdatesUpTo_iff (ml : MemberList) (a : Announcement) :
    (∃ max, a ∈ (ml.recentUpdatesUpTo max).map GossipUpdate.announcement) ↔
      a ∈ ml.recentUpdates.map GossipUpdate.announcement := by
  constructor
  · rintro ⟨max, mem⟩
    rw [recentUpdatesUpTo, map_take] at mem
    exact mem_of_mem_take mem
  · intro mem
    refine ⟨ml.recentUpdates.length, ?_⟩
    rw [recentUpdatesUpTo, take_length]
    exact mem

/-- A message refutes an accusation exactly if the refutation was foretold. -/
theorem refuted_iff_foretold {s : SWIM} {around : Surroundings} {msg : SWIMMessage}
    {accusation : GossipUpdate} (mem : accusation ∈ msg.updates) (accuses : s.Accuses accusation) :
    (s.handleMessage around msg).1.Refuted accusation.incarnation ↔
      s.Foretold around msg accusation := by
  have self := self_handleMessage s around ⟨accusation, mem, accuses.nodeID⟩
  rw [Refuted, exists_mem_recentUpdatesUpTo_iff, recentUpdates_handleMessage,
    (handleMessage_spec s around msg).1]
  by_cases suspected : s.memberList.self.state = .suspected
  · rw [if_pos suspected, Prod.mk.injEq] at self
    rw [self.1, self.2]
    constructor
    · rintro ⟨-, above, queued⟩
      obtain ⟨same, counts⟩ := eq_of_lt_add_one accuses.current above
      have unsaid := hearsay_announcement_ne s around msg counts
      exact ⟨suspected, same, counts,
        (s.memberList.mem_recentUpdates_applyUpdates_iff unsaid).mp queued⟩
    · rintro ⟨-, same, counts, queued⟩
      rw [same]
      have unsaid := hearsay_announcement_ne s around msg counts
      exact ⟨rfl, counts, (s.memberList.mem_recentUpdates_applyUpdates_iff unsaid).mpr queued⟩
  · rw [if_neg suspected, Prod.mk.injEq] at self
    constructor
    · rintro ⟨-, above, -⟩
      rw [self.2] at above
      exact absurd above (UInt64.not_lt.mpr accuses.current)
    · rintro ⟨calls, -⟩
      exact absurd calls suspected

/-- A new node. -/
def newcomer : SWIM where
  config := { nodeID := "a" }
  memberList := .new "a" 0
  localID_eq := rfl

/-- A node that suspects itself, and has its refutation in the queue. -/
def doubter : SWIM where
  config := { nodeID := "a" }
  memberList :=
    { ((MemberList.new "a" 0).suspectNode "a" 0).1 with recentUpdates := [⟨"a", .alive, 2, ""⟩] }
  localID_eq := by decide +kernel

/-- A message that accuses it. -/
def accusing : SWIMMessage where
  type := .ping
  fromID := "b"
  toID := "a"
  updates := [⟨"a", .suspected, 1, ""⟩, ⟨"c", .alive, 1, "c:1"⟩]

theorem refuted_iff_foretold_doubter :
    doubter.Accuses ⟨"a", .suspected, 1, ""⟩ ∧
      (doubter.handleMessage ⟨5, true, false⟩ accusing).1.Refuted 1 := by
  have accuses : doubter.Accuses ⟨"a", .suspected, 1, ""⟩ := ⟨rfl, .inl rfl, by decide +kernel⟩
  have foretold : doubter.Foretold ⟨5, true, false⟩ accusing ⟨"a", .suspected, 1, ""⟩ := by
    decide +kernel
  exact ⟨accuses, (refuted_iff_foretold (by decide) accuses).mpr foretold⟩

/-- A node that takes itself for alive does not react to an accusation. -/
theorem not_refuted_newcomer :
    ⟨"a", .suspected, 1, ""⟩ ∈ accusing.updates ∧ newcomer.Accuses ⟨"a", .suspected, 1, ""⟩ ∧
      ¬ (newcomer.handleMessage ⟨5, false, false⟩ accusing).1.Refuted 1 := by
  refine ⟨by decide, ⟨rfl, .inl rfl, by decide +kernel⟩, ?_⟩
  rintro ⟨-, above, -⟩
  revert above
  decide +kernel

end SWIM

end Hermes.Membership
