import Hermes.Chaos.Snapshot

/-!
# Snapshots do not complete

A node sends its markers when it begins the snapshot, and none to the node whose marker it
has begun with.  The first node that a marker reaches has it from the initiator, so the
initiator waits for a marker that is never sent.
-/

namespace Hermes.Chaos

open Function List Option

variable {σ μ : Type}

namespace SnapshotCoordinator

/-- What receiving a marker does to a coordinator that takes part in no other snapshot. -/
structure Receipt (c : SnapshotCoordinator σ μ) (sender : NodeID) (snapshotID : String)
    (c' : SnapshotCoordinator σ μ) (markers : List NodeID)
    (complete : Option (GlobalSnapshot σ μ)) : Prop where
  nodeID_eq : c'.nodeID = c.nodeID
  nodes_eq : c'.nodes = c.nodes
  marker : ∀ node, c'.hasMarker node → node = sender ∨ c.hasMarker node
  current : ∀ snapshot, c'.currentSnapshot = some snapshot → snapshot.snapshotID = snapshotID
  takesPart : c'.currentSnapshot.isSome ∨ complete.isSome
  all : complete.isSome → ∀ node ∈ c.nodes, node ≠ c.nodeID → node = sender ∨ c.hasMarker node
  first : c.currentSnapshot = none →
    markers = c.nodes.filter fun node => node ≠ c.nodeID ∧ node ≠ sender
  later : c.currentSnapshot ≠ none → markers = []

/-- What beginning a snapshot at the first marker does. -/
structure Joined (c : SnapshotCoordinator σ μ) (sender : NodeID) (snapshotID : String)
    (c' : SnapshotCoordinator σ μ) (markers : List NodeID) : Prop where
  nodeID_eq : c'.nodeID = c.nodeID
  nodes_eq : c'.nodes = c.nodes
  marker : ∀ node, c'.hasMarker node → c.hasMarker node
  current : ∃ snapshot, c'.currentSnapshot = some snapshot ∧ snapshot.snapshotID = snapshotID
  first : c.currentSnapshot = none →
    markers = c.nodes.filter fun node => node ≠ c.nodeID ∧ node ≠ sender
  later : c.currentSnapshot ≠ none → markers = []

variable {c : SnapshotCoordinator σ μ} {sender : NodeID} {snapshotID : String}

theorem join_joined (same : ∀ snapshot, c.currentSnapshot = some snapshot →
    snapshot.snapshotID = snapshotID) (sender : NodeID) (state : σ) :
    c.Joined sender snapshotID (c.join sender snapshotID state).1
      (c.join sender snapshotID state).2 := by
  rw [join]
  cases current : c.currentSnapshot with
  | none =>
    exact
      { nodeID_eq := rfl
        nodes_eq := rfl
        marker := nofun
        current := ⟨_, rfl, rfl⟩
        first := fun _ => rfl
        later := fun begun => absurd current begun }
  | some snapshot =>
    have this := same snapshot current
    rw [if_pos (by simp [this])]
    exact
      { nodeID_eq := rfl
        nodes_eq := rfl
        marker := fun _ has => has
        current := ⟨snapshot, current, this⟩
        first := fun fresh => absurd fresh (by rw [current]; exact some_ne_none _)
        later := fun _ => rfl }

theorem hasMarker_recordChannel {node : NodeID} :
    (c.recordChannel sender).hasMarker node = true ↔ node = sender ∨ c.hasMarker node = true := by
  rw [hasMarker, recordChannel]
  rcases eq_or_ne node sender with rfl | other
  · simp
  · simp [other, hasMarker]

theorem receiveMarker_receipt (same : ∀ snapshot, c.currentSnapshot = some snapshot →
    snapshot.snapshotID = snapshotID) (sender : NodeID) (state : σ) :
    c.Receipt sender snapshotID (c.receiveMarker sender snapshotID state).1
      (c.receiveMarker sender snapshotID state).2.1
      (c.receiveMarker sender snapshotID state).2.2 := by
  have joined := join_joined same sender state
  have parts : c.receiveMarker sender snapshotID state =
      ((((c.join sender snapshotID state).1.recordChannel sender).checkCompletion).1,
        (c.join sender snapshotID state).2,
        (((c.join sender snapshotID state).1.recordChannel sender).checkCompletion).2) := rfl
  rw [parts]
  generalize c.join sender snapshotID state = begun at joined
  obtain ⟨c₁, markers⟩ := begun
  obtain ⟨snapshot, current, rfl⟩ := joined.current
  have isSome : (c₁.recordChannel sender).currentSnapshot.isSome := by
    rw [recordChannel, current]
    rfl
  rw [checkCompletion]
  split
  · exact
      { nodeID_eq := joined.nodeID_eq
        nodes_eq := joined.nodes_eq
        marker := fun node has => (hasMarker_recordChannel.mp has).imp_right (joined.marker node)
        current := by
          intro snapshot' same
          rw [recordChannel, current] at same
          cases same
          rfl
        takesPart := .inl isSome
        all := nofun
        first := joined.first
        later := joined.later }
  · rename_i complete
    exact
      { nodeID_eq := joined.nodeID_eq
        nodes_eq := joined.nodes_eq
        marker := nofun
        current := nofun
        takesPart := .inr isSome
        all := by
          intro _ node mem other
          rw [← joined.nodes_eq] at mem
          rw [← joined.nodeID_eq] at other
          have has : (c₁.recordChannel sender).hasMarker node = true := by
            by_contra missing
            exact complete (any_eq_true.mpr ⟨node, mem, decide_eq_true ⟨other, missing⟩⟩)
          exact (hasMarker_recordChannel.mp has).imp_right (joined.marker node)
        first := joined.first
        later := joined.later }

theorem recordMessage_eq (c : SnapshotCoordinator σ μ) (sender : NodeID) (msg : μ) :
    ∃ recordingFor, c.recordMessage sender msg = { c with recordingFor := recordingFor } := by
  rw [recordMessage]
  split
  · exact ⟨_, rfl⟩
  · split
    · exact ⟨_, rfl⟩
    · exact ⟨_, rfl⟩

/-- The coordinator of a node in a snapshot, with the markers that have been received. -/
structure Fits (nodes : List NodeID) (snapshotID : String) (received : List (NodeID × NodeID))
    (node : NodeID) (c : SnapshotCoordinator σ μ) : Prop where
  nodeID_eq : c.nodeID = node
  nodes_eq : c.nodes = nodes
  current : ∀ snapshot, c.currentSnapshot = some snapshot → snapshot.snapshotID = snapshotID
  known : ∀ a, c.hasMarker a → (a, node) ∈ received

variable {nodes : List NodeID} {received : List (NodeID × NodeID)} {node : NodeID}
  {c' : SnapshotCoordinator σ μ} {markers : List NodeID}
  {complete : Option (GlobalSnapshot σ μ)}

variable (fits : c.Fits nodes snapshotID received node)

include fits

theorem Fits.append (more : List (NodeID × NodeID)) :
    c.Fits nodes snapshotID (received ++ more) node where
  __ := fits
  known a has := mem_append_left more (fits.known a has)

/-- All markers that a node has after a receipt have been received. -/
theorem Fits.mem_received {a : NodeID} (has : a = sender ∨ c.hasMarker a = true) :
    (a, node) ∈ received ++ [(sender, node)] := by
  rcases has with rfl | has
  · exact mem_concat_self
  · exact mem_append_left _ (fits.known a has)

theorem Fits.receive (receipt : c.Receipt sender snapshotID c' markers complete) :
    c'.Fits nodes snapshotID (received ++ [(sender, node)]) node where
  nodeID_eq := receipt.nodeID_eq.trans fits.nodeID_eq
  nodes_eq := receipt.nodes_eq.trans fits.nodes_eq
  current := receipt.current
  known a has := fits.mem_received (receipt.marker a has)

end SnapshotCoordinator

namespace System

/-- Whether a message is a marker. -/
def isMarker : Message μ → Bool
  | .marker _ => true
  | .application _ => false

/-- The number of markers on their way from one node to another. -/
def pending (s : System σ μ) (a b : NodeID) : ℕ :=
  (s.channels a b).countP isMarker

theorem pending_eq_zero_iff {s : System σ μ} {a b : NodeID} :
    s.pending a b = 0 ↔ ∀ snapshotID, .marker snapshotID ∉ s.channels a b := by
  rw [pending, countP_eq_zero]
  constructor
  · exact fun none_marked snapshotID mem => none_marked _ mem rfl
  · intro quiet message mem
    cases message with
    | marker snapshotID => exact absurd mem (quiet snapshotID)
    | application msg => exact Bool.false_ne_true

/-- A node has begun the snapshot. -/
def Begun (s : System σ μ) (node : NodeID) : Prop :=
  (s.coordinators node).currentSnapshot.isSome ∨ node ∈ s.completed.map Prod.fst

variable {s : System σ μ} {a b x y : NodeID}

theorem channels_enqueue (message : Message μ) : (s.enqueue a b message).channels x y =
    s.channels x y ++ if x = a ∧ y = b then [message] else [] := by
  rw [enqueue]
  rcases eq_or_ne x a with rfl | other
  · rcases eq_or_ne y b with rfl | other
    · simp
    · simp [other]
  · simp [other]

section

variable (nodes : List NodeID) (snapshotID : String)

include nodes snapshotID

theorem sendMarkers_cons :
    s.sendMarkers a (b :: nodes) snapshotID =
      (s.enqueue a b (.marker snapshotID)).sendMarkers a nodes snapshotID :=
  rfl

theorem channels_sendMarkers :
    (s.sendMarkers a nodes snapshotID).channels x y = s.channels x y ++
      if x = a then List.replicate (nodes.count y) (.marker snapshotID) else [] := by
  induction nodes generalizing s with
  | nil => simp [sendMarkers]
  | cons b rest ih =>
    rw [sendMarkers_cons, ih, channels_enqueue]
    by_cases fromHere : x = a
    · rcases eq_or_ne y b with rfl | other
      · simp [fromHere, replicate_succ]
      · simp [other, other.symm]
    · simp [fromHere]

/-- Sending markers changes the channels only. -/
theorem sendMarkers_eq :
    s.sendMarkers a nodes snapshotID =
      { s with channels := (s.sendMarkers a nodes snapshotID).channels } := by
  induction nodes generalizing s with
  | nil => rfl
  | cons b rest ih =>
    rw [sendMarkers_cons, ih]
    rfl

theorem pending_sendMarkers :
    (s.sendMarkers a nodes snapshotID).pending x y =
      s.pending x y + if x = a then nodes.count y else 0 := by
  rw [pending, channels_sendMarkers, countP_append]
  split
  · rw [countP_replicate]
    rfl
  · rfl

end

theorem mem_channels_sendMarkers {nodes : List NodeID} {snapshotID id : String}
    (mem : .marker id ∈ (s.sendMarkers a nodes snapshotID).channels x y) :
    .marker id ∈ s.channels x y ∨ id = snapshotID := by
  rw [channels_sendMarkers] at mem
  rcases mem_append.mp mem with old | new
  · exact .inl old
  · split at new
    · cases eq_of_mem_replicate new
      exact .inr rfl
    · nomatch new

theorem channels_dequeue : (s.dequeue a b).channels x y =
    if x = a ∧ y = b then (s.channels a b).tail else s.channels x y := by
  rw [dequeue]
  rcases eq_or_ne x a with rfl | other
  · rcases eq_or_ne y b with rfl | other
    · simp
    · simp [other]
  · simp [other]

variable {message : Message μ}

theorem mem_of_mem_dequeue (mem : message ∈ (s.dequeue a b).channels x y) :
    message ∈ s.channels x y := by
  rw [channels_dequeue] at mem
  split at mem
  · rename_i here
    rw [here.1, here.2]
    exact mem_of_mem_tail mem
  · exact mem

variable {rest : List (Message μ)}

/-- A delivered marker is no longer on its way. -/
theorem pending_dequeue (head : s.channels a b = message :: rest) :
    ((s.dequeue a b).pending x y + if (x, y) = (a, b) ∧ isMarker message then 1 else 0) =
      s.pending x y := by
  rw [pending, channels_dequeue, pending]
  by_cases here : x = a ∧ y = b
  · rw [here.1, here.2, head]
    simp [countP_cons]
  · simp [here]

/-! ## The invariant -/

/-- The markers of a snapshot: at most one on each channel in all, and only from nodes that
have begun. -/
structure Marked (nodes : List NodeID) (snapshotID : String) (s : System σ μ) : Prop where
  fits : ∀ b, (s.coordinators b).Fits nodes snapshotID s.received b
  markers : ∀ a b id, .marker id ∈ s.channels a b → id = snapshotID
  once : ∀ a b, s.pending a b + s.received.count (a, b) ≤ 1
  begun : ∀ a b, s.pending a b ≠ 0 ∨ (a, b) ∈ s.received → s.Begun a
  among : ∀ a b, s.pending a b ≠ 0 → a ∈ nodes ∧ b ∈ nodes ∧ a ≠ b
  complete : ∀ b ∈ s.completed.map Prod.fst, ∀ a ∈ nodes, a ≠ b → (a, b) ∈ s.received

/-- The markers of the initiator are all on their way, or some other node has begun and has
not sent it any. -/
def Waiting (nodes : List NodeID) (i : NodeID) (s : System σ μ) : Prop :=
  ((∀ b ∈ nodes, b ≠ i → s.pending i b ≠ 0) ∧ ∀ b, s.Begun b → b = i) ∨
    ∃ w ∈ nodes, w ≠ i ∧ s.Begun w ∧ s.pending w i = 0 ∧ (w, i) ∉ s.received

variable {nodes : List NodeID} {snapshotID : String} {i : NodeID} {s' : System σ μ}

/-- A node acts: it has another coordinator, sends markers, receives some and may complete. -/
structure Acts (s : System σ μ) (b : NodeID) (snapshotID : String)
    (c' : SnapshotCoordinator σ μ) (markers : List NodeID) (completes : Bool)
    (arrivals : List (NodeID × NodeID)) (s' : System σ μ) : Prop where
  coordinators_eq : s'.coordinators = Function.update s.coordinators b c'
  received_eq : s'.received = s.received ++ arrivals
  completed_eq : s'.completed.map Prod.fst =
    s.completed.map Prod.fst ++ if completes then [b] else []
  pending_eq : ∀ x y, s'.pending x y + arrivals.count (x, y) =
    s.pending x y + if x = b then markers.count y else 0
  channels : ∀ x y id, .marker id ∈ s'.channels x y →
    .marker id ∈ s.channels x y ∨ id = snapshotID

/-- What a node may do in a snapshot: it begins once, sends one marker to other nodes then, and
completes with a marker from each of them. -/
structure Lawful (nodes : List NodeID) (snapshotID : String) (s : System σ μ) (b : NodeID)
    (c' : SnapshotCoordinator σ μ) (markers : List NodeID) (completes : Bool)
    (arrivals : List (NodeID × NodeID)) : Prop where
  member : b ∈ nodes
  fits : c'.Fits nodes snapshotID (s.received ++ arrivals) b
  takesPart : c'.currentSnapshot.isSome ∨ completes
  all : completes → ∀ a ∈ nodes, a ≠ b → (a, b) ∈ s.received ++ arrivals
  nodup : markers.Nodup
  sent : ∀ y ∈ markers, ¬ s.Begun b ∧ y ∈ nodes ∧ y ≠ b
  arrived : ∀ x y, (x, y) ∈ arrivals → s.Begun x

section

variable {c' : SnapshotCoordinator σ μ} {markers : List NodeID} {completes : Bool}
  {arrivals : List (NodeID × NodeID)}

variable (acts : s.Acts b snapshotID c' markers completes arrivals s')

include acts

/-- A marker that is on its way was so before, or it has just been sent. -/
theorem Acts.pending_ne_zero (onItsWay : s'.pending x y ≠ 0) :
    s.pending x y ≠ 0 ∨ x = b ∧ y ∈ markers := by
  have pending := acts.pending_eq x y
  by_cases sent : x = b ∧ y ∈ markers
  · exact .inr sent
  · have none_sent : (if x = b then markers.count y else 0) = 0 := by
      split
      · rename_i here
        exact count_eq_zero.mpr fun mem => sent ⟨here, mem⟩
      · rfl
    omega

theorem Acts.begun_iff (takesPart : c'.currentSnapshot.isSome ∨ completes) :
    s'.Begun x ↔ s.Begun x ∨ x = b := by
  rw [Begun, acts.coordinators_eq, acts.completed_eq, mem_append]
  rcases eq_or_ne x b with rfl | other
  · rw [update_self]
    simp only [or_true, iff_true]
    exact takesPart.imp_right fun completes => .inr (by simp [completes])
  · rw [update_of_ne other]
    have absent : x ∉ if completes then [b] else [] := by
      split
      · simpa using other
      · exact not_mem_nil
    simp only [absent, or_false, other]
    rfl

variable (marked : s.Marked nodes snapshotID)
  (lawful : Lawful nodes snapshotID s b c' markers completes arrivals)

include marked lawful

omit acts in
theorem Marked.count_markers_le (y : NodeID) :
    s.pending b y + s.received.count (b, y) + markers.count y ≤ 1 := by
  by_cases mem : y ∈ markers
  · have fresh := (lawful.sent y mem).1
    have none_pending : s.pending b y = 0 := by
      by_contra pending
      exact fresh (marked.begun b y (.inl pending))
    have none_received : s.received.count (b, y) = 0 :=
      count_eq_zero.mpr fun received => fresh (marked.begun b y (.inr received))
    rw [none_pending, none_received, count_eq_one_of_mem lawful.nodup mem]
  · rw [count_eq_zero.mpr mem]
    exact marked.once b y

theorem Acts.keeps : s'.Marked nodes snapshotID where
  fits x := by
    rw [acts.coordinators_eq, acts.received_eq]
    rcases eq_or_ne x b with rfl | other
    · rw [update_self]
      exact lawful.fits
    · rw [update_of_ne other]
      exact (marked.fits x).append _
  markers x y id mem := (acts.channels x y id mem).elim (marked.markers x y id) fun same => same
  once x y := by
    have pending := acts.pending_eq x y
    have old := marked.once x y
    have new := marked.count_markers_le lawful y
    rw [acts.received_eq, count_append]
    rcases eq_or_ne x b with rfl | other
    · simp only [if_true] at pending
      omega
    · simp only [other, if_false] at pending
      omega
  begun x y := by
    rw [acts.begun_iff lawful.takesPart, acts.received_eq, mem_append]
    rintro (pending | received | new)
    · rcases acts.pending_ne_zero pending with old | sent
      · exact .inl (marked.begun x y (.inl old))
      · exact .inr sent.1
    · exact .inl (marked.begun x y (.inr received))
    · exact .inl (lawful.arrived x y new)
  among x y pending := by
    rcases acts.pending_ne_zero pending with old | ⟨rfl, sent⟩
    · exact marked.among x y old
    · obtain ⟨-, yMem, other⟩ := lawful.sent y sent
      exact ⟨lawful.member, yMem, other.symm⟩
  complete x mem y yMem other := by
    rw [acts.received_eq]
    rw [acts.completed_eq, mem_append] at mem
    rcases mem with old | new
    · exact mem_append_left _ (marked.complete x old y yMem other)
    · split at new
      · rename_i completes
        obtain rfl := mem_singleton.mp new
        exact lawful.all completes y yMem other
      · nomatch new

end

/-! ## Initiating the snapshot -/

section

variable (marked : s.Marked nodes snapshotID) (fresh : ∀ b, ¬ s.Begun b) (state : σ)

theorem initiate_acts (fits : (s.coordinators i).Fits nodes snapshotID s.received i) :
    s.Acts i snapshotID ((s.coordinators i).begin snapshotID i state)
      (nodes.filter fun node => node ≠ i) false [] (s.initiate i snapshotID state) := by
  rw [initiate, SnapshotCoordinator.initiateSnapshot, fits.nodeID_eq, fits.nodes_eq]
  dsimp only
  constructor
  · rw [sendMarkers_eq]
    rfl
  · rw [sendMarkers_eq, append_nil]
    rfl
  · rw [sendMarkers_eq, if_neg Bool.false_ne_true, append_nil]
    rfl
  · intro x y
    rw [pending_sendMarkers]
    rfl
  · exact fun x y id mem => (mem_channels_sendMarkers mem).imp_left fun old => old

include marked fresh

theorem Marked.initiate_lawful (mem : i ∈ nodes) (nodup : nodes.Nodup) :
    Lawful nodes snapshotID s i ((s.coordinators i).begin snapshotID i state)
      (nodes.filter fun node => node ≠ i) false [] where
  member := mem
  fits :=
    { nodeID_eq := (marked.fits i).nodeID_eq
      nodes_eq := (marked.fits i).nodes_eq
      current := by
        rintro _ ⟨⟩
        rfl
      known := nofun }
  takesPart := .inl rfl
  all := nofun
  nodup := nodup.filter _
  sent y mem := ⟨fresh i, (mem_filter.mp mem).1, of_decide_eq_true (mem_filter.mp mem).2⟩
  arrived := nofun

/-- After the snapshot has been initiated all markers of the initiator are on their way. -/
theorem Marked.waiting_initiate : (s.initiate i snapshotID state).Waiting nodes i := by
  have acts := initiate_acts state (marked.fits i)
  left
  constructor
  · intro b bMem other
    have pending := acts.pending_eq i b
    have sent : b ∈ nodes.filter fun node => node ≠ i :=
      mem_filter.mpr ⟨bMem, decide_eq_true other⟩
    have := count_pos_iff.mpr sent
    simp only [if_true, count_nil] at pending
    omega
  · intro b begun
    exact ((acts.begun_iff (.inl rfl)).mp begun).resolve_left (fresh b)

end

/-! ## Delivering a marker -/

theorem deliverMarker_acts (head : s.channels a b = .marker snapshotID :: rest) (state : σ) :
    s.Acts b snapshotID ((s.coordinators b).receiveMarker a snapshotID state).1
      ((s.coordinators b).receiveMarker a snapshotID state).2.1
      ((s.coordinators b).receiveMarker a snapshotID state).2.2.isSome [(a, b)]
      (s.deliverMarker a b snapshotID state) := by
  rw [deliverMarker]
  generalize (s.coordinators b).receiveMarker a snapshotID state = outcome
  obtain ⟨c', markers, complete⟩ := outcome
  dsimp only
  constructor
  · rw [sendMarkers_eq]
    rfl
  · rw [sendMarkers_eq]
  · rw [sendMarkers_eq]
    cases complete <;> simp
  · intro x y
    have arrival : [(a, b)].count (x, y) = if (x, y) = (a, b) then 1 else 0 := by
      rw [count_singleton]
      simp only [beq_iff_eq, eq_comm (a := (a, b))]
    rw [pending_sendMarkers, ← pending_dequeue head, Nat.add_right_comm, arrival]
    simp [isMarker, pending, setCoordinator]
  · exact fun x y id mem => (mem_channels_sendMarkers mem).imp_left mem_of_mem_dequeue

section

variable {c' : SnapshotCoordinator σ μ} {markers : List NodeID}
  {complete : Option (GlobalSnapshot σ μ)}
  (marked : s.Marked nodes snapshotID) (onItsWay : s.pending a b ≠ 0)

include marked onItsWay

/-- A marker that is on its way has not been received, and its receiver has not completed. -/
theorem Marked.of_pending : (a, b) ∉ s.received ∧ b ∉ s.completed.map Prod.fst := by
  have absent : (a, b) ∉ s.received := by
    intro mem
    have := marked.once a b
    have := count_pos_iff.mpr mem
    omega
  obtain ⟨aMem, -, other⟩ := marked.among a b onItsWay
  exact ⟨absent, fun completed => absent (marked.complete b completed a aMem other)⟩

variable (receipt : (s.coordinators b).Receipt a snapshotID c' markers complete)

include receipt

/-- Markers are sent by a node that has not begun yet, to all nodes but itself and the sender
of the first marker. -/
theorem Marked.markers_eq : markers = [] ∨
    ¬ s.Begun b ∧ markers = nodes.filter fun node => node ≠ b ∧ node ≠ a := by
  cases current : (s.coordinators b).currentSnapshot with
  | none =>
    right
    constructor
    · rintro (begun | completed)
      · rw [current] at begun
        nomatch begun
      · exact (marked.of_pending onItsWay).2 completed
    · rw [receipt.first current, (marked.fits b).nodeID_eq, (marked.fits b).nodes_eq]
  | some snapshot =>
    exact .inl (receipt.later (by rw [current]; exact some_ne_none _))

theorem Marked.mem_markers (mem : y ∈ markers) : ¬ s.Begun b ∧ y ∈ nodes ∧ y ≠ b ∧ y ≠ a := by
  rcases marked.markers_eq onItsWay receipt with rfl | ⟨fresh, rfl⟩
  · nomatch mem
  · obtain ⟨yMem, other⟩ := mem_filter.mp mem
    exact ⟨fresh, yMem, of_decide_eq_true other⟩

theorem Marked.lawful (nodup : nodes.Nodup) :
    Lawful nodes snapshotID s b c' markers complete.isSome [(a, b)] where
  member := (marked.among a b onItsWay).2.1
  fits := (marked.fits b).receive receipt
  takesPart := receipt.takesPart
  all completes x xMem other := by
    have fits := marked.fits b
    rw [← fits.nodes_eq] at xMem
    rw [← fits.nodeID_eq] at other
    exact fits.mem_received (receipt.all completes x xMem other)
  nodup := by
    rcases marked.markers_eq onItsWay receipt with rfl | ⟨-, rfl⟩
    · exact nodup_nil
    · exact nodup.filter _
  sent y mem :=
    have sent := marked.mem_markers onItsWay receipt mem
    ⟨sent.1, sent.2.1, sent.2.2.1⟩
  arrived x y new := by
    cases mem_singleton.mp new
    exact marked.begun a b (.inl onItsWay)

theorem Waiting.acts (waiting : s.Waiting nodes i)
    (acts : s.Acts b snapshotID c' markers complete.isSome [(a, b)] s') : s'.Waiting nodes i := by
  right
  rcases waiting with ⟨-, onlyInitiator⟩ | ⟨w, wMem, other, begun, noneSent, noneReceived⟩
  · -- The marker is from the initiator, and its receiver begins with it.
    obtain rfl : a = i := onlyInitiator a (marked.begun a b (.inl onItsWay))
    obtain ⟨-, bMem, other⟩ := marked.among a b onItsWay
    have fresh : ¬ s.Begun b := fun begun => other (onlyInitiator b begun).symm
    refine ⟨b, bMem, other.symm, (acts.begun_iff receipt.takesPart).mpr (.inr rfl), ?_, ?_⟩
    · by_contra pending
      rcases acts.pending_ne_zero pending with old | ⟨-, sent⟩
      · exact fresh (marked.begun b a (.inl old))
      · exact (marked.mem_markers onItsWay receipt sent).2.2.2 rfl
    · rw [acts.received_eq, mem_append, mem_singleton]
      rintro (old | new)
      · exact fresh (marked.begun b a (.inr old))
      · cases new
        exact other rfl
  · -- That node does not begin again.
    refine ⟨w, wMem, other, (acts.begun_iff receipt.takesPart).mpr (.inl begun), ?_, ?_⟩
    · by_contra pending
      rcases acts.pending_ne_zero pending with old | ⟨rfl, sent⟩
      · exact old noneSent
      · exact (marked.mem_markers onItsWay receipt sent).1 begun
    · rw [acts.received_eq, mem_append, mem_singleton]
      rintro (old | new)
      · exact noneReceived old
      · cases new
        exact onItsWay noneSent

end

/-! ## Other events -/

/-- An event without markers. -/
structure Similar (s s' : System σ μ) : Prop where
  coordinators : ∀ b, ∃ recordingFor,
    s'.coordinators b = { s.coordinators b with recordingFor := recordingFor }
  initiator_eq : s'.initiator = s.initiator
  received_eq : s'.received = s.received
  completed_eq : s'.completed = s.completed
  pending_eq : ∀ x y, s'.pending x y = s.pending x y
  channels : ∀ x y id, .marker id ∈ s'.channels x y → .marker id ∈ s.channels x y

theorem similar_enqueue (msg : μ) : s.Similar (s.enqueue a b (.application msg)) where
  coordinators b := ⟨_, rfl⟩
  initiator_eq := rfl
  received_eq := rfl
  completed_eq := rfl
  pending_eq x y := by
    rw [pending, channels_enqueue, countP_append]
    split <;> rfl
  channels x y id mem := by
    rw [channels_enqueue] at mem
    split at mem
    · simpa using mem
    · simpa using mem

theorem similar_deliverMessage {msg : μ}
    (head : s.channels a b = .application msg :: rest) : s.Similar (s.deliverMessage a b msg) where
  coordinators x := by
    obtain ⟨recordingFor, recorded⟩ := (s.coordinators b).recordMessage_eq a msg
    rw [deliverMessage, recorded]
    rcases eq_or_ne x b with rfl | other
    · exact ⟨recordingFor, update_self _ _ _⟩
    · exact ⟨_, update_of_ne other _ _⟩
  initiator_eq := rfl
  received_eq := rfl
  completed_eq := rfl
  pending_eq x y := by
    rw [← pending_dequeue head]
    simp [isMarker, deliverMessage, setCoordinator, pending]
  channels x y id mem := mem_of_mem_dequeue mem

theorem Similar.begun_iff (similar : s.Similar s') : s'.Begun x ↔ s.Begun x := by
  obtain ⟨_, coordinator⟩ := similar.coordinators x
  rw [Begun, coordinator, similar.completed_eq]
  rfl

theorem Marked.similar (marked : s.Marked nodes snapshotID) (similar : s.Similar s') :
    s'.Marked nodes snapshotID where
  fits b := by
    obtain ⟨_, coordinator⟩ := similar.coordinators b
    rw [coordinator, similar.received_eq]
    exact ⟨(marked.fits b).nodeID_eq, (marked.fits b).nodes_eq, (marked.fits b).current,
      (marked.fits b).known⟩
  markers a b id mem := marked.markers a b id (similar.channels a b id mem)
  once a b := by
    rw [similar.pending_eq, similar.received_eq]
    exact marked.once a b
  begun a b := by
    rw [similar.pending_eq, similar.received_eq, similar.begun_iff]
    exact marked.begun a b
  among a b := by
    rw [similar.pending_eq]
    exact marked.among a b
  complete := by
    rw [similar.completed_eq, similar.received_eq]
    exact marked.complete

theorem Waiting.similar (waiting : s.Waiting nodes i) (similar : s.Similar s') :
    s'.Waiting nodes i := by
  simpa only [Waiting, similar.pending_eq, similar.received_eq, similar.begun_iff] using waiting

/-! ## Runs -/

/-- Every node has received a marker from every other one and has completed once. -/
def Complete (nodes : List NodeID) (s : System σ μ) : Prop :=
  ∀ b ∈ nodes, (∀ a ∈ nodes, a ≠ b → (a, b) ∈ s.received) ∧
    (s.completed.map Prod.fst).count b = 1

/-- Before the snapshot nobody has begun; after it has been initiated the initiator waits. -/
def Invariant (nodes : List NodeID) (s : System σ μ) : Prop :=
  match s.initiator with
  | none => (∀ snapshotID, s.Marked nodes snapshotID) ∧ ∀ b, ¬ s.Begun b
  | some i => i ∈ nodes ∧ (∃ snapshotID, s.Marked nodes snapshotID) ∧ s.Waiting nodes i

theorem marked_new (nodes : List NodeID) (snapshotID : String) :
    (new nodes : System σ μ).Marked nodes snapshotID where
  fits _ := ⟨rfl, rfl, nofun, nofun⟩
  markers := nofun
  once _ _ := Nat.zero_le 1
  begun _ _ sent := sent.elim (fun pending => absurd rfl pending) nofun
  among _ _ pending := absurd rfl pending
  complete := nofun

theorem invariant_new (nodes : List NodeID) : (new nodes : System σ μ).Invariant nodes := by
  refine ⟨marked_new nodes, ?_⟩
  rintro b (begun | completed)
  · nomatch begun
  · nomatch completed

section

variable (inv : s.Invariant nodes)

include inv

theorem Invariant.similar (similar : s.Similar s') : s'.Invariant nodes := by
  rw [Invariant] at inv ⊢
  rw [similar.initiator_eq]
  split at inv
  · obtain ⟨marked, fresh⟩ := inv
    exact ⟨fun snapshotID => (marked snapshotID).similar similar,
      fun b begun => fresh b (similar.begun_iff.mp begun)⟩
  · obtain ⟨mem, ⟨snapshotID, marked⟩, waiting⟩ := inv
    exact ⟨mem, ⟨snapshotID, marked.similar similar⟩, waiting.similar similar⟩

variable (nodup : nodes.Nodup)

include nodup

theorem invariant_initiate (mem : i ∈ nodes) (uninitiated : s.initiator = none)
    (snapshotID : String) (state : σ) : (s.initiate i snapshotID state).Invariant nodes := by
  have initiator : (s.initiate i snapshotID state).initiator = some i := by
    rw [initiate]
    dsimp only
    rw [sendMarkers_eq]
  rw [Invariant, uninitiated] at inv
  obtain ⟨marked, fresh⟩ := inv
  have acts := initiate_acts state ((marked snapshotID).fits i)
  rw [Invariant, initiator]
  refine ⟨mem, ⟨snapshotID, ?_⟩, (marked snapshotID).waiting_initiate fresh state⟩
  exact acts.keeps (marked snapshotID)
    ((marked snapshotID).initiate_lawful fresh state mem nodup)

theorem invariant_deliverMarker {id : String} (head : s.channels a b = .marker id :: rest)
    (state : σ) : (s.deliverMarker a b id state).Invariant nodes := by
  have initiator : (s.deliverMarker a b id state).initiator = s.initiator := by
    rw [deliverMarker]
    dsimp only
    rw [sendMarkers_eq]
    rfl
  have onItsWay : s.pending a b ≠ 0 := by
    rw [pending, head, countP_cons_of_pos rfl]
    exact Nat.succ_ne_zero _
  rw [Invariant] at inv ⊢
  rw [initiator]
  split at inv
  · exact absurd ((inv.1 id).begun a b (.inl onItsWay)) (inv.2 a)
  · obtain ⟨mem, ⟨snapshotID, marked⟩, waiting⟩ := inv
    obtain rfl : id = snapshotID := marked.markers a b id (head ▸ mem_cons_self)
    have acts := deliverMarker_acts head state
    have receipt := SnapshotCoordinator.receiveMarker_receipt (marked.fits b).current a state
    exact ⟨mem, ⟨id, acts.keeps marked (marked.lawful onItsWay receipt nodup)⟩,
      Waiting.acts marked onItsWay receipt waiting acts⟩

theorem invariant_step {event : Event σ μ} (happens : s.step nodes event = some s') :
    s'.Invariant nodes := by
  cases event with
  | initiate node snapshotID state =>
    obtain ⟨⟨mem, uninitiated⟩, ⟨⟩⟩ := ite_none_right_eq_some.mp happens
    exact invariant_initiate inv nodup mem uninitiated snapshotID state
  | send a b msg =>
    obtain ⟨-, ⟨⟩⟩ := ite_none_right_eq_some.mp happens
    exact inv.similar (similar_enqueue msg)
  | deliver a b state =>
    rw [step] at happens
    split at happens
    · nomatch happens
    · rename_i snapshotID rest head
      cases happens
      exact invariant_deliverMarker inv nodup head state
    · rename_i msg rest head
      cases happens
      exact inv.similar (similar_deliverMessage head)

end

theorem exists_other (nodup : nodes.Nodup) (several : 2 ≤ nodes.length) (i : NodeID) :
    ∃ b ∈ nodes, b ≠ i := by
  rw [← toFinset_card_of_nodup nodup] at several
  obtain ⟨b, mem, other⟩ := Finset.exists_mem_ne several i
  exact ⟨b, mem_toFinset.mp mem, other⟩

/-- In no run has every node completed when no marker is on its way any more. -/
theorem not_complete (nodup : nodes.Nodup) (several : 2 ≤ nodes.length)
    (reachable : Runs.Reachable (fun s event => s.step nodes event) (fun _ _ => True)
      (new nodes) s) (initiated : s.initiator.isSome)
    (quiet : ∀ a b snapshotID, .marker snapshotID ∉ s.channels a b) : ¬ s.Complete nodes := by
  have inv : s.Invariant nodes := by
    refine reachable.invariant (invariant_new nodes) ?_
    exact fun s event s' inv _ happens => invariant_step inv nodup happens
  obtain ⟨i, initiator⟩ := isSome_iff_exists.mp initiated
  rw [Invariant, initiator] at inv
  obtain ⟨mem, -, waiting⟩ := inv
  intro complete
  rcases waiting with ⟨sent, -⟩ | ⟨w, wMem, other, -, -, noneReceived⟩
  · obtain ⟨b, bMem, other⟩ := exists_other nodup several i
    exact sent b bMem other (pending_eq_zero_iff.mpr (quiet i b))
  · exact noneReceived ((complete i mem).1 w wMem other)

/-- Two nodes, of which one has initiated the snapshot and the other has received its
marker. -/
def pair : System Unit Unit :=
  ((new ["a", "b"]).initiate "a" "snapshot" ()).deliverMarker "a" "b" "snapshot" ()

theorem reachable_pair : Runs.Reachable (fun s event => s.step ["a", "b"] event)
    (fun _ _ => True) (new ["a", "b"]) pair := by
  refine Runs.Reachable.start.exec (show Runs.exec _ _ _ ?_ = _ from ?_)
  · exact [.initiate "a" "snapshot" (), .deliver "a" "b" ()]
  · rfl

theorem quiet_pair (x y : NodeID) : ∀ snapshotID, .marker snapshotID ∉ pair.channels x y := by
  let begun : System Unit Unit := (new ["a", "b"]).initiate "a" "snapshot" ()
  have sent : begun.channels x y = [] ++
      if x = "a" then List.replicate (["b"].count y) (.marker "snapshot") else [] :=
    channels_sendMarkers _ _
  have delivered : pair.channels x y =
      if x = "a" ∧ y = "b" then (begun.channels "a" "b").tail else begun.channels x y :=
    channels_dequeue
  rw [delivered]
  split
  · exact fun _ => not_mem_nil
  · rename_i other
    rw [sent]
    by_cases fromA : x = "a"
    · have absent : y ∉ ["b"] := fun mem => other ⟨fromA, mem_singleton.mp mem⟩
      simp [count_eq_zero.mpr absent]
    · simp [fromA]

theorem not_complete_pair : ¬ pair.Complete ["a", "b"] :=
  not_complete (by decide) (by decide) reachable_pair rfl quiet_pair

/-- The initiator has received no marker and has not completed. -/
theorem initiator_waits :
    Runs.Reachable (fun s event => s.step ["a", "b"] event) (fun _ _ => True)
      (new ["a", "b"]) pair ∧
    (∀ x y id, .marker id ∉ pair.channels x y) ∧ pair.received = [("a", "b")] ∧
    pair.completed.map Prod.fst = ["b"] ∧ ¬ pair.Complete ["a", "b"] := by
  refine ⟨reachable_pair, quiet_pair, rfl, rfl, ?_⟩
  intro complete
  exact absurd (complete "a" (by decide)).2 (by decide)

end System

end Hermes.Chaos
