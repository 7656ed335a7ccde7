import Hermes.Raft.NodeCorrectness
import Hermes.Server.Rpc

/-!
# Which call gets which answer

The map of the transport has one place for every peer.  While the calls of a peer do not
overlap, the channel of a call stays in its place until the answer to the call comes.  A
call that starts before that takes the place, and the answer with it.
-/

open Hermes.Raft (NodeID Message RaftNode StateMachine Rng)

namespace Hermes.Server

open Function List Option

/-! ## What a round sends -/

variable {σ : Type} {sm : StateMachine σ} {n n' : RaftNode σ} {messages : List Message}
  {input : Input}

/-- A round that starts with an empty queue ends with one, and sends what its input made the
state machine emit. -/
theorem round_eq (empty : n.raft.msgs = []) (eq : round sm n input = .ok (messages, n')) :
    n'.raft.msgs = [] ∧ ((∃ m, input = .step m ∧ m.type.isRequest = true ∧
          messages.length ≤ 1 ∧ ∀ x ∈ messages, n.raft.Answer m x) ∨
        (∀ m, input = .step m → m.type.isRequest = false) ∧ ∀ x ∈ messages, Raft.Outgoing x) := by
  obtain ⟨n₁, received, rest⟩ := bind_eq_ok.mp eq
  obtain ⟨⟨rd, n₂⟩, taken, same⟩ := bind_eq_ok.mp rest
  cases same
  obtain ⟨queued, emptied, _⟩ := RaftNode.ready_taken taken
  refine ⟨emptied, ?_⟩
  rw [queued]
  have emitted : n.raft.Emits n₁.raft → ∀ x ∈ n₁.raft.msgs, Raft.Outgoing x := by
    intro emits
    exact emits.outgoing (by rw [empty, nil_append])
  cases input with
  | tick =>
    obtain ⟨raft, ticked, same⟩ := bind_eq_ok.mp received
    cases same
    exact .inr ⟨by simp, emitted (Raft.tick_emits ticked)⟩
  | propose entries =>
    obtain ⟨⟨raft, err⟩, stepped, same⟩ := bind_eq_ok.mp received
    cases same
    exact .inr ⟨by simp, emitted (Raft.step_sends stepped)⟩
  | step m =>
    obtain ⟨⟨raft, err⟩, stepped, same⟩ := bind_eq_ok.mp received
    cases same
    have sends := Raft.step_sends stepped
    unfold Raft.Sends at sends
    split at sends
    · rename_i request
      refine .inl ⟨m, rfl, request, ?_⟩
      cases sends with
      | silent quiet =>
        rw [quiet.msgs, empty]
        simp
      | answered _ msgs answer =>
        rw [msgs, empty]
        exact ⟨le_rfl, forall_mem_singleton.mpr answer⟩
    · rename_i other
      refine .inr ⟨?_, emitted sends⟩
      rintro _ ⟨⟩
      exact Bool.eq_false_of_not_eq_true other

namespace Endpoint

/-! ## Calls that do not overlap -/

/-- What a call returned was emitted for its own message, and no open call missed an
answer to its message. -/
structure Paired (s : Endpoint σ) : Prop where
  own : ∀ i (call : Call) x tag, s.calls[i]? = some call →
    call.phase = .returned (some (x, tag)) → tag = some i
  delivered : s.lost = []

/-- How often the call `i` is on its way: about to step its message in, with the message in
the channel, or with the answer in front of `Send`. -/
def onWay (s : Endpoint σ) (i : ℕ) : ℕ :=
  (if (s.calls[i]?).any (fun call => call.phase = .registered) then 1 else 0) +
    s.stepCh.countP (fun m => m.2 = some i) + s.outbox.countP (fun m => m.2 = some i)

/-- A peer calls only when none of its earlier calls is on its way, and an answer meets a
peer that the pool knows. -/
def Orderly (s : Endpoint σ) : Event → Prop
  | .register req => ∀ i < s.calls.length,
    0 < s.onWay i → (s.calls[i]?).map (fun call => call.req.peer) ≠ some req.peer
  | .sendNext => ∀ answer ∈ s.outbox.head?,
    answer.1.type.isResponse = true → s.pool answer.1.toID = true
  | _ => True

instance (s : Endpoint σ) : DecidablePred s.Orderly := by
  rintro ⟨⟩ <;> delta Orderly <;> infer_instance

variable {s s' : Endpoint σ}

/-- A message fits the call that it belongs to, or it belongs to none. -/
def Belongs (s : Endpoint σ) (fits : Request → Message → Prop) (other : Message → Prop)
    (m : Tagged) : Prop :=
  (∃ i call, m.2 = some i ∧ s.calls[i]? = some call ∧ fits call.req m.1) ∨
    m.2 = none ∧ other m.1

/-- A message stepped in is the message of its call, or no request. -/
def Submitted (s : Endpoint σ) : Tagged → Prop :=
  s.Belongs (fun req m => m = req.message s.nodeID) (fun m => m.type.isRequest = false)

/-- A message to be sent is an answer to the peer of its call, or no answer. -/
def Addressed (s : Endpoint σ) : Tagged → Prop :=
  s.Belongs (fun req x => x.type.isResponse = true ∧ x.toID = req.peer)
    (fun x => x.type.isResponse = false)

/-- A call holds answers of its own only. -/
structure Call.Own (i : ℕ) (call : Call) : Prop where
  channel : ∀ answer ∈ call.channel, answer.2 = some i
  returned : ∀ answer, call.phase = .returned (some answer) → answer.2 = some i

/-- What holds as long as the calls of a peer do not overlap: the channel of a call on its
way is the one in the map. -/
structure OK (s : Endpoint σ) : Prop where
  empty : s.node.raft.msgs = []
  once : ∀ i, s.onWay i ≤ 1
  registered : ∀ i call, s.calls[i]? = some call → 0 < s.onWay i →
    s.pending call.req.peer = some i
  submitted : ∀ m ∈ s.stepCh, s.Submitted m
  addressed : ∀ x ∈ s.outbox, s.Addressed x
  own : ∀ i call, s.calls[i]? = some call → Call.Own i call
  delivered : s.lost = []

theorem OK.paired (ok : s.OK) : s.Paired where
  own i call x tag known returned := (ok.own i call known).returned (x, tag) returned
  delivered := ok.delivered

/-- The calls of `s` are still there, with their requests. -/
structure Keeps (s s' : Endpoint σ) : Prop where
  nodeID : s'.nodeID = s.nodeID
  req : ∀ (i : ℕ) (call : Call), s.calls[i]? = some call →
    ∃ call' : Call, s'.calls[i]? = some call' ∧ call'.req = call.req

variable {i : ℕ}

section Belongs

variable {fits : Request → Message → Prop} {other : Message → Prop} {m : Tagged}

theorem Belongs.mono (belongs : s.Belongs fits other m) (keeps : Keeps s s') :
    s'.Belongs fits other m := by
  rcases belongs with ⟨i, call, tag, known, fit⟩ | stray
  · obtain ⟨call', known', same⟩ := keeps.req i call known
    exact .inl ⟨i, call', tag, known', same ▸ fit⟩
  · exact .inr stray

theorem Belongs.known (belongs : s.Belongs fits other m) (tag : m.2 = some i) :
    ∃ call, s.calls[i]? = some call := by
  rcases belongs with ⟨j, call, tag', known, _⟩ | ⟨tag', _⟩
  · rw [tag] at tag'
    cases tag'
    exact ⟨call, known⟩
  · rw [tag] at tag'
    nomatch tag'

end Belongs

variable {m : Tagged}

theorem Submitted.mono (submitted : s.Submitted m) (keeps : Keeps s s') : s'.Submitted m := by
  unfold Submitted
  rw [keeps.nodeID]
  exact Belongs.mono submitted keeps

variable {x : Tagged}

theorem Addressed.mono (addressed : s.Addressed x) (keeps : Keeps s s') : s'.Addressed x :=
  Belongs.mono addressed keeps

/-- A call that never started is not on its way. -/
theorem OK.onWay_eq_zero (ok : s.OK) (unknown : s.calls[i]? = none) : s.onWay i = 0 := by
  have none_of : ∀ l : List Tagged,
      (∀ m ∈ l, m.2 = some i → ∃ call, s.calls[i]? = some call) →
      l.countP (fun m => m.2 = some i) = 0 := by
    intro l known
    rw [countP_eq_zero]
    intro m mem tagged
    obtain ⟨call, started⟩ := known m mem (of_decide_eq_true tagged)
    rw [unknown] at started
    nomatch started
  rw [onWay, none_of s.stepCh fun m mem => Belongs.known (ok.submitted m mem),
    none_of s.outbox fun x mem => Belongs.known (ok.addressed x mem), unknown]
  rfl

/-! ### Handlers -/

variable {call : Call} {req : Request}

theorem getElem?_registering (known : (s.registering req).calls[i]? = some call) :
    s.calls[i]? = some call ∨ i = s.calls.length ∧ call = { req := req } := by
  rcases Runs.getElem?_concat_eq_some known with ⟨_, old⟩ | new
  · exact .inl old
  · exact .inr new

theorem Keeps.registering (s : Endpoint σ) (req : Request) : Keeps s (s.registering req) where
  nodeID := rfl
  req i call known := by
    obtain ⟨inside, _⟩ := List.getElem?_eq_some_iff.mp known
    exact ⟨call, (getElem?_append_left inside).trans known, rfl⟩

/-- Only the new call is on its way once more. -/
theorem onWay_registering (s : Endpoint σ) (req : Request) (i : ℕ) :
    (s.registering req).onWay i = s.onWay i + if i = s.calls.length then 1 else 0 := by
  rcases lt_trichotomy i s.calls.length with old | last | beyond
  · have same : (s.registering req).calls[i]? = s.calls[i]? := getElem?_append_left old
    rw [if_neg (by omega), onWay, same]
    rfl
  · subst last
    rw [onWay, onWay]
    simp [registering]
    omega
  · have absent : s.calls[i]? = none := getElem?_eq_none beyond.le
    have absent' : (s.registering req).calls[i]? = none := by
      apply getElem?_eq_none
      rw [registering, length_append, length_singleton]
      omega
    rw [if_neg (by omega), onWay, onWay, absent, absent']
    rfl

theorem OK.register (ok : s.OK) (orderly : s.Orderly (.register req)) : (s.registering req).OK := by
  have keeps := Keeps.registering s req
  refine ⟨ok.empty, ?once, ?registered, fun m mem => (ok.submitted m mem).mono keeps,
    fun x mem => (ok.addressed x mem).mono keeps, ?own, ok.delivered⟩
  case once =>
    intro i
    rw [onWay_registering]
    split
    · rename_i last
      rw [ok.onWay_eq_zero (getElem?_eq_none last.ge)]
    · exact ok.once i
  case registered =>
    intro i call known way
    rcases getElem?_registering known with old | ⟨last, fresh⟩
    · obtain ⟨inside, _⟩ := List.getElem?_eq_some_iff.mp old
      rw [onWay_registering, if_neg (by omega)] at way
      have other : call.req.peer ≠ req.peer := by
        have apart := orderly i inside way
        rw [old] at apart
        exact fun same => apart (congrArg some same)
      exact (update_of_ne other _ _).trans (ok.registered i call old way)
    · subst last fresh
      exact update_self _ _ _
  case own =>
    intro i call known
    rcases getElem?_registering known with old | ⟨_, fresh⟩
    · exact ok.own i call old
    · subst fresh
      exact ⟨by simp, by simp⟩

variable {f : Call → Call}

/-- The channel or the phase of a call changes. -/
theorem getElem?_modify_eq_some {calls : List Call} {i j : ℕ}
    (known : (calls.modify i f)[j]? = some call) :
    ∃ old, calls[j]? = some old ∧ call = if i = j then f old else old := by
  rw [getElem?_modify] at known
  cases before : calls[j]? with
  | none =>
    rw [before] at known
    nomatch known
  | some old =>
    rw [before] at known
    exact ⟨old, rfl, (some.inj known).symm⟩

/-- A call changes, and the map may forget a channel that is no longer waited for. -/
theorem OK.modify (ok : s.OK) {pending : NodeID → Option ℕ}
    (eq : s' = { s with calls := s.calls.modify i f, pending := pending })
    (req : ∀ call, (f call).req = call.req) (less : ∀ j, s'.onWay j ≤ s.onWay j)
    (waits : ∀ j call, s.calls[j]? = some call → 0 < s.onWay j → pending call.req.peer = some j)
    (own : ∀ old, s.calls[i]? = some old → Call.Own i (f old)) : s'.OK := by
  subst eq
  have keeps : Keeps s { s with calls := s.calls.modify i f, pending := pending } := by
    refine ⟨rfl, fun j call known => ?_⟩
    rw [getElem?_modify, known]
    refine ⟨_, rfl, ?_⟩
    split
    · exact req call
    · rfl
  refine ⟨ok.empty, fun j => (less j).trans (ok.once j), ?registered,
    fun m mem => (ok.submitted m mem).mono keeps, fun x mem => (ok.addressed x mem).mono keeps,
    ?own, ok.delivered⟩
  case registered =>
    intro j call known way
    obtain ⟨old, before, eq⟩ := getElem?_modify_eq_some known
    have same : call.req = old.req := by
      rw [eq]
      split
      · exact req old
      · rfl
    rw [same]
    exact waits j old before (way.trans_le (less j))
  case own =>
    intro j call known
    obtain ⟨old, before, eq⟩ := getElem?_modify_eq_some known
    split at eq
    · rename_i this
      subst this eq
      exact own old before
    · rw [eq]
      exact ok.own j old before

variable {phase : Phase}

/-- A handler that moves on is not about to step its message in. -/
theorem onWay_setPhase (moved : phase ≠ .registered) (j : ℕ) : (s.setPhase i phase).onWay j =
      if i = j then
        s.stepCh.countP (fun m => m.2 = some j) + s.outbox.countP (fun m => m.2 = some j)
      else s.onWay j := by
  unfold onWay setPhase
  rw [getElem?_modify]
  split
  · cases s.calls[j]? <;> simp [moved]
  · cases s.calls[j]? <;> simp

theorem onWay_setPhase_le (moved : phase ≠ .registered) (j : ℕ) :
    (s.setPhase i phase).onWay j ≤ s.onWay j := by
  rw [onWay_setPhase moved]
  split
  · unfold onWay
    omega
  · exact le_rfl

theorem OK.setPhase (ok : s.OK) (moved : phase ≠ .registered)
    (own : ∀ answer, phase = .returned (some answer) → answer.2 = some i) :
    (s.setPhase i phase).OK :=
  ok.modify rfl (fun _ => rfl) (onWay_setPhase_le moved) ok.registered fun old before =>
    ⟨(ok.own i old before).channel, own⟩

theorem onWay_push (m : Tagged) (i : ℕ) :
    onWay { s with stepCh := s.stepCh ++ [m] } i = s.onWay i + if m.2 = some i then 1 else 0 := by
  unfold onWay
  rw [countP_append, countP_singleton]
  simp only [decide_eq_true_eq]
  omega

section

variable {m : Tagged} (ok : s.OK) (submitted : s.Submitted m)
  (free : ∀ i call, m.2 = some i → s.calls[i]? = some call →
    s.onWay i = 0 ∧ s.pending call.req.peer = some i)

include ok submitted free

theorem OK.push : OK { s with stepCh := s.stepCh ++ [m] } := by
  refine { ok with once := ?once, registered := ?registered, submitted := ?submitted }
  case once =>
    intro i
    rw [onWay_push]
    split
    · rename_i tag
      obtain ⟨call, known⟩ := Belongs.known submitted tag
      rw [(free i call tag known).1]
    · exact ok.once i
  case registered =>
    intro i call known way
    rw [onWay_push] at way
    split at way
    · rename_i tag
      exact (free i call tag known).2
    · exact ok.registered i call known way
  case submitted =>
    rw [forall_mem_append, forall_mem_singleton]
    exact ⟨ok.submitted, submitted⟩

theorem OK.pushStep (eq : s.pushStep m = some s') : s'.OK := by
  unfold Endpoint.pushStep at eq
  split at eq
  · cases eq
    exact ok.push submitted free
  · nomatch eq

end

/-- A handler that has just registered steps its message in. -/
theorem OK.submit (ok : s.OK) (known : s.calls[i]? = some call)
    (registered : call.phase = .registered)
    (eq : (s.setPhase i .waiting).pushStep (call.req.message s.nodeID, some i) = some s') :
    s'.OK := by
  have moved : Phase.waiting ≠ .registered := by simp
  have way : s.onWay i = 1 + s.stepCh.countP (fun m => m.2 = some i) +
      s.outbox.countP (fun m => m.2 = some i) := by
    simp [onWay, known, registered]
  have once := ok.once i
  have waiting : (s.setPhase i .waiting).calls[i]? = some { call with phase := .waiting } := by
    simp [Endpoint.setPhase, known]
  have next : (s.setPhase i .waiting).OK := ok.setPhase moved (by simp)
  refine next.pushStep (.inl ⟨i, _, rfl, waiting, rfl⟩) ?_ eq
  rintro j call' ⟨⟩ known'
  rw [waiting] at known'
  cases known'
  constructor
  · rw [onWay_setPhase moved, if_pos rfl]
    omega
  · exact ok.registered i call known (by omega)

/-! ### The loop and the transport -/

variable {rest : List Tagged}

theorem onWay_cons_stepCh (queue : s.stepCh = m :: rest) (i : ℕ) :
    s.onWay i = onWay { s with stepCh := rest } i + if m.2 = some i then 1 else 0 := by
  unfold onWay
  rw [queue, countP_cons]
  simp only [decide_eq_true_eq]
  omega

theorem onWay_cons_outbox (queue : s.outbox = x :: rest) (i : ℕ) :
    s.onWay i = onWay { s with outbox := rest } i + if x.2 = some i then 1 else 0 := by
  unfold onWay
  rw [queue, countP_cons]
  simp only [decide_eq_true_eq]
  omega

/-- Messages may be taken out of both queues. -/
theorem OK.shrink (ok : s.OK) {stepCh outbox : List Tagged} (steps : stepCh.Sublist s.stepCh)
    (sends : outbox.Sublist s.outbox) : OK { s with stepCh := stepCh, outbox := outbox } := by
  have less : ∀ i, onWay { s with stepCh := stepCh, outbox := outbox } i ≤ s.onWay i := by
    intro i
    exact Nat.add_le_add (Nat.add_le_add_left steps.countP_le _) sends.countP_le
  exact ⟨ok.empty, fun i => (less i).trans (ok.once i),
    fun i call known way => ok.registered i call known (way.trans_le (less i)),
    fun m mem => ok.submitted m (steps.subset mem), fun x mem => ok.addressed x (sends.subset mem),
    ok.own, ok.delivered⟩

variable {node : RaftNode σ} {tag : Option ℕ}

/-- A round makes one answer at most for a call, which has no other message on its way. -/
theorem OK.emit (ok : s.OK) (idle : s.outbox = []) (empty : node.raft.msgs = [])
    (addressed : ∀ x ∈ messages, s.Addressed (x, tag))
    (free : ∀ i, tag = some i → messages.length ≤ 1 ∧ s.onWay i = 0 ∧
      ∀ call, s.calls[i]? = some call → s.pending call.req.peer = some i) :
    (s.emitting node messages tag).OK := by
  have count : ∀ i, (s.emitting node messages tag).onWay i =
      s.onWay i + if tag = some i then messages.length else 0 := by
    intro i
    unfold onWay emitting
    rw [idle]
    by_cases this : tag = some i
    · simp [this]
    · simp [this]
  refine ⟨empty, ?once, ?registered, ok.submitted, ?addressed, ok.own, ok.delivered⟩
  case once =>
    intro i
    rw [count]
    split
    · rename_i this
      obtain ⟨short, none, -⟩ := free i this
      omega
    · exact ok.once i
  case registered =>
    intro i call known way
    rw [count] at way
    split at way
    · rename_i this
      exact (free i this).2.2 call known
    · exact ok.registered i call known way
  case addressed =>
    intro x mem
    obtain ⟨m, inside, rfl⟩ := mem_map.mp mem
    exact addressed m inside

/-- Inversion of a round. -/
theorem loop_eq_some (eq : s.loop sm input tag = some s') :
    s.outbox = [] ∧ ∃ messages node, round sm s.node input = .ok (messages, node) ∧
      s' = s.emitting node messages tag := by
  unfold loop at eq
  split at eq
  · rename_i idle
    obtain ⟨⟨messages, node⟩, ran, same⟩ := map_eq_some_iff.mp eq
    exact ⟨idle, messages, node, toOption_eq_some.mp ran, same.symm⟩
  · nomatch eq

/-- A round that received no request. -/
theorem OK.loop (ok : s.OK) (other : ∀ m, input = .step m → m.type.isRequest = false)
    (eq : s.loop sm input none = some s') : s'.OK := by
  obtain ⟨idle, messages, node, ran, rfl⟩ := loop_eq_some eq
  obtain ⟨empty, ⟨m, received, request, _⟩ | ⟨_, outgoing⟩⟩ := round_eq ok.empty ran
  · rw [other m received] at request
    nomatch request
  · refine ok.emit idle empty (fun x mem => ?_) (by rintro i ⟨⟩)
    exact .inr ⟨rfl, (outgoing x mem).not_isResponse⟩

theorem OK.stepNext (ok : s.OK) {m : Message} (queue : s.stepCh = (m, tag) :: rest)
    (eq : { s with stepCh := rest }.loop sm (.step m) tag = some s') : s'.OK := by
  have popped := ok.shrink (queue ▸ sublist_cons_self (m, tag) rest) (.refl s.outbox)
  rcases ok.submitted (m, tag) (queue ▸ mem_cons_self) with
    ⟨i, call, rfl, known, rfl⟩ | ⟨rfl, other⟩
  · obtain ⟨idle, messages, node, ran, rfl⟩ := loop_eq_some eq
    have count := onWay_cons_stepCh queue i
    rw [if_pos rfl] at count
    have once := ok.once i
    obtain ⟨empty, ⟨m, received, -, short, answers⟩ | ⟨other, -⟩⟩ := round_eq ok.empty ran
    · cases received
      refine popped.emit idle empty (fun x mem => .inl ⟨i, call, rfl, known, ?_, ?_⟩) ?_
      · rw [(answers x mem).type]
        split <;> rfl
      · rw [(answers x mem).toID]
        cases call.req <;> rfl
      · rintro _ ⟨⟩
        exact ⟨short, by omega, fun call known => ok.registered i call known (by omega)⟩
    · have request := call.req.message_isRequest s.nodeID
      rw [other _ rfl] at request
      nomatch request
  · apply popped.loop _ eq
    rintro _ ⟨⟩
    exact other

variable {x : Message}

theorem deliver_eq (target : s.target x = some i) :
    s.deliver (x, some i) = s.handOver (x, some i) i := by
  have account : s.account (x, some i) = s.lost := by
    unfold account
    dsimp only
    rw [target, if_neg (by simp)]
  unfold deliver
  rw [target, account]
  rfl

theorem onWay_handOver (answer : Tagged) (i j : ℕ) : (s.handOver answer i).onWay j = s.onWay j := by
  unfold onWay handOver
  rw [getElem?_modify]
  cases s.calls[j]? with
  | none => rfl
  | some call =>
    split <;> rfl

theorem OK.handOver (ok : s.OK) (pending : s.pending x.toID = some i)
    (done : s.onWay i = 0) : (s.handOver (x, some i) i).OK := by
  refine ok.modify rfl (fun _ => rfl) (fun j => (onWay_handOver _ i j).le) ?_ fun old before =>
    ⟨by simp, (ok.own i old before).returned⟩
  intro j call known way
  have waits := ok.registered j call known way
  -- a call of the same peer on its way would have its own channel in the map
  have other : call.req.peer ≠ x.toID := by
    intro samePeer
    rw [samePeer, pending] at waits
    cases waits
    omega
  exact (update_of_ne other _ _).trans waits

theorem OK.sendNext (ok : s.OK)
    (queue : s.outbox = (x, tag) :: rest) (orderly : s.Orderly .sendNext) :
    OK (if x.type.isResponse then { s with outbox := rest }.deliver (x, tag)
      else { s with outbox := rest }) := by
  have popped := ok.shrink (.refl s.stepCh) (queue ▸ sublist_cons_self (x, tag) rest)
  rcases ok.addressed (x, tag) (queue ▸ mem_cons_self) with
    ⟨i, call, rfl, known, response, toID⟩ | ⟨_, other⟩
  · have count := onWay_cons_outbox queue i
    rw [if_pos rfl] at count
    have once := ok.once i
    have pending := ok.registered i call known (by omega)
    have pool := orderly (x, some i) (by rw [queue]; rfl) response
    rw [← toID] at pending
    have target : target { s with outbox := rest } x = some i := (if_pos pool).trans pending
    rw [if_pos response, deliver_eq target]
    exact popped.handOver pending (by omega)
  · rw [show x.type.isResponse = false from other]
    exact popped

/-! ### Runs -/

theorem OK.step (ok : s.OK) {event : Event} (orderly : s.Orderly event)
    (eq : s.step sm event = some s') : s'.OK := by
  cases event with
  | register req =>
    cases eq
    exact ok.register orderly
  | submit i =>
    obtain ⟨call, known, rest⟩ := bind_eq_some_iff.mp eq
    split at rest
    · rename_i registered
      exact ok.submit known registered rest
    · nomatch rest
  | giveUp i =>
    obtain ⟨call, known, rest⟩ := bind_eq_some_iff.mp eq
    split at rest
    · cases rest
      exact ok.setPhase (by simp) (by simp)
    · nomatch rest
  | receive i =>
    obtain ⟨call, known, rest⟩ := bind_eq_some_iff.mp eq
    obtain ⟨answer, holds, rest⟩ := bind_eq_some_iff.mp rest
    split at rest
    · cases rest
      refine ok.setPhase (by simp) ?_
      rintro _ ⟨⟩
      exact (ok.own i call known).channel answer holds
    · nomatch rest
  | enqueue m =>
    simp only [Endpoint.step] at eq
    split at eq
    · nomatch eq
    · rename_i other
      apply ok.pushStep (.inr ⟨rfl, Bool.eq_false_of_not_eq_true other⟩) _ eq
      rintro i call ⟨⟩
  | tick | propose entries => exact ok.loop (by simp) eq
  | stepNext =>
    simp only [Endpoint.step] at eq
    split at eq
    · nomatch eq
    · rename_i queue
      exact ok.stepNext queue eq
  | sendNext =>
    simp only [Endpoint.step] at eq
    split at eq
    · nomatch eq
    · rename_i queue
      cases eq
      exact ok.sendNext queue orderly
  | addPeer peer | removePeer peer =>
    cases eq
    exact { ok with }

theorem OK.start {config : Raft.Config} {storage : σ} {rng : Rng}
    (new : RaftNode.new config storage rng = .ok node) (pool : NodeID → Bool) :
    (start config.nodeID node pool).OK := by
  obtain ⟨raft, created, same⟩ := bind_eq_ok.mp new
  cases same
  refine ⟨(Raft.becomeFollower_quiet created).msgs, ?_, ?_, ?_, ?_, ?_, rfl⟩
  · exact fun i => Nat.zero_le 1
  · rintro i call ⟨⟩
  · rintro m ⟨⟩
  · rintro x ⟨⟩
  · rintro i call ⟨⟩

/-- As long as the calls of a peer do not overlap and the pool knows whom a node answers,
every call returns the answer to its own message, and gets it. -/
theorem paired_of_orderly {config : Raft.Config} {storage : σ} {rng : Rng} {node : RaftNode σ}
    (new : RaftNode.new config storage rng = .ok node) (pool : NodeID → Bool)
    (reachable : Runs.Reachable (step sm) Orderly (start config.nodeID node pool) s) :
    s.Paired :=
  (reachable.invariant (OK.start new pool) fun _ _ _ ok orderly next => ok.step orderly next).paired

/-- A state machine that ignores what is applied to it. -/
def ignoring : StateMachine Unit where
  apply storage _ := (storage, none)
  restore storage _ := storage

/-- A new member of a cluster of two. -/
def newcomer : RaftNode Unit where
  raft :=
    { config := Raft.defaultConfig "a" ["b"]
      id := "a"
      electionTimeout := 10
      rng := fun _ => 0 }
  storage := ()

/-- The call for a vote of the other member, and its call for entries once it leads. -/
def voteCall : Request :=
  .requestVote
    { term := 1, candidateId := "b", lastLogIndex := 0, lastLogTerm := 0, preVote := false }

def entriesCall : Request :=
  .appendEntries
    { term := 1
      leaderId := "b"
      prevLogIndex := 0
      prevLogTerm := 0
      entries := []
      leaderCommit := 0 }

/-- The answer to the call for a vote. -/
def voteAnswer : Message where
  type := .voteRsp
  toID := "b"
  fromID := "a"
  term := 1
  voteGranted := true

/-- Two calls one after the other. -/
theorem paired_sequential :
    ∃ s, Runs.Reachable (step ignoring) Orderly (start "a" newcomer fun _ => true) s ∧
      (∀ call ∈ s.calls, ∃ answer, call.phase = .returned (some answer)) ∧ s.Paired := by
  obtain ⟨s, reachable, holds⟩ := Runs.exists_of_exec (step ignoring) Orderly
    (start "a" newcomer fun _ => true)
    [.register voteCall, .submit 0, .stepNext, .sendNext, .receive 0,
      .register entriesCall, .submit 1, .stepNext, .sendNext, .receive 1]
    (P := fun s => ∀ call ∈ s.calls, call.phase = .returned call.channel ∧ call.channel.isSome)
    (by decide +kernel)
  have new : RaftNode.new (Raft.defaultConfig "a" ["b"]) () (fun _ => 0) = .ok newcomer := rfl
  refine ⟨s, reachable, ?_, paired_of_orderly new _ reachable⟩
  intro call mem
  obtain ⟨returned, some⟩ := holds call mem
  obtain ⟨answer, eq⟩ := isSome_iff_exists.mp some
  exact ⟨answer, returned.trans (by rw [eq])⟩

/-- The calls overlap: the call for entries returns the answer to the call for a vote, which
gets none. -/
theorem not_paired_overlapping :
    ∃ s, Runs.Reachable (step ignoring) (fun _ _ => True) (start "a" newcomer fun _ => true) s ∧
      ¬ s.Paired ∧ s.lost = [0] ∧ ∃ call, s.calls[1]? = some call ∧ call.req = entriesCall ∧
        call.phase = .returned (some (voteAnswer, some 0)) := by
  obtain ⟨s, reachable, lost, known⟩ := Runs.exists_of_exec (step ignoring) (fun _ _ => True)
    (start "a" newcomer fun _ => true)
    [.register voteCall, .register entriesCall, .submit 0, .submit 1, .stepNext, .sendNext,
      .receive 1]
    (P := fun s => s.lost = [0] ∧ s.calls[1]? = some
      { req := entriesCall
        phase := .returned (some (voteAnswer, some 0))
        channel := some (voteAnswer, some 0) })
    (by decide +kernel)
  refine ⟨s, reachable, ?_, lost, _, known, rfl, rfl⟩
  intro paired
  rw [paired.delivered] at lost
  nomatch lost

end Endpoint

end Hermes.Server
