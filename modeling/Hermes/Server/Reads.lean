import Hermes.Raft.Application
import Hermes.Server.Node

/-!
# Reads that follow writes

A read is to return what the last put has written that was done before, or something
later.  It does if the node that answers has applied the entry of that put, and if its
engine still answers from memory.  The checks of `Get` do not make sure of that: a put
returns before its entry is committed, the read index is the commit index of the node
itself, and the wait for it is bounded.
-/

open Hermes.Raft (NodeID Message LogEntry Membership Cluster Action)
open Hermes.Storage (newPutCommand decodeCommand validateCommand)
open Hermes.Storage.Memtable (Key)

namespace Hermes.Server

open Function List

/-! ## The map that a log describes -/

/-- The key that an entry writes, and the value that it leaves there. -/
def written (entry : LogEntry) : Option (Key × Option Bytes) :=
  if entry.type = .noop ∨ entry.data = [] then none
  else
    match validateCommand entry.data with
    | some _ => none
    | none =>
      let (key, value, deleted) := decodeCommand entry.data
      some (key, if deleted then none else some value)

def overwrite (contents : Key → Option Bytes) (entry : LogEntry) : Key → Option Bytes :=
  match written entry with
  | some (key, value) => Function.update contents key value
  | none => contents

variable {entry : LogEntry}

theorem overwrite_of_none (nothing : written entry = none)
    (contents : Key → Option Bytes) : overwrite contents entry = contents := by
  rw [overwrite, nothing]

variable {key : Key} {value : Option Bytes}

theorem overwrite_of_some (writes : written entry = some (key, value))
    (contents : Key → Option Bytes) :
    overwrite contents entry = Function.update contents key value := by
  rw [overwrite, writes]

/-- The map that a list of entries leaves. -/
def replay (entries : List LogEntry) : Key → Option Bytes :=
  entries.foldl overwrite fun _ => none

theorem replay_concat (entries : List LogEntry) (entry : LogEntry) :
    replay (entries ++ [entry]) = overwrite (replay entries) entry := by
  rw [replay, foldl_append]
  rfl

variable {entries : List LogEntry}

/-- The map holds the value of a write, or the value of a later one to the same key. -/
theorem replay_spec (mem : entry ∈ entries) (writes : written entry = some (key, value)) :
    replay entries key = value ∨
      ∃ later, [entry, later] <+ entries ∧ written later = some (key, replay entries key) := by
  induction entries using reverseRecOn with
  | nil => nomatch mem
  | append_singleton entries last ih =>
    rw [replay_concat]
    rcases mem_append.mp mem with old | new
    · -- the last entry may write the key again, another key or nothing
      have unchanged : overwrite (replay entries) last key = replay entries key →
          overwrite (replay entries) last key = value ∨
            ∃ later, [entry, later] <+ entries ++ [last] ∧
              written later = some (key, overwrite (replay entries) last key) := by
        intro same
        rw [same]
        rcases ih old with holds | ⟨later, follows, again⟩
        · exact .inl holds
        · exact .inr ⟨later, follows.trans (sublist_append_left _ _), again⟩
      cases effect : written last with
      | none =>
        apply unchanged
        rw [overwrite_of_none effect]
      | some pair =>
        obtain ⟨key', value'⟩ := pair
        by_cases same : key = key'
        · subst same
          right
          refine ⟨last, (singleton_sublist.mpr old).append (Sublist.refl [last]), ?_⟩
          rw [effect, overwrite_of_some effect, update_self]
        · apply unchanged
          rw [overwrite_of_some effect, update_of_ne same]
    · left
      cases mem_singleton.mp new
      rw [overwrite_of_some writes, update_self]

/-! ## The engine of a node follows its log -/

/-- An engine that has taken every write stands for the map. -/
def Store.Holds (store : Store) (contents : Key → Option Bytes) : Prop :=
  store.failed = false → store.system.Represents contents

variable {store : Store} {contents : Key → Option Bytes}

theorem Store.Holds.write (holds : store.Holds contents) (key : Key) (value : Bytes)
    (deleted : Bool) : (store.write key value deleted).1.Holds
      (Function.update contents key (if deleted then none else some value)) := by
  unfold Store.write
  split
  · exact nofun
  · split
    · exact nofun
    · rename_i taken
      intro working
      exact (holds working).write taken

theorem Store.Holds.apply (holds : store.Holds contents) (entry : LogEntry) :
    (hermesStateMachine.apply store entry).1.Holds (overwrite contents entry) := by
  by_cases skipped : entry.type = .noop ∨ entry.data = []
  · have nothing : written entry = none := if_pos skipped
    rw [overwrite_of_none nothing]
    simp only [hermesStateMachine, if_pos skipped]
    exact holds
  · cases valid : validateCommand entry.data with
    | some text =>
      have nothing : written entry = none := by
        simp only [written, if_neg skipped, valid]
      rw [overwrite_of_none nothing]
      simp only [hermesStateMachine, if_neg skipped, valid]
      exact holds
    | none =>
      obtain ⟨key, value, deleted, decoded⟩ : ∃ key value deleted,
          decodeCommand entry.data = (key, value, deleted) := ⟨_, _, _, rfl⟩
      have effect : written entry = some (key, if deleted then none else some value) := by
        simp only [written, if_neg skipped, valid, decoded]
      rw [overwrite_of_some effect]
      simp only [hermesStateMachine, if_neg skipped, valid, decoded]
      cases deleted with
      | true => exact holds.write key [] true
      | false => exact holds.write key value false

theorem Store.Holds.applyAll (holds : store.Holds (replay entries)) (more : List LogEntry) :
    (hermesStateMachine.applyAll store more).Holds (replay (entries ++ more)) := by
  induction more generalizing store entries with
  | nil =>
    rw [append_nil]
    exact holds
  | cons entry rest ih =>
    rw [append_cons]
    apply ih
    rw [replay_concat]
    dsimp only
    split
    · rename_i noop
      have nothing : written entry = none := if_pos (.inl noop)
      rw [overwrite_of_none nothing]
      exact holds
    · exact holds.apply entry

/-! ## The condition -/

namespace Service

/-- The entries that a node has applied. -/
def applied (w : Service) (id : NodeID) : List LogEntry :=
  w.cluster.handed id

/-- An answer has the value of a put, or that of a write to the same key which follows the
put in what the node that has answered has applied. -/
def Current (w : Service) (p : PutRecord) (a : Answer) : Prop :=
  a.result = some p.value ∨ ∃ entry later, p.entry = some entry ∧
    [entry, later] <+ w.applied a.id ∧ written later = some (a.key, a.result)

/-- Keys and values have lengths of 32 bits. -/
def Fits (call : WriteCall) : Prop :=
  call.key.length < 2 ^ 32 ∧ ∀ value ∈ call.value, value.length < 2 ^ 32
  deriving Decidable

/-- A node may answer a read if its engine has taken every write and if it has applied
the puts of the key that were done before the read was called. -/
def CaughtUp (w : Service) (call : GetCall) : Prop :=
  (w.store call.id).failed = false ∧
    ∀ p ∈ call.before, p.key = call.key → ∃ entry ∈ p.entry, entry ∈ w.applied call.id
  deriving Decidable

/-- The condition on a step: the node that answers has caught up, engines keep the
answers of their memory, and keys and values are not too long. -/
def Served (w : Service) : Event → Prop
  | .read i => ∀ call ∈ w.getCalls[i]?, w.CaughtUp call
  | .engine id event => (w.store id).system.Keeps event
  | .beginWrite call => Fits call
  | _ => True

/-! ## The invariant -/

/-- The entry that has been appended for a put writes what the put said. -/
def PutOK (p : PutRecord) : Prop :=
  ∀ entry ∈ p.entry, written entry = some (p.key, some p.value)

structure OK (ms : Membership) (w : Service) : Prop where
  stores : ∀ id ∈ ms.ids, (w.store id).Holds (replay (w.applied id))
  writeCalls : ∀ call ∈ w.writeCalls, Fits call
  getCalls : ∀ call ∈ w.getCalls, call.id ∈ ms.ids ∧ ∀ p ∈ call.before, PutOK p
  puts : ∀ p ∈ w.puts, PutOK p
  answers : ∀ a ∈ w.answers, a.id ∈ ms.ids ∧ ∀ p ∈ a.before, p.key = a.key → w.Current p a

variable {ms : Membership} {sizing : Storage.Bloom.Sizing} {w w' : Service} {p : PutRecord}

/-- What has been answered stays right while nodes apply more. -/
theorem Current.mono {a : Answer} (current : w.Current p a)
    (grows : w.applied a.id <+: w'.applied a.id) : w'.Current p a := by
  rcases current with same | ⟨entry, later, known, follows, writes⟩
  · exact .inl same
  · exact .inr ⟨entry, later, known, follows.trans grows.sublist, writes⟩

theorem written_newPutCommand {value : Bytes} (shortKey : key.length < 2 ^ 32)
    (shortValue : value.length < 2 ^ 32) (index term : ℕ) :
    written { index := index, term := term, data := newPutCommand key value }
      = some (key, some value) := by
  have valid : validateCommand (newPutCommand key value) = none :=
    Storage.validateCommand_encode _
  have decoded : decodeCommand (newPutCommand key value) = (key, value, false) :=
    Storage.decodeCommand_encode _ shortKey shortValue
  have nonempty : newPutCommand key value ≠ [] := cons_ne_nil _ _
  unfold written
  simp only [nonempty, valid, decoded, reduceCtorEq, or_self, if_false]

variable {call : WriteCall}

theorem recordPut_ok (fits : Fits call) : ∀ p ∈ w.recordPut call, PutOK p := by
  intro p mem entry known
  unfold recordPut at mem
  split at mem
  · nomatch mem
  · rename_i value isPut
    rw [mem_singleton.mp mem] at known ⊢
    split at known
    · cases known
      rw [WriteCall.command, isPut]
      exact written_newPutCommand fits.1 (fits.2 value isPut) _ _
    · nomatch known

theorem release_eq (id : NodeID) (released : List ReadIndexRequest) (call : GetCall) :
    ∃ phase, release id released call = { call with phase } := by
  unfold release
  split
  · split
    · split <;> exact ⟨_, rfl⟩
    · exact ⟨_, rfl⟩
  · exact ⟨_, rfl⟩

theorem OK.initial (init : w.Initial ms) : w.OK ms := by
  constructor
  · intro id member _
    obtain ⟨config, system⟩ := init.engines id member
    rw [Service.applied, Cluster.handed, init.cluster.2.2.1, system]
    exact Storage.System.start_represents config
  · rw [init.writeCalls]
    exact forall_mem_nil _
  · rw [init.getCalls]
    exact forall_mem_nil _
  · rw [init.puts]
    exact forall_mem_nil _
  · rw [init.answers]
    exact forall_mem_nil _

section

variable {i : ℕ} {id : NodeID} (ok : w.OK ms)

include ok

theorem OK.answers_mono (grows : ∀ id, w.applied id <+: w'.applied id) : ∀ a ∈ w.answers,
    a.id ∈ ms.ids ∧ ∀ p ∈ a.before, p.key = a.key → w'.Current p a := by
  intro a mem
  obtain ⟨member, current⟩ := ok.answers a mem
  exact ⟨member, fun p before key => (current p before key).mono (grows a.id)⟩

/-- The lists of calls do not enter into what nodes have applied. -/
theorem OK.withCalls (same : w'.cluster = w.cluster)
    (writeCalls : ∀ call ∈ w'.writeCalls, Fits call)
    (getCalls : ∀ call ∈ w'.getCalls, call.id ∈ ms.ids ∧ ∀ p ∈ call.before, PutOK p)
    (puts : ∀ p ∈ w'.puts, PutOK p) (answers : w'.answers = w.answers) : w'.OK ms := by
  have applied : ∀ id, w'.applied id = w.applied id := by
    intro id
    rw [Service.applied, same]
    rfl
  refine ⟨?_, writeCalls, getCalls, puts, ?_⟩
  · intro id member
    rw [applied, store, same]
    exact ok.stores id member
  · rw [answers]
    exact ok.answers_mono fun id => by rw [applied]

/-! ### Steps of Raft -/

/-- A step of the cluster: the node that acts may apply more of its log to its engine. -/
theorem OK.advance {a : Action} {c : Cluster Store}
    (next : w.cluster.step hermesStateMachine a = .ok c) : { w with cluster := c }.OK ms := by
  obtain ⟨n, rd, rfl, storage⟩ := Cluster.step_storage next
  have applied : ∀ id, w.applied id <+:
      { w with cluster := w.cluster.observe a.actor n rd }.applied id := by
    intro id
    unfold Service.applied
    by_cases acts : id = a.actor
    · rw [acts, Cluster.handed_observe_self]
      exact prefix_append _ _
    · rw [Cluster.handed_observe_of_ne acts]
  refine ⟨?_, ok.writeCalls, ok.getCalls, ok.puts, ok.answers_mono applied⟩
  intro id member
  have holds := ok.stores id member
  unfold store Service.applied at *
  by_cases acts : id = a.actor
  · rw [acts] at holds ⊢
    rw [Cluster.observe_nodes_self, storage, Cluster.handed_observe_self]
    exact holds.applyAll rd.committedEntries
  · rw [Cluster.observe_nodes_of_ne acts, Cluster.handed_observe_of_ne acts]
    exact holds

theorem OK.raft {a : Action} (next : w.raft a = some w') : w'.OK ms := by
  obtain ⟨c, stepped, rfl⟩ := Option.map_eq_some_iff.mp next
  exact ok.advance (toOption_eq_some.mp stepped)

theorem OK.propose {answered : Bool} (next : w.propose i answered = some w') : w'.OK ms := by
  unfold Service.propose at next
  split at next
  · nomatch next
  · rename_i call found
    have fits := ok.writeCalls call (mem_of_getElem? found)
    split at next
    · nomatch next
    · rename_i n ready err proposed
      cases next
      let action : Action := .propose call.id [{ type := .normal, data := call.command }]
      have stepped : w.cluster.step hermesStateMachine action
          = .ok (w.cluster.observe call.id n ready) := bind_eq_ok.mpr ⟨_, proposed, rfl⟩
      refine (ok.advance stepped).withCalls rfl ?_ ok.getCalls ?_ rfl
      · intro call' mem
        exact ok.writeCalls call' (mem_of_mem_eraseIdx mem)
      · intro p mem
        split at mem
        · rcases mem_append.mp mem with old | new
          · exact ok.puts p old
          · exact recordPut_ok fits p new
        · exact ok.puts p mem

/-! ### Steps of the engines -/

theorem OK.setStore {store : Store} (holds : store.Holds (replay (w.applied id))) :
    (w.setStore id store).OK ms := by
  refine ⟨?_, ok.writeCalls, ok.getCalls, ok.puts, ok.answers_mono fun p => prefix_rfl⟩
  intro p member
  unfold Service.store Service.setStore
  dsimp only
  by_cases same : p = id
  · subst same
    rw [update_self]
    exact holds
  · rw [update_of_ne same]
    exact ok.stores p member

theorem OK.engine (member : id ∈ ms.ids) {event : Storage.Event}
    (keeps : (w.store id).system.Keeps event) (next : w.engine sizing id event = some w') :
    w'.OK ms := by
  have holds := ok.stores id member
  cases event with
  | put key value coins ts seq | delete key coins ts seq => nomatch next
  | startFlush | finishFlush now | startCompaction | finishCompaction now =>
    obtain ⟨system, stepped, rfl⟩ := Option.map_eq_some_iff.mp next
    exact ok.setStore fun working => (holds working).step keeps stepped

/-! ### Steps of the calls -/

theorem OK.beginWrite (fits : Fits call) (next : w.beginWrite call = some w') : w'.OK ms := by
  unfold Service.beginWrite at next
  split at next
  · cases next
    refine ok.withCalls rfl ?_ ok.getCalls ok.puts rfl
    rw [forall_mem_append, forall_mem_singleton]
    exact ⟨ok.writeCalls, fits⟩
  · nomatch next

theorem OK.beginGet (member : id ∈ ms.ids) {now : ℤ}
    (next : w.beginGet id key now = some w') : w'.OK ms := by
  unfold Service.beginGet at next
  split at next
  · cases next
    refine ok.withCalls rfl ok.writeCalls ?_ ok.puts rfl
    rw [forall_mem_append, forall_mem_singleton]
    exact ⟨ok.getCalls, member, ok.puts⟩
  · nomatch next

variable {call : GetCall}

/-- A call whose phase changes is the same call. -/
theorem OK.setPhase (found : w.getCalls[i]? = some call) (phase : GetPhase) :
    ∀ call' ∈ w.getCalls.set i { call with phase := phase },
      call'.id ∈ ms.ids ∧ ∀ p ∈ call'.before, PutOK p := by
  intro call' mem
  rcases mem_or_eq_of_mem_set mem with old | rfl
  · exact ok.getCalls call' old
  · have kept := ok.getCalls call (mem_of_getElem? found)
    exact kept

theorem OK.recheck (next : w.recheck i = some w') : w'.OK ms := by
  unfold Service.recheck at next
  split at next
  · rename_i call found
    split at next
    · cases next
      exact ok.withCalls rfl ok.writeCalls (ok.setPhase found _) ok.puts rfl
    · nomatch next
  · nomatch next

theorem OK.requestRead (next : w.requestRead i = some w') : w'.OK ms := by
  unfold Service.requestRead at next
  split at next
  · rename_i call found
    split at next
    · cases next
      exact ok.withCalls rfl ok.writeCalls (ok.setPhase found _) ok.puts rfl
    · nomatch next
  · nomatch next

theorem OK.confirm (next : w.confirm id = some w') : w'.OK ms := by
  unfold Service.confirm at next
  split at next
  · nomatch next
  · cases next
    refine ok.withCalls rfl ok.writeCalls ?_ ok.puts rfl
    intro call mem
    obtain ⟨call', mem', rfl⟩ := mem_map.mp mem
    obtain ⟨phase, same⟩ := release_eq id _ call'
    rw [same]
    exact ok.getCalls call' mem'

theorem OK.cancel (next : w.cancel i = some w') : w'.OK ms := by
  unfold Service.cancel at next
  split at next
  · cases next
    refine ok.withCalls rfl ok.writeCalls ?_ ok.puts rfl
    intro call mem
    exact ok.getCalls call (mem_of_mem_eraseIdx mem)
  · nomatch next

theorem OK.current (mem : call ∈ w.getCalls) (caughtUp : w.CaughtUp call) {result : Option Bytes}
    (got : (w.store call.id).system.get call.key = .ok result) (before : p ∈ call.before)
    (sameKey : p.key = call.key) :
    w.Current p { id := call.id, key := call.key, before := call.before, result := result } := by
  obtain ⟨member, puts⟩ := ok.getCalls call mem
  obtain ⟨working, holdsPuts⟩ := caughtUp
  obtain ⟨entry, known, applied⟩ := holdsPuts p before sameKey
  have answer : result = replay (w.applied call.id) call.key := by
    rw [(ok.stores call.id member working).get_eq] at got
    exact (Except.ok.inj got).symm
  have writes : written entry = some (call.key, some p.value) := by
    rw [← sameKey]
    exact puts p before entry known
  rcases replay_spec applied writes with same | ⟨later, follows, again⟩
  · exact .inl (answer.trans same)
  · rw [← answer] at again
    exact .inr ⟨entry, later, known, follows, again⟩

theorem OK.read (served : w.Served (.read i)) (next : w.read i = some w') : w'.OK ms := by
  have getCalls : ∀ call ∈ w.getCalls.eraseIdx i,
      call.id ∈ ms.ids ∧ ∀ p ∈ call.before, PutOK p := by
    intro call mem
    exact ok.getCalls call (mem_of_mem_eraseIdx mem)
  unfold Service.read at next
  split at next
  · nomatch next
  · rename_i call found
    have mem := mem_of_getElem? found
    cases got : (w.store call.id).system.get call.key with
    | error e =>
      simp only [got] at next
      split at next <;> cases next
      all_goals exact ok.withCalls rfl ok.writeCalls getCalls ok.puts rfl
    | ok result =>
      simp only [got] at next
      split at next <;> cases next
      all_goals
        refine { ok with getCalls, answers := ?_ }
        rw [forall_mem_append, forall_mem_singleton]
        exact ⟨ok.answers, (ok.getCalls call mem).1,
          fun p => ok.current mem (served call found) got⟩

/-- Every step that meets the condition keeps the invariant. -/
theorem OK.step {event : Event} (served : w.Served event)
    (next : w.step ms sizing event = some w') : w'.OK ms := by
  cases event with
  | tick id | ready id =>
    obtain ⟨_, next⟩ := Option.ite_none_right_eq_some.mp next
    exact ok.raft next
  | request m | response m answer =>
    obtain ⟨_, next⟩ := Option.ite_none_right_eq_some.mp next
    obtain ⟨req, _, next⟩ := Option.bind_eq_some_iff.mp next
    exact ok.raft next
  | engine id event =>
    obtain ⟨member, next⟩ := Option.ite_none_right_eq_some.mp next
    exact ok.engine member served next
  | leaderChange id newLeader now =>
    obtain ⟨_, next⟩ := Option.ite_none_right_eq_some.mp next
    cases next
    exact ok.withCalls rfl ok.writeCalls ok.getCalls ok.puts rfl
  | beginWrite call =>
    obtain ⟨_, next⟩ := Option.ite_none_right_eq_some.mp next
    exact ok.beginWrite served next
  | propose i answered => exact ok.propose next
  | beginGet id key now =>
    obtain ⟨member, next⟩ := Option.ite_none_right_eq_some.mp next
    exact ok.beginGet member next
  | recheck i => exact ok.recheck next
  | requestRead i => exact ok.requestRead next
  | confirm id =>
    obtain ⟨_, next⟩ := Option.ite_none_right_eq_some.mp next
    exact ok.confirm next
  | cancel i => exact ok.cancel next
  | read i => exact ok.read served next

end

theorem Reachable.ok (reachable : Reachable ms sizing Served w) : w.OK ms := by
  obtain ⟨w₀, init, run⟩ := reachable
  exact run.invariant (.initial init) fun _ _ _ ok served next => ok.step served next

instance (w : Service) : DecidablePred w.Served := by
  rintro ⟨⟩ <;> delta Served <;> infer_instance

end Service

/-! ## Reads -/

/-- In every run in which the nodes that answer have caught up, a read returns the value
of a put that was done before it was called, or that of a later write to the key. -/
theorem read_current {ms : Membership} {sizing : Storage.Bloom.Sizing} {w : Service}
    (reachable : Service.Reachable ms sizing Service.Served w) {a : Answer}
    (answered : a ∈ w.answers) {p : PutRecord} (before : p ∈ a.before)
    (sameKey : p.key = a.key) : w.Current p a :=
  (reachable.ok.answers a answered).2 p before sameKey

/-- A service that has just been started. -/
def fresh (ms : Membership) : Service where
  cluster := .fresh ms
    { system := .start {}, draws := fun _ => some { coins := [], ts := 1, seq := 1 } }

theorem fresh_initial (ms : Membership) (ticks : ∀ id ∈ ms.ids, 0 < (ms.config id).electionTick) :
    (fresh ms).Initial ms where
  cluster := Cluster.fresh_initial ms _ ticks
  engines := fun _ _ => ⟨{}, rfl⟩
  writeCalls := rfl
  getCalls := rfl
  puts := rfl
  answers := rfl

/-- A put of the key on "a". -/
def putOne : List Service.Event :=
  [.beginWrite { id := "a", key := [107], value := some [49] }, .propose 0 true]

/-- A read of the key on "a". -/
def getAnswer : List Service.Event :=
  [.beginGet "a" [107] 0, .recheck 0, .requestRead 0, .confirm "a", .read 0]

/-- The record of that put, which stands behind the first entry of the leader. -/
def putRecord : PutRecord where
  id := "a"
  key := [107]
  value := [49]
  entry := some { index := 2, term := 1, data := newPutCommand [107] [49] }

/-- A cluster of one node. -/
def single : Membership :=
  .eager ["a"] (by decide)

/-- A node without peers commits its entries and applies them at once. -/
theorem read_current_single : ∃ w a p, Service.Reachable single .decimal Service.Served w ∧
    a ∈ w.answers ∧ p ∈ a.before ∧ p.key = a.key ∧ a.result = some [49] ∧ w.Current p a := by
  let a : Answer := { id := "a", key := [107], before := [putRecord], result := some [49] }
  obtain ⟨w, run, answers⟩ := Runs.exists_of_exec (Service.step single .decimal) Service.Served
    (fresh single) ([.tick "a", .ready "a"] ++ putOne ++ getAnswer)
    (P := fun w => w.answers = [a]) (by decide +kernel)
  have reachable : Service.Reachable single .decimal Service.Served w :=
    ⟨_, fresh_initial single (by decide), run⟩
  have answered : a ∈ w.answers := by
    rw [answers]
    exact mem_singleton_self a
  have before : putRecord ∈ a.before := mem_singleton_self _
  exact ⟨w, a, _, reachable, answered, before, rfl, rfl,
    read_current reachable answered before rfl⟩

/-- "b" elects "a" by a remote call. -/
def electByCall : List Service.Event :=
  let ask : Message := { type := .vote, toID := "b", fromID := "a", term := 1 }
  let grant : Message :=
    { type := .voteRsp, toID := "a", fromID := "b", term := 1, voteGranted := true }
  [.tick "a", .ready "a", .request ask, .ready "b", .response ask grant, .ready "a"]

/-- A put returns before any other node knows of it.  A read that is called after that finds
nothing, though nothing follows the put in any log. -/
theorem read_stale : ∃ w a p entry,
    Service.Reachable Raft.trio .decimal (fun _ _ => True) w ∧ a ∈ w.answers ∧ p ∈ a.before ∧
      p.key = a.key ∧ p.entry = some entry ∧ a.result = none ∧
      ∀ id ∈ Raft.trio.ids, ∀ later ∈ (w.cluster.nodes id).raft.log.entries,
        later.index ≤ entry.index := by
  let entry : LogEntry := { index := 2, term := 1, data := newPutCommand [107] [49] }
  let a : Answer := { id := "a", key := [107], before := [putRecord], result := none }
  obtain ⟨w, run, answers, last⟩ := Runs.exists_of_exec (Service.step Raft.trio .decimal)
    (fun _ _ => True) (fresh Raft.trio) (electByCall ++ putOne ++ getAnswer)
    (P := fun w => w.answers = [a] ∧ ∀ id ∈ Raft.trio.ids,
      ∀ later ∈ (w.cluster.nodes id).raft.log.entries, later.index ≤ entry.index)
    (by decide +kernel)
  refine ⟨w, a, putRecord, entry, ⟨_, fresh_initial _ (by decide), run⟩, ?_,
    mem_singleton_self _, rfl, rfl, rfl, last⟩
  rw [answers]
  exact mem_singleton_self a

end Hermes.Server
