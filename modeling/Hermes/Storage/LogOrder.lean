import Hermes.Data.Overlay
import Hermes.Storage.Command
import Hermes.Storage.LastWrite
import Hermes.Storage.Wal.Reopening

/-!
# The order of the log and the order of the memtable

A write goes to the write-ahead log first, which numbers it, and then into the memtable.
Nothing keeps the two together: of two writes to one key, the one with the lower number may
come into the memtable last and stay there, while a replay of the log ends with the other.
The orders agree if no write overtakes an earlier one to its key.
-/

namespace Hermes.Storage

open Clock (HLCTimestamp)
open List Memtable Option Overlay
open Wal (WAL WALEntry Dir defaultSegmentSize)

/-! ## Replaying the log -/

/-- What `replayWAL` does with an entry of the log. -/
def replayEntry (coins : List Bool) (sl : Memtable.SkipList) (entry : WALEntry) :
    Memtable.SkipList :=
  let (key, value, deleted) := decodeCommand entry.data
  if deleted then sl.delete coins key entry.timestamp entry.sequence
  else sl.put coins key value entry.timestamp entry.sequence

/-- The memtable that `replayWAL` builds from the entries of the log. -/
def replayWAL (coins : WALEntry → List Bool) (entries : List WALEntry) :
    Memtable.SkipList :=
  entries.foldl (fun sl entry => replayEntry (coins entry) sl entry) {}

/-- The key of an entry of the log. -/
def loggedKey (entry : WALEntry) : Key :=
  (decodeCommand entry.data).1

/-- What an entry of the log becomes in a memtable. -/
def loggedEntry (entry : WALEntry) : Entry :=
  Engine.writtenEntry (loggedKey entry) (decodeCommand entry.data).2.1
    (decodeCommand entry.data).2.2 entry.timestamp entry.sequence

theorem get_replayEntry (coins : List Bool) (sl : Memtable.SkipList) (entry : WALEntry)
    (key : Key) :
    (replayEntry coins sl entry).get key =
      if key = loggedKey entry then some (loggedEntry entry) else sl.get key := by
  unfold replayEntry loggedEntry loggedKey
  obtain ⟨k, value, deleted⟩ := decodeCommand entry.data
  cases deleted with
  | true => exact Memtable.SkipList.get_delete k entry.timestamp entry.sequence key
  | false => exact Memtable.SkipList.get_put k value entry.timestamp entry.sequence key

theorem get_replayWAL (coins : WALEntry → List Bool) (entries : List WALEntry) (key : Key) :
    (replayWAL coins entries).get key =
      (entries.reverse.find? fun entry => key = loggedKey entry).map loggedEntry := by
  have loop : ∀ sl : Memtable.SkipList,
      (entries.foldl (fun sl entry => replayEntry (coins entry) sl entry) sl).get key =
        ((entries.reverse.find? fun entry => key = loggedKey entry).map loggedEntry).or
          (sl.get key) := by
    induction entries with
    | nil => exact fun _ => rfl
    | cons entry rest ih =>
      intro sl
      rw [foldl_cons, ih, get_replayEntry, reverse_cons, find?_append]
      cases rest.reverse.find? fun entry => key = loggedKey entry with
      | some _ => rfl
      | none =>
        by_cases same : key = loggedKey entry
        · simp [same]
        · simp [same]
  exact (loop {}).trans (or_none ..)

/-! ## Writers -/

/-- A call of `Put` or `Delete` whose write is in the log. -/
structure Call where
  key : Key
  value : Bytes
  deleted : Bool
  /-- What `WAL.Write` has returned. -/
  entry : WALEntry
  deriving DecidableEq, Repr

/-- An engine with its log and the calls that have not come to the memtable yet. -/
structure Writers where
  engine : Engine
  wal : WAL
  dir : Dir
  /-- History: the entries that `WAL.Write` has returned, in this order. -/
  log : List WALEntry := []
  waiting : List Call := []

namespace Writers

inductive Event where
  /-- The first half of a call: `WAL.Write`, with the timestamp that the clock returns. -/
  | write (key : Key) (value : Bytes) (deleted : Bool) (ts : HLCTimestamp)
  /-- The second half: the memtable takes the entry. -/
  | insert (call : Call) (coins : List Bool)
  deriving DecidableEq, Repr

/-- The log after `Open` on an empty directory. -/
def freshWAL : WAL :=
  { active := Wal.Segment.started 1 defaultSegmentSize, nextSeq := 1 }

def freshDir : Dir :=
  Dir.append ∅ 1 (Wal.Segment.header 1).encode

/-- An engine that has been opened on an empty directory. -/
def start (config : Config) : Writers :=
  { engine := Engine.openEmpty config, wal := freshWAL, dir := freshDir }

/-- The log has taken the write of a call, which now waits for the memtable. -/
def enqueue (s : Writers) (w : WAL) (dir : Dir) (call : Call) : Writers :=
  { s with
    wal := w
    dir := dir
    log := s.log ++ [call.entry]
    waiting := s.waiting ++ [call] }

/-- One event, if it can happen.  A write that the log refuses returns its error.  Sequence
numbers of more than eight bytes are out of reach of any run. -/
def step (s : Writers) : Event → Option Writers
  | .write key value deleted ts =>
    if s.engine.closed ∨ ¬ s.wal.nextSeq + 1 < 2 ^ 64 then none
    else
      match s.wal.write s.dir (encodeCommand key value deleted) ts with
      | ((w, dir), .error _) => some { s with wal := w, dir := dir }
      | ((w, dir), .ok entry) => some (s.enqueue w dir ⟨key, value, deleted, entry⟩)
  | .insert call coins =>
    if call ∈ s.waiting then
      (s.engine.putWithTimestamp call.key call.value call.deleted coins call.entry.timestamp
        call.entry.sequence).toOption.map fun e =>
          { s with engine := e, waiting := s.waiting.erase call }
    else none

theorem openWAL_empty : WAL.openWAL ∅ = .ok (freshWAL, freshDir) := by
  rfl

variable {dir : Dir} {w : WAL}

/-- The numbers of a log after a write. -/
theorem nextSeq_of_write {w' : WAL} {dir' : Dir} {data : Bytes} {ts : HLCTimestamp}
    {result : Except Wal.WalError WALEntry} (session : Wal.Session w)
    (room : w.nextSeq + 1 < 2 ^ 64) (written : w.write dir data ts = ((w', dir'), result)) :
    w.nextSeq ≤ w'.nextSeq ∧ ∀ entry, result = .ok entry →
      entry = w.nextEntry data ts ∧ entry.sequence < w'.nextSeq ∧
        data.length ≤ defaultSegmentSize := by
  have used : ∀ {w₁ : WAL} {dir₁ : Dir} {err : Option Wal.WalError},
      WAL.writeToActive { w with nextSeq := w.nextSeq + 1 } dir (w.nextRecord data ts)
        = ((w₁, dir₁), err) → w₁.nextSeq = w.nextSeq + 1 :=
    fun put => (session.puts_of_writeToActive room put).nextSeq_eq
  cases WAL.writes_of_write written with
  | closed => exact ⟨le_rfl, nofun⟩
  | failed _ put => exact ⟨by rw [used put]; omega, nofun⟩
  | done _ put =>
    have next := used put
    refine ⟨by dsimp only; omega, ?_⟩
    rintro entry ⟨⟩
    refine ⟨rfl, by dsimp only [WAL.nextEntry]; omega, ?_⟩
    have encoded : data.length ≤ (w.nextRecord data ts).encode.length := by
      rw [Wal.Record.length_encode, WAL.nextRecord, Wal.encodeEntryData, length_append]
      omega
    cases session.puts_of_writeToActive room put with
    | active fits =>
      have small := session.maxSize ▸ Nat.le_of_add_left_le (not_lt.mp fits)
      exact encoded.trans small
    | rotated _ fits => exact encoded.trans (Nat.le_of_add_left_le fits)

/-! ## The condition -/

/-- The condition on a step: a call comes to the memtable only if no call with a lower number
for the same key is still waiting. -/
def InTurn (s : Writers) : Event → Prop
  | .write .. => True
  | .insert call _ => ∀ other ∈ s.waiting, other.key = call.key →
    call.entry.sequence ≤ other.entry.sequence

instance (s : Writers) : DecidablePred s.InTurn := by
  rintro ⟨⟩ <;> delta InTurn <;> infer_instance

/-! ## The invariant -/

/-- An entry of the log that has come to the memtable. -/
def Settled (s : Writers) (logged : WALEntry) : Prop :=
  logged ∈ s.log ∧ ∀ call ∈ s.waiting, call.entry ≠ logged

/-- What holds in every state of a run whose calls take their turns. -/
structure Ordered (s : Writers) : Prop where
  session : Wal.Session s.wal
  sound : Wal.Sound s.dir
  ascending : s.log.Pairwise fun a b => a.sequence < b.sequence
  below : ∀ logged ∈ s.log, logged.sequence < s.wal.nextSeq
  distinct : s.waiting.Nodup
  logged : ∀ call ∈ s.waiting, call.entry ∈ s.log ∧
    decodeCommand call.entry.data = (call.key, call.value, call.deleted)
  behind : ∀ call ∈ s.waiting, ∀ logged, s.Settled logged → loggedKey logged = call.key →
    logged.sequence < call.entry.sequence
  found : ∀ key entry, lookup s.engine.memory key = some entry → ∃ logged, s.Settled logged ∧
    loggedKey logged = key ∧ loggedEntry logged = entry ∧
    ∀ other, s.Settled other → loggedKey other = key → other.sequence ≤ logged.sequence
  present : ∀ logged, s.Settled logged → (lookup s.engine.memory (loggedKey logged)).isSome
  levels : s.engine.levels = List.replicate 7 []
  opened : s.engine.closed = false

variable {s s' : Writers}

theorem start_ordered (config : Config) : (start config).Ordered where
  session := Wal.Session.of_openWAL openWAL_empty rfl (by decide) (by decide)
  sound := Wal.Sound.empty.append (Wal.placed_header (by decide))
  ascending := .nil
  below := nofun
  distinct := .nil
  logged := nofun
  behind := nofun
  found := nofun
  present := fun _ settled => nomatch settled.1
  levels := rfl
  opened := rfl

/-- Entries of the log with the same number are the same. -/
theorem Ordered.eq_of_sequence (ordered : s.Ordered) {a b : WALEntry} (left : a ∈ s.log)
    (right : b ∈ s.log) (same : a.sequence = b.sequence) : a = b := by
  have distinct : (s.log.map WALEntry.sequence).Nodup :=
    pairwise_map.mpr (ordered.ascending.imp ne_of_lt)
  exact inj_on_of_nodup_map distinct left right same

theorem Ordered.refused (ordered : s.Ordered) (session : Wal.Session w) (sound : Wal.Sound dir)
    (later : s.wal.nextSeq ≤ w.nextSeq) : { s with wal := w, dir := dir }.Ordered :=
  { ordered with
    session := session
    sound := sound
    below := fun logged mem => (ordered.below logged mem).trans_le later }

variable {call : Call}

theorem settled_enqueue (lower : ∀ logged ∈ s.log, logged.sequence < call.entry.sequence)
    (logged : WALEntry) : (s.enqueue w dir call).Settled logged ↔ s.Settled logged := by
  constructor
  · rintro ⟨mem, others⟩
    rcases mem_append.mp mem with old | new
    · exact ⟨old, fun c waits => others c (mem_append_left _ waits)⟩
    · have same := mem_singleton.mp new
      exact absurd same.symm (others call mem_concat_self)
  · rintro ⟨mem, others⟩
    refine ⟨mem_append_left _ mem, fun c waits => ?_⟩
    rcases mem_append.mp waits with old | new
    · exact others c old
    · rw [mem_singleton.mp new]
      rintro rfl
      exact lt_irrefl _ (lower _ mem)

section

variable (ordered : s.Ordered)

include ordered

theorem Ordered.enqueue (session : Wal.Session w) (sound : Wal.Sound dir)
    (next : s.wal.nextSeq = call.entry.sequence) (later : call.entry.sequence < w.nextSeq)
    (decodes : decodeCommand call.entry.data = (call.key, call.value, call.deleted)) :
    (s.enqueue w dir call).Ordered := by
  have lower : ∀ logged ∈ s.log, logged.sequence < call.entry.sequence := by
    intro logged mem
    rw [← next]
    exact ordered.below logged mem
  have settled : ∀ logged, (s.enqueue w dir call).Settled logged ↔ s.Settled logged :=
    settled_enqueue lower
  refine ⟨session, sound, ?ascending, ?below, ?distinct, ?logged, ?behind, ?found, ?present,
    ordered.levels, ordered.opened⟩
  case ascending =>
    exact pairwise_append.mpr ⟨ordered.ascending, pairwise_singleton _ _,
      fun logged mem => forall_mem_singleton.mpr (lower logged mem)⟩
  case below =>
    rw [Writers.enqueue, forall_mem_append, forall_mem_singleton]
    exact ⟨fun logged old => lt_trans (lower logged old) later, later⟩
  case distinct =>
    refine nodup_append.mpr ⟨ordered.distinct, nodup_singleton _, ?_⟩
    intro c waits c' isNew same
    rw [same, mem_singleton.mp isNew] at waits
    exact lt_irrefl _ (lower _ (ordered.logged call waits).1)
  case logged =>
    rw [Writers.enqueue, forall_mem_append, forall_mem_singleton]
    exact ⟨fun c old => (ordered.logged c old).imp_left (mem_append_left _), mem_concat_self,
      decodes⟩
  case behind =>
    simp only [settled]
    rw [Writers.enqueue, forall_mem_append, forall_mem_singleton]
    exact ⟨ordered.behind, fun logged isSettled _ => lower logged isSettled.1⟩
  case found =>
    simp only [settled]
    exact ordered.found
  case present =>
    simp only [settled]
    exact ordered.present

/-- Calls that wait with the same entry of the log are the same. -/
theorem Ordered.eq_of_entry {other : Call} (waits : call ∈ s.waiting) (waits' : other ∈ s.waiting)
    (same : other.entry = call.entry) : other = call := by
  have decodes := (ordered.logged call waits).2
  have decodes' := (ordered.logged other waits').2
  cases call
  cases other
  simp_all

theorem Ordered.settled_erase (waits : call ∈ s.waiting) (e' : Engine) (logged : WALEntry) :
    Settled { s with engine := e', waiting := s.waiting.erase call } logged ↔
      s.Settled logged ∨ logged = call.entry := by
  have others : ∀ c, c ∈ s.waiting.erase call ↔ c ≠ call ∧ c ∈ s.waiting :=
    fun c => ordered.distinct.mem_erase_iff
  constructor
  · rintro ⟨mem, apart⟩
    by_cases isCall : logged = call.entry
    · exact .inr isCall
    · refine .inl ⟨mem, fun c waits' => ?_⟩
      by_cases same : c = call
      · rw [same]
        exact Ne.symm isCall
      · exact apart c ((others c).mpr ⟨same, waits'⟩)
  · rintro (⟨mem, apart⟩ | rfl)
    · exact ⟨mem, fun c waits' => apart c ((others c).mp waits').2⟩
    · refine ⟨(ordered.logged call waits).1, fun c waits' same => ?_⟩
      obtain ⟨different, waits'⟩ := (others c).mp waits'
      exact different (ordered.eq_of_entry waits waits' same)

theorem Ordered.insert {coins : List Bool} {e' : Engine}
    (waits : call ∈ s.waiting) (turn : s.InTurn (.insert call coins))
    (written : s.engine.putWithTimestamp call.key call.value call.deleted coins
      call.entry.timestamp call.entry.sequence = .ok e') :
    { s with engine := e', waiting := s.waiting.erase call }.Ordered := by
  obtain ⟨inLog, decodes⟩ := ordered.logged call waits
  have key : loggedKey call.entry = call.key := by
    rw [loggedKey, decodes]
  have entry : loggedEntry call.entry = Engine.writtenEntry call.key call.value call.deleted
      call.entry.timestamp call.entry.sequence := by
    rw [loggedEntry, key, decodes]
  have memory := Engine.lookup_putWithTimestamp written
  have settled := ordered.settled_erase waits e'
  obtain ⟨levels, closed⟩ := Engine.levels_putWithTimestamp written
  refine ⟨ordered.session, ordered.sound, ordered.ascending, ordered.below,
    ordered.distinct.erase call, ?logged, ?behind, ?found, ?present,
    levels.trans ordered.levels, closed.trans ordered.opened⟩
  case logged =>
    exact fun c waits' => ordered.logged c (mem_of_mem_erase waits')
  case behind =>
    intro c waits' logged isSettled sameKey
    obtain ⟨different, waits'⟩ := ordered.distinct.mem_erase_iff.mp waits'
    rcases (settled logged).mp isSettled with before | rfl
    · exact ordered.behind c waits' logged before sameKey
    · refine lt_of_le_of_ne (turn c waits' (sameKey.symm.trans key)) fun same => ?_
      have entries := ordered.eq_of_sequence (ordered.logged c waits').1 inLog same.symm
      exact different (ordered.eq_of_entry waits waits' entries)
  case found =>
    intro k found lookup_eq
    rw [memory] at lookup_eq
    by_cases same : k = call.key
    · rw [if_pos same, ← entry] at lookup_eq
      cases lookup_eq
      refine ⟨call.entry, (settled _).mpr (.inr rfl), key.trans same.symm, rfl, ?_⟩
      intro other isSettled sameKey
      rcases (settled other).mp isSettled with before | rfl
      · exact (ordered.behind call waits other before (sameKey.trans same)).le
      · exact le_rfl
    · rw [if_neg same] at lookup_eq
      obtain ⟨logged, before, sameKey, sameEntry, highest⟩ := ordered.found k found lookup_eq
      refine ⟨logged, (settled _).mpr (.inl before), sameKey, sameEntry, ?_⟩
      intro other isSettled otherKey
      rcases (settled other).mp isSettled with before | rfl
      · exact highest other before otherKey
      · exact absurd (otherKey.symm.trans key) same
  case present =>
    intro logged isSettled
    rw [memory]
    by_cases same : loggedKey logged = call.key
    · rw [if_pos same]
      rfl
    · rw [if_neg same]
      rcases (settled logged).mp isSettled with before | rfl
      · exact ordered.present logged before
      · exact absurd key same

theorem Ordered.step {event : Event} (turn : s.InTurn event) (next : s.step event = some s') :
    s'.Ordered := by
  cases event with
  | write key value deleted ts =>
    obtain ⟨possible, next⟩ := ite_none_left_eq_some.mp next
    have room : s.wal.nextSeq + 1 < 2 ^ 64 := by
      by_contra full
      exact possible (.inr full)
    obtain ⟨session, sound⟩ := ordered.session.write ordered.sound room
      (encodeCommand key value deleted) ts
    split at next
    · rename_i w dir _ written
      cases next
      rw [written] at session sound
      obtain ⟨later, -⟩ := nextSeq_of_write ordered.session room written
      exact ordered.refused session sound later
    · rename_i w dir entry written
      cases next
      rw [written] at session sound
      obtain ⟨-, ok⟩ := nextSeq_of_write ordered.session room written
      obtain ⟨rfl, later, small⟩ := ok entry rfl
      refine ordered.enqueue session sound rfl later (decodeCommand_encodeCommand deleted ?_)
      exact small.trans_lt (by decide)
  | insert call coins =>
    simp only [Writers.step] at next
    split at next
    · rename_i waits
      obtain ⟨e', written, rfl⟩ := map_eq_some_iff.mp next
      exact ordered.insert waits turn (toOption_eq_some.mp written)
    · nomatch next

/-! ## The order of the log -/

/-- The memory stands for the log: a read finds what a replay of the log would leave, and
under the key of every entry of the log one whose number is not lower. -/
structure InLogOrder (s : Writers) : Prop where
  replayed : ∀ coins key, lookup s.engine.memory key = (replayWAL coins s.log).get key
  highest : ∀ logged ∈ s.log, ∃ entry, lookup s.engine.memory (loggedKey logged) = some entry ∧
    logged.sequence ≤ entry.sequence
  read : ∀ key, s.engine.get ∅ key
    = .ok ((lookup s.engine.memory key).bind Entry.visible)

theorem Ordered.inLogOrder (returned : s.waiting = []) : s.InLogOrder := by
  have settled : ∀ logged ∈ s.log, s.Settled logged := by
    intro logged mem
    refine ⟨mem, fun call waits => ?_⟩
    rw [returned] at waits
    cases waits
  refine ⟨?replayed, ?highest, ?read⟩
  case replayed =>
    intro coins key
    rw [get_replayWAL]
    cases last : s.log.reverse.find? fun logged => key = loggedKey logged with
    | none =>
      cases found : lookup s.engine.memory key with
      | none => rfl
      | some entry =>
        obtain ⟨logged, ⟨mem, -⟩, rfl, -⟩ := ordered.found key entry found
        have absent := find?_eq_none.mp last logged (mem_reverse.mpr mem)
        exact absurd (decide_eq_true rfl) absent
    | some logged =>
      have mem := mem_reverse.mp (mem_of_find?_eq_some last)
      have sameKey : key = loggedKey logged := of_decide_eq_true (find?_some last :)
      have present := ordered.present logged (settled logged mem)
      obtain ⟨entry, found⟩ := isSome_iff_exists.mp present
      -- the settled entry of the highest number is the last one of its key
      obtain ⟨newest, ⟨inLog, -⟩, newestKey, rfl, highest⟩ := ordered.found _ entry found
      have below : newest.sequence ≤ logged.sequence :=
        rank_le_of_find?_reverse ordered.ascending last inLog
          (decide_eq_true (sameKey.trans newestKey.symm))
      have above := highest logged (settled logged mem) rfl
      rw [sameKey, found, ordered.eq_of_sequence inLog mem (le_antisymm below above)]
      rfl
  case highest =>
    intro logged mem
    obtain ⟨entry, found⟩ :=
      isSome_iff_exists.mp (ordered.present logged (settled logged mem))
    obtain ⟨newest, -, -, rfl, highest⟩ := ordered.found _ entry found
    exact ⟨_, found, highest logged (settled logged mem) rfl⟩
  case read =>
    intro key
    have nothing : s.engine.readFromDisk ∅ key = .ok none := by
      unfold Engine.readFromDisk
      rw [ordered.levels]
      exact Engine.readFromLevels_replicate ∅ key 6
    unfold Engine.get Engine.getAtTimestamp
    simp only [ordered.opened, nothing, ↓reduceIte]
    rw [← lookup]
    cases lookup s.engine.memory key <;> rfl

end

/-- In every interleaving in which no call overtakes one with a lower number for its key, the
memory stands for the log once all calls have returned. -/
theorem inLogOrder_of_inTurn {config : Config}
    (run : Runs.Reachable Writers.step Writers.InTurn (start config) s)
    (returned : s.waiting = []) : s.InLogOrder := by
  have ordered : s.Ordered :=
    run.invariant (I := Ordered) (start_ordered config) fun _ _ _ ordered turn next =>
      ordered.step turn next
  exact ordered.inLogOrder returned

/-- The call that writes a value with the given number and timestamp. -/
def callOf (value : Bytes) (seq : ℕ) (ts : HLCTimestamp) : Call :=
  { key := [107], value := value, deleted := false,
    entry := { sequence := seq, timestamp := ts, data := encodeCommand [107] value false } }

/-- Two puts to one key that come to the memtable as they came to the log. -/
theorem inLogOrder_of_inTurn_two :
    ∃ s, Runs.Reachable Writers.step Writers.InTurn (start {}) s ∧ s.log.length = 2 ∧
      s.InLogOrder := by
  obtain ⟨s, run, returned, length⟩ := Runs.exists_of_exec Writers.step Writers.InTurn (start {})
    [.write [107] [49] false 1, .write [107] [50] false 2, .insert (callOf [49] 1 1) [],
      .insert (callOf [50] 2 2) []]
    (P := fun s => s.waiting = [] ∧ s.log.length = 2) (by decide +kernel)
  exact ⟨s, run, length, inLogOrder_of_inTurn run returned⟩

/-- The second put comes to the memtable first: a read finds the value of the first one, and
a replay of the log leaves the value of the second one. -/
theorem not_inLogOrder_overtaken :
    ∃ s, Runs.Reachable Writers.step (fun _ _ => True) (start {}) s ∧ s.waiting = [] ∧
      s.engine.get ∅ [107] = .ok (some [49]) ∧
      ((replayWAL (fun _ => []) s.log).get [107]).bind Entry.visible = some [50] ∧
      ¬ s.InLogOrder := by
  obtain ⟨s, run, returned, read, replayed⟩ :=
    Runs.exists_of_exec Writers.step (fun _ _ => True) (start {})
    [.write [107] [49] false 1, .write [107] [50] false 2, .insert (callOf [50] 2 2) [],
      .insert (callOf [49] 1 1) []]
    (P := fun s => s.waiting = [] ∧ s.engine.get ∅ [107] = .ok (some [49]) ∧
      ((replayWAL (fun _ => []) s.log).get [107]).bind Entry.visible = some [50])
    (by decide +kernel)
  refine ⟨s, run, returned, read, replayed, fun ordered => ?_⟩
  have shown := ordered.read [107]
  rw [read, ordered.replayed (fun _ => []), replayed] at shown
  exact absurd shown (by decide)

end Writers

end Hermes.Storage
