import Hermes.Storage.LastWrite

/-!
# Reads at a timestamp

`GetAtTimestamp` is to return what the last write up to a timestamp has left, whatever came
later.  A memtable keeps one version of a key, though: a write replaces the version that is
there, and a flush takes versions out of memory that the tables on disk do not answer.  The
timestamp zero asks for the latest version instead.  So reads are right as long as no version
gets lost that older memtables do not stand in for.
-/

namespace Hermes.Storage

open Clock (HLCTimestamp)
open Bloom List Memtable Option SSTable

/-! ## The history -/

/-- The timestamp of a write. -/
def Event.timestamp : Event → Option HLCTimestamp
  | .put _ _ _ ts _ => some ts
  | .delete _ _ ts _ => some ts
  | _ => none

/-- The timestamps of the writes among some events. -/
def timestamps (events : List Event) : List HLCTimestamp :=
  events.filterMap Event.timestamp

theorem timestamps_append (events : List Event) (event : Event) :
    timestamps (events ++ [event]) = timestamps events ++ event.timestamp.toList := by
  unfold timestamps
  cases stamp : event.timestamp <;> simp [stamp]

/-- The value of the last put to a key up to a timestamp, if the last write to it up to then
was one. -/
def lastWriteAt (ts : HLCTimestamp) (events : List Event) : Key → Option Bytes :=
  lastWrite (events.filter fun event => event.timestamp.all (· ≤ ts))

theorem lastWriteAt_append (ts : HLCTimestamp) (events : List Event) (event : Event) :
    lastWriteAt ts (events ++ [event]) =
      if event.timestamp.all (· ≤ ts) then event.write (lastWriteAt ts events)
      else lastWriteAt ts events := by
  unfold lastWriteAt
  rw [filter_append, filter_singleton]
  cases event.timestamp.all (· ≤ ts) with
  | true =>
    rw [lastWrite, foldl_append]
    rfl
  | false => rw [if_neg Bool.false_ne_true, cond_false, append_nil]

/-! ## Versions in memory -/

/-- The entry of a key in the first of several tables whose entry is not too new. -/
def lookupAt (ts : HLCTimestamp) (tables : List Table) (key : Key) : Option Entry :=
  tables.findSome? fun t => t.list.getAtTimestamp key ts

section Lookup

variable (ts : HLCTimestamp) (key : Key)

theorem lookupAt_cons (t : Table) (tables : List Table) :
    lookupAt ts (t :: tables) key = (t.list.getAtTimestamp key ts).or (lookupAt ts tables key) := by
  unfold lookupAt
  rw [findSome?_cons]
  cases t.list.getAtTimestamp key ts <;> rfl

theorem lookupAt_append (tables others : List Table) :
    lookupAt ts (tables ++ others) key = (lookupAt ts tables key).or (lookupAt ts others key) :=
  findSome?_append

end Lookup

variable {t : Table} {key : Key} {entry : Entry} {ts : HLCTimestamp}

/-- The version in a table counts if it is not too new. -/
theorem getAtTimestamp_of_le (found : t.list.get key = some entry)
    (early : entry.timestamp ≤ ts) : t.list.getAtTimestamp key ts = some entry := by
  unfold SkipList.getAtTimestamp
  rw [found]
  exact if_neg (Std.not_lt.mpr early)

theorem getAtTimestamp_of_lt (found : t.list.get key = some entry)
    (late : ts < entry.timestamp) : t.list.getAtTimestamp key ts = none := by
  unfold SkipList.getAtTimestamp
  rw [found]
  exact if_pos late

theorem getAtTimestamp_of_none (absent : t.list.get key = none) :
    t.list.getAtTimestamp key ts = none := by
  unfold SkipList.getAtTimestamp
  rw [absent]

theorem lookupAt_eq_lookup {tables : List Table}
    (early : ∀ t ∈ tables, ∀ entry, t.list.get key = some entry → entry.timestamp ≤ ts) :
    lookupAt ts tables key = lookup tables key := by
  induction tables with
  | nil => rfl
  | cons t rest ih =>
    rw [lookupAt_cons, lookup_cons, ih fun t mem => early t (mem_cons_of_mem _ mem)]
    cases found : t.list.get key with
    | none => rw [getAtTimestamp_of_none found]
    | some entry => rw [getAtTimestamp_of_le found (early t mem_cons_self entry found)]

/-- Every version in a table is newer than the version of its key in another table. -/
def Newer (t t' : Table) : Prop :=
  ∀ key entry entry', t.list.get key = some entry → t'.list.get key = some entry' →
    entry'.timestamp < entry.timestamp

/-- The version of a key in the newest table does not matter if the older ones show the same. -/
theorem visible_lookupAt_cons {table : Table} {older : List Table} (ts : HLCTimestamp)
    (newest : ∀ t ∈ older, Newer table t)
    (shown : ∀ entry, table.list.get key = some entry →
      entry.visible = (lookup older key).bind Entry.visible) :
    (lookupAt ts (table :: older) key).bind Entry.visible
      = (lookupAt ts older key).bind Entry.visible := by
  rw [lookupAt_cons]
  cases found : table.list.get key with
  | none => rw [getAtTimestamp_of_none found, none_or]
  | some entry =>
    by_cases early : entry.timestamp ≤ ts
    · have latest : lookupAt ts older key = lookup older key := by
        apply lookupAt_eq_lookup
        intro t mem entry' found'
        have lower := newest t mem key entry entry' found found'
        exact Std.le_of_lt (Std.lt_of_lt_of_le lower early)
      rw [getAtTimestamp_of_le found early, latest]
      exact shown entry found
    · rw [getAtTimestamp_of_lt found (Std.not_le.mp early), none_or]

/-- The memtables, the newest first, answer for a history at every timestamp. -/
structure Versions (memory : List Table) (events : List Event) : Prop where
  answers : ∀ key ts, (lookupAt ts memory key).bind Entry.visible = lastWriteAt ts events key
  ordered : memory.Pairwise Newer
  stamped : ∀ t ∈ memory, ∀ key entry, t.list.get key = some entry →
    entry.timestamp ∈ timestamps events

variable {event : Event}

namespace Versions

variable {memory older newer : List Table} {events : List Event} {table : Table}

/-- An event that is not a write leaves everything as it is. -/
theorem other (versions : Versions memory events) (event : Event)
    (noWrite : event.timestamp = none) : Versions memory (events ++ [event]) where
  answers := by
    intro key ts
    have same : event.write (lastWriteAt ts events) = lastWriteAt ts events := by
      cases event <;> first | rfl | nomatch noWrite
    rw [versions.answers, lastWriteAt_append, same, ite_self]
  ordered := versions.ordered
  stamped := by
    intro t mem key entry found
    rw [timestamps_append]
    exact mem_append_left _ (versions.stamped t mem key entry found)

/-- A new memtable has no versions. -/
theorem fresh (versions : Versions memory events) (id : ℕ) :
    Versions ({ id := id } :: memory) events where
  answers := by
    intro key ts
    exact versions.answers key ts
  ordered := pairwise_cons.mpr ⟨fun _ _ _ _ _ found => (nomatch found), versions.ordered⟩
  stamped := by
    intro t mem key entry found
    rcases mem_cons.mp mem with rfl | mem
    · nomatch found
    · exact versions.stamped t mem key entry found

/-- A table may go if the older ones show the same for each of its keys. -/
theorem drop (versions : Versions (newer ++ table :: older) events)
    (shown : ∀ key entry, table.list.get key = some entry →
      entry.visible = (lookup older key).bind Entry.visible) :
    Versions (newer ++ older) events where
  answers := by
    intro key ts
    have behind := (pairwise_append.mp versions.ordered).2.1
    rw [← versions.answers key ts, lookupAt_append, lookupAt_append]
    cases lookupAt ts newer key with
    | some entry => rfl
    | none =>
      exact (visible_lookupAt_cons ts (pairwise_cons.mp behind).1 (shown key)).symm
  ordered :=
    versions.ordered.sublist ((Sublist.refl newer).append (sublist_cons_self _ _))
  stamped := by
    intro t mem
    apply versions.stamped
    rcases mem_append.mp mem with front | back
    · exact mem_append_left _ front
    · exact mem_append_right _ (mem_cons_of_mem _ back)

/-- A write replaces the version of its key in the newest table.  It is right if the older
tables show the same as the replaced version, and if its timestamp is the highest. -/
theorem write {active : Table} (versions : Versions (active :: older) events)
    (entry : Entry) (got : ∀ k, table.list.get k =
      if k = entry.key then some entry else active.list.get k)
    (stamp : event.timestamp = some entry.timestamp)
    (effect : ∀ contents, event.write contents = Function.update contents entry.key entry.visible)
    (highest : ∀ t ∈ timestamps events, t < entry.timestamp)
    (shown : ∀ old, active.list.get entry.key = some old →
      old.visible = (lookup older entry.key).bind Entry.visible) :
    Versions (table :: older) (events ++ [event]) where
  answers := by
    intro key ts
    have counted : event.timestamp.all (· ≤ ts) ↔ entry.timestamp ≤ ts := by
      simp [stamp]
    simp only [lastWriteAt_append, counted]
    by_cases same : key = entry.key
    · have found : table.list.get key = some entry := by
        rw [got, if_pos same]
      rw [lookupAt_cons]
      by_cases early : entry.timestamp ≤ ts
      · rw [if_pos early, effect, same, Function.update_self, ← same,
          getAtTimestamp_of_le found early]
        rfl
      · rw [if_neg early, getAtTimestamp_of_lt found (Std.not_le.mp early), ← versions.answers]
        refine (visible_lookupAt_cons ts (pairwise_cons.mp versions.ordered).1 ?_).symm
        rw [same]
        exact shown
    · have kept : table.list.getAtTimestamp key ts = active.list.getAtTimestamp key ts := by
        unfold SkipList.getAtTimestamp
        rw [got, if_neg same]
      rw [lookupAt_cons, kept, ← lookupAt_cons, versions.answers, effect]
      split
      · rw [Function.update_of_ne same]
      · rfl
  ordered := by
    obtain ⟨newest, ordered⟩ := pairwise_cons.mp versions.ordered
    refine pairwise_cons.mpr ⟨fun t mem key newer entry' found found' => ?_, ordered⟩
    rw [got] at found
    split at found
    · cases found
      exact highest _ (versions.stamped t (mem_cons_of_mem _ mem) key entry' found')
    · exact newest t mem key newer entry' found found'
  stamped := by
    intro t mem key entry' found
    rw [timestamps_append, stamp]
    rcases mem_cons.mp mem with rfl | mem
    · rw [got] at found
      split at found
      · cases found
        exact mem_concat_self
      · exact mem_append_left _
          (versions.stamped active mem_cons_self key entry' found)
    · exact mem_append_left _
        (versions.stamped t (mem_cons_of_mem _ mem) key entry' found)

end Versions

/-! ## The condition -/

namespace System

/-- The older memtables show the same for a key as the version of it in the active one. -/
def WriteKeeps (s : System) (key : Key) : Prop :=
  ∀ entry ∈ s.engine.memTable.list.get key,
    entry.visible = (lookup s.engine.immutable.reverse key).bind Entry.visible
  deriving Decidable

/-- The older memtables show the same as a table for each of its keys.  The empty key, which
the tables on disk may answer, is not among them. -/
def FlushKeepsVersions (s : System) (table : Table) : Prop :=
  ∀ entry ∈ table.list.all, entry.key ≠ [] ∧
    entry.visible = (lookup (s.engine.olderThan table) entry.key).bind Entry.visible
  deriving Decidable

/-- The condition on a step: no version gets lost that the older memtables do not stand in
for, and a compaction finds its level empty. -/
def KeepsVersions (s : System) : Event → Prop
  | .put key _ _ _ _ => s.WriteKeeps key
  | .delete key _ _ _ => s.WriteKeeps key
  | .finishFlush _ => ∀ table ∈ s.flushing.toList, s.FlushKeepsVersions table
  | .startCompaction => s.Keeps .startCompaction
  | .startFlush => True
  | .finishCompaction _ => True

instance (s : System) : DecidablePred s.KeepsVersions := by
  rintro ⟨⟩ <;> delta KeepsVersions <;> infer_instance

/-! ## Runs -/

variable {s s' : System} {events : List Event} {contents : Key → Option Bytes} {sizing : Sizing}

theorem Represents.keeps (represents : s.Represents contents) (keeps : s.KeepsVersions event) :
    s.Keeps event := by
  cases event with
  | put | delete | startFlush | finishCompaction => trivial
  | startCompaction => exact keeps
  | finishFlush now =>
    intro table taken entry mem
    obtain ⟨named, shown⟩ := keeps table taken entry mem
    have taken : s.flushing = some table := mem_toList.mp taken
    refine ⟨?_, fun empty => absurd empty named⟩
    rcases Engine.memory_dropTable fun _ => represents.numbered.of_flushing taken with
      unchanged | ⟨newer, before, after⟩
    · rw [unchanged]
    · rw [before, after, lookup_append, lookup_append, lookup_cons,
        SkipList.mem_all.mp mem]
      cases lookup newer entry.key with
      | some _ => rfl
      | none => exact shown.symm

/-- What holds in a run that loses no version. -/
structure Versioned (s : System) (events : List Event) : Prop where
  represents : s.Represents (lastWrite events)
  versions : Versions s.engine.memory events
  named : ∀ m ∈ s.tablesOf 0, m.minKey ≠ []

theorem start_versioned (config : Config) : (start config).Versioned [] where
  represents := start_represents config
  versions :=
    { answers := fun _ _ => rfl
      ordered := pairwise_singleton _ _
      stamped := by
        intro t mem key entry found
        rw [mem_singleton.mp mem] at found
        nomatch found }
  named := nofun

section

variable (versioned : s.Versioned events)

include versioned

theorem Versioned.write {e' : Engine} {value : Bytes} {deleted : Bool} {coins : List Bool}
    {seq : ℕ} (represents : { s with engine := e' }.Represents (lastWrite (events ++ [event])))
    (written : s.engine.putWithTimestamp key value deleted coins ts seq = .ok e')
    (keeps : s.WriteKeeps key) (stamp : event.timestamp = some ts)
    (effect : ∀ contents, event.write contents
      = Function.update contents key (if deleted then none else some value))
    (highest : ∀ t ∈ timestamps events, t < ts) :
    { s with engine := e' }.Versioned (events ++ [event]) := by
  obtain ⟨table, -, got, result⟩ := Engine.putWithTimestamp_spec written
  have versions : Versions (table :: s.engine.immutable.reverse) (events ++ [event]) := by
    refine versioned.versions.write (Engine.writtenEntry key value deleted ts seq) got stamp ?_
      highest keeps
    intro contents
    rw [effect, Engine.visible_writtenEntry]
    rfl
  rcases result with rfl | rfl
  · exact ⟨represents, versions, versioned.named⟩
  · refine ⟨represents, ?_, versioned.named⟩
    rw [Engine.memory, reverse_append]
    exact versions.fresh _

theorem Versioned.finishFlush {now : ℕ} (keeps : s.KeepsVersions (.finishFlush now))
    (next : s.finishFlush sizing now = some s') :
    Versions s'.engine.memory events ∧ ∀ m ∈ s'.tablesOf 0, m.minKey ≠ [] := by
  obtain ⟨table, taken, rfl | ⟨m, file, -, -, -, -, known, rfl⟩⟩ := finishFlush_eq_some next
  · exact ⟨versioned.versions, versioned.named⟩
  · have waiting : table ∈ s.flushing.toList := by
      rw [taken]
      exact mem_singleton_self table
    constructor
    · rw [flushed_memory]
      rcases Engine.memory_dropTable fun _ => versioned.represents.numbered.of_flushing taken with
        unchanged | ⟨newer, before, after⟩
      · rw [unchanged]
        exact versioned.versions
      · have versions := versioned.versions
        rw [before] at versions
        rw [after]
        apply versions.drop
        intro key entry found
        have same := SkipList.key_of_get found
        subst same
        exact (keeps table waiting entry (SkipList.mem_all.mpr found)).2
    · intro m' mem
      rcases mem_tablesOf_flushed versioned.represents.levels mem with old | rfl
      · exact versioned.named m' old
      · exact known fun entry mem => (keeps table waiting entry mem).1

theorem Versioned.step (increasing : (timestamps (events ++ [event])).Pairwise (· < ·))
    (keeps : s.KeepsVersions event) (next : s.step sizing event = some s') :
    s'.Versioned (events ++ [event]) := by
  have represents : s'.Represents (lastWrite (events ++ [event])) := by
    rw [lastWrite, foldl_append]
    exact versioned.represents.step (versioned.represents.keeps keeps) next
  have highest : ∀ ts, event.timestamp = some ts → ∀ t ∈ timestamps events, t < ts := by
    intro ts stamp t mem
    rw [timestamps_append, stamp] at increasing
    exact (pairwise_append.mp increasing).2.2 t mem ts (mem_singleton_self ts)
  cases event with
  | put key value coins ts seq | delete key coins ts seq =>
    simp only [System.step, map_eq_some_iff, toOption_eq_some] at next
    obtain ⟨e', written, rfl⟩ := next
    exact versioned.write represents written keeps rfl (fun _ => rfl) (highest ts rfl)
  | startFlush =>
    obtain ⟨table, rest, rfl, -⟩ := startFlush_eq_some next
    exact ⟨represents, versioned.versions.other .startFlush rfl, versioned.named⟩
  | finishFlush now =>
    obtain ⟨versions, named⟩ := versioned.finishFlush keeps next
    exact ⟨represents, versions.other _ rfl, named⟩
  | startCompaction =>
    have versions := versioned.versions.other .startCompaction rfl
    obtain ⟨level, rest, -, -, rfl | ⟨-, rfl⟩⟩ := startCompaction_eq_some next
    · exact ⟨represents, versions, versioned.named⟩
    · exact ⟨represents, versions, versioned.named⟩
  | finishCompaction now =>
    simp only [System.step, System.finishCompaction, versioned.represents.idle] at next
    cases next

end

theorem Run.versioned {config : Config}
    (run : Run sizing System.KeepsVersions (start config) events s)
    (increasing : (timestamps events).Pairwise (· < ·)) : s.Versioned events := by
  induction run with
  | nil => exact start_versioned config
  | @snoc events s s' event run keeps next ih =>
    have earlier : (timestamps events).Pairwise (· < ·) := by
      rw [timestamps_append] at increasing
      exact (pairwise_append.mp increasing).1
    exact (ih earlier).step increasing keeps next

end System

/-- In every run whose timestamps increase and whose steps lose no version, a read at a
timestamp returns the value of the last write up to it. -/
theorem getAtTimestamp_eq_lastWriteAt (sizing : Sizing) (config : Config) {events : List Event}
    {s : System} (run : System.Run sizing System.KeepsVersions (System.start config) events s)
    (increasing : (timestamps events).Pairwise (· < ·)) (key : Key) {ts : HLCTimestamp}
    (named : ts ≠ 0) :
    s.engine.getAtTimestamp s.files key ts = .ok (lastWriteAt ts events key) := by
  have versioned := run.versioned increasing
  have answer := versioned.versions.answers key ts
  have nothing : s.engine.readFromDisk s.files key = .ok none :=
    versioned.represents.readFromDisk_eq_none fun _ => versioned.named
  unfold Engine.getAtTimestamp
  simp only [versioned.represents.opened, if_neg named, nothing]
  rw [← lookupAt]
  cases found : lookupAt ts s.engine.memory key with
  | some entry | none =>
    rw [found] at answer
    exact congrArg Except.ok answer

/-- Two versions of a key in different memtables, of which none has been flushed. -/
theorem getAtTimestamp_eq_lastWriteAt_rotated :
    ∃ s, System.Run .decimal System.KeepsVersions (System.start tiny)
        [.put [107] [49] [] 1 1, .put [107] [50] [] 2 2] s ∧
      s.engine.getAtTimestamp s.files [107] 1 = .ok (some [49]) := by
  have runs : (Runs.exec (System.step .decimal) System.KeepsVersions (System.start tiny)
      [.put [107] [49] [] 1 1, .put [107] [50] [] 2 2]).isSome := by
    decide +kernel
  obtain ⟨s, exec⟩ := isSome_iff_exists.mp runs
  have run := System.run_of_exec .nil exec
  refine ⟨s, run, ?_⟩
  exact getAtTimestamp_eq_lastWriteAt .decimal tiny run (by decide) [107] (by decide)

/-- A key is put twice in one memtable, and the first value is gone for every timestamp. -/
theorem getAtTimestamp_ne_lastWriteAt_overwritten :
    ∃ events s, System.Run .decimal (fun _ _ => True) (System.start {}) events s ∧
      (timestamps events).Pairwise (· < ·) ∧ lastWriteAt 1 events [107] = some [49] ∧
      s.engine.getAtTimestamp s.files [107] 1 = .ok none := by
  let events : List Event := [.put [107] [49] [] 1 1, .put [107] [50] [] 2 2]
  obtain ⟨s, exec, read⟩ : ∃ s, Runs.exec (System.step .decimal) (fun _ _ => True)
      (System.start {}) events = some s ∧
      s.engine.getAtTimestamp s.files [107] 1 = .ok none := by
    decide +kernel
  exact ⟨events, s, System.run_of_exec .nil exec, by decide, by decide +kernel, read⟩

end Hermes.Storage
