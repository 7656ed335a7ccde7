import Hermes.Data.Runs
import Hermes.Storage.Engine

/-!
# Reading the last write

The engine stands for a map from keys to values: a read is to return what the last
write to its key has left, wherever the entry has moved since.  The tables on disk do
not fulfil this.  A reader of a table does not know the range of its keys and hence
finds none but the empty one, and the filter of a compaction has no bits.  So a flush
must not take the answer for a key out of memory, and no level with tables may be
compacted.  Under these conditions reads are right.
-/

namespace Hermes.Storage

open Clock (HLCTimestamp)
open AList Bloom Function List Memtable Option SSTable

/-- An engine with its files and its two workers. -/
structure System where
  engine : Engine
  files : Files := ∅
  /-- The memtable that the flush worker is writing. -/
  flushing : Option Table := none
  /-- The level that the compaction worker is merging, and the tables it has found there. -/
  compacting : Option (ℕ × List SSTableMeta) := none

inductive Event where
  | put (key : Key) (value : Bytes) (coins : List Bool) (ts : HLCTimestamp) (seq : ℕ)
  | delete (key : Key) (coins : List Bool) (ts : HLCTimestamp) (seq : ℕ)
  | startFlush
  | finishFlush (now : ℕ)
  | startCompaction
  | finishCompaction (now : ℕ)
  deriving DecidableEq, Repr

namespace System

/-- An engine that has been opened on an empty directory. -/
def start (config : Config) : System :=
  { engine := Engine.openEmpty config }

def startFlush (s : System) : Option System :=
  match s.flushing, s.engine.flushCh with
  | none, table :: rest =>
    some { s with engine := { s.engine with flushCh := rest }, flushing := some table }
  | _, _ => none

/-- A flush that fails leaves its table among the immutable ones; a panic ends the
process. -/
def finishFlush (sizing : Sizing) (s : System) (now : ℕ) : Option System :=
  match s.flushing with
  | none => none
  | some table =>
    match s.engine.flushMemTable sizing s.files table now with
    | .ok (e, files) => some { s with engine := e, files := files, flushing := none }
    | .error (.error _) => some { s with flushing := none }
    | .error (.panic _) => none

/-- The tables of a level. -/
def tablesOf (s : System) (level : ℕ) : List SSTableMeta :=
  s.engine.levels[level]?.getD []

def startCompaction (s : System) : Option System :=
  match s.compacting, s.engine.compactCh with
  | none, level :: rest =>
    let idle := { s with engine := { s.engine with compactCh := rest } }
    if level ≥ s.engine.levels.length - 1 then some idle
    else if s.tablesOf level = [] then some idle
    else some { idle with compacting := some (level, s.tablesOf level) }
  | _, _ => none

/-- A compaction that fails leaves an empty file. -/
def finishCompaction (sizing : Sizing) (s : System) (now : ℕ) : Option System :=
  match s.compacting with
  | none => none
  | some (level, tables) =>
    match s.engine.compact sizing s.files level tables now with
    | .ok (e, files) => some { s with engine := e, files := files, compacting := none }
    | .error (.error _) =>
      some { s with
        files := s.files.insert { level := level + 1, nanos := now } []
        compacting := none }
    | .error (.panic _) => none

def step (sizing : Sizing) (s : System) : Event → Option System
  | .put key value coins ts seq =>
    (s.engine.putWithTimestamp key value false coins ts seq).toOption.map fun e =>
      { s with engine := e }
  | .delete key coins ts seq =>
    (s.engine.putWithTimestamp key [] true coins ts seq).toOption.map fun e =>
      { s with engine := e }
  | .startFlush => s.startFlush
  | .finishFlush now => s.finishFlush sizing now
  | .startCompaction => s.startCompaction
  | .finishCompaction now => s.finishCompaction sizing now

/-- The runs from a state whose steps are all allowed. -/
inductive Run (sizing : Sizing) (allowed : System → Event → Prop) (s₀ : System) :
    List Event → System → Prop
  | nil : Run sizing allowed s₀ [] s₀
  | snoc {events : List Event} {s s' : System} {event : Event}
    (run : Run sizing allowed s₀ events s) (ok : allowed s event)
    (next : s.step sizing event = some s') : Run sizing allowed s₀ (events ++ [event]) s'

/-- `Get`. -/
def get (s : System) (key : Key) : Except EngineFault (Option Bytes) :=
  s.engine.get s.files key

end System

/-! ## The map -/

/-- What an event does to the map that the engine stands for. -/
def Event.write (contents : Key → Option Bytes) : Event → Key → Option Bytes
  | .put key value _ _ _ => Function.update contents key (some value)
  | .delete key _ _ _ => Function.update contents key none
  | _ => contents

/-- The value of the last put to a key, if the last write to it was one. -/
def lastWrite (events : List Event) : Key → Option Bytes :=
  events.foldl Event.write fun _ => none

/-! ## The condition -/

/-- A flush of a table keeps the answers of the memory if the other memtables answer
every key of the table as before.  The empty key, which the tables on disk may answer,
has to stay in memory. -/
def System.FlushKeeps (s : System) (table : Table) : Prop :=
  ∀ entry ∈ table.list.all,
    (lookup (s.engine.dropTable table).memory entry.key).bind Entry.visible
        = (lookup s.engine.memory entry.key).bind Entry.visible ∧
      (entry.key = [] → (lookup (s.engine.dropTable table).memory entry.key).isSome)
  deriving Decidable

/-- The condition on a step: a flush keeps the answers of the memory, and a compaction
finds its level empty. -/
def System.Keeps (s : System) : Event → Prop
  | .finishFlush _ => ∀ table ∈ s.flushing.toList, s.FlushKeeps table
  | .startCompaction => ∀ level ∈ s.engine.compactCh.head?.toList, s.tablesOf level = []
  | _ => True

instance (s : System) : DecidablePred s.Keeps := by
  rintro ⟨⟩ <;> delta System.Keeps <;> infer_instance

/-! ## The invariant -/

namespace System

/-- The tables that a step may take out of memory, or have taken from there. -/
def rotated (s : System) : List Table :=
  s.engine.immutable ++ (s.engine.flushCh ++ s.flushing.toList)

/-- The numbers of the memtables identify them, and the active one has the highest. -/
structure Numbered (s : System) : Prop where
  older : ∀ t ∈ s.rotated, t.id < s.engine.memTable.id
  same : ∀ t ∈ s.rotated, ∀ t' ∈ s.rotated, t.id = t'.id → t = t'

/-- The state of a system that stands for a map: the memory has all the answers, and the
tables on disk have none. -/
structure Represents (s : System) (contents : Key → Option Bytes) : Prop where
  answers : ∀ key, (lookup s.engine.memory key).bind Entry.visible = contents key
  opened : s.engine.closed = false
  numbered : s.Numbered
  levels : ∃ level0, s.engine.levels = level0 :: List.replicate 6 []
  listed : ∀ m ∈ s.tablesOf 0, ∃ file, s.files.lookup m.path = some file ∧ Finished m file
  emptyKey : (lookup s.engine.memory []).isSome ∨ ∀ m ∈ s.tablesOf 0, m.minKey ≠ []
  idle : s.compacting = none

variable {s s' : System} {contents : Key → Option Bytes}

theorem tablesOf_congr (levels : s'.engine.levels = s.engine.levels) (level : ℕ) :
    s'.tablesOf level = s.tablesOf level := by
  unfold tablesOf
  rw [levels]

theorem Numbered.mono (numbered : s.Numbered) (kept : ∀ t ∈ s'.rotated, t ∈ s.rotated)
    (sameID : s'.engine.memTable.id = s.engine.memTable.id) : s'.Numbered where
  older := by
    intro t mem
    rw [sameID]
    exact numbered.older t (kept t mem)
  same := fun t mem t' mem' => numbered.same t (kept t mem) t' (kept t' mem')

variable {table : Table}

/-- The active memtable may join the others when a new one takes its place. -/
theorem Numbered.rotate (numbered : s.Numbered) (sameID : table.id = s.engine.memTable.id)
    (fresh : s'.engine.memTable.id = s.engine.memTable.id + 1)
    (kept : ∀ t ∈ s'.rotated, t ∈ s.rotated ∨ t = table) : s'.Numbered where
  older := by
    intro t mem
    rw [fresh]
    rcases kept t mem with old | rfl
    · exact Nat.lt_succ_of_lt (numbered.older t old)
    · rw [sameID]
      exact Nat.lt_succ_self _
  same := by
    intro t mem t' mem' equal
    rcases kept t mem with old | rfl
    · rcases kept t' mem' with old' | rfl
      · exact numbered.same t old t' old' equal
      · exact absurd (numbered.older t old) (by omega)
    · rcases kept t' mem' with old' | rfl
      · exact absurd (numbered.older t' old') (by omega)
      · rfl

variable {coins : List Bool} {ts : HLCTimestamp} {key : Key} {deleted : Bool} {value : Bytes}
  {e' : Engine}

variable {t : Table}

/-- The workers may also take a table that has become immutable. -/
theorem mem_rotated_rotate {memTable table t : Table}
    (mem : t ∈ { s with engine := { s.engine with
      memTable := memTable
      immutable := s.engine.immutable ++ [table]
      flushCh := if s.engine.flushCh.length < flushChCap then s.engine.flushCh ++ [table]
        else s.engine.flushCh } }.rotated) : t ∈ s.rotated ∨ t = table := by
  simp only [rotated, mem_append, mem_singleton] at mem ⊢
  rcases mem with (old | new) | waiting | taken
  · exact .inl (.inl old)
  · exact .inr new
  · split at waiting
    · rcases mem_append.mp waiting with old | new
      · exact .inl (.inr (.inl old))
      · exact .inr (mem_singleton.mp new)
    · exact .inl (.inr (.inl waiting))
  · exact .inl (.inr (.inr taken))

variable {seq : ℕ}

/-- After a successful write, whatever the workers may take is the written table or was there
before, and the active memtable is the written one or has nothing. -/
theorem write_cases (written : s.engine.putWithTimestamp key value deleted coins ts seq = .ok e') :
    ∃ table, table.id = s.engine.memTable.id ∧
      (∀ k, table.list.get k = if k = key then some (Engine.writtenEntry key value deleted ts seq)
        else s.engine.memTable.list.get k) ∧
      (e'.memTable = table ∧ (∀ t ∈ { s with engine := e' }.rotated, t ∈ s.rotated) ∨
        e'.memTable = { id := s.engine.memTable.id + 1 } ∧
          ∀ t ∈ { s with engine := e' }.rotated, t ∈ s.rotated ∨ t = table) := by
  obtain ⟨table, sameID, got, rfl | rfl⟩ := Engine.putWithTimestamp_spec written
  · exact ⟨table, sameID, got, .inl ⟨rfl, fun _ mem => mem⟩⟩
  · exact ⟨table, sameID, got, .inr ⟨rfl, fun _ => mem_rotated_rotate⟩⟩

theorem Numbered.write (numbered : s.Numbered)
    (written : s.engine.putWithTimestamp key value deleted coins ts seq = .ok e') :
    { s with engine := e' }.Numbered := by
  obtain ⟨table, sameID, -, ⟨active, kept⟩ | ⟨fresh, kept⟩⟩ := write_cases written
  · refine numbered.mono kept ?_
    rw [← sameID, ← active]
  · refine numbered.rotate sameID ?_ kept
    rw [fresh]

theorem start_represents (config : Config) : (start config).Represents fun _ => none where
  answers _ := rfl
  opened := rfl
  numbered :=
    { older := nofun
      same := nofun }
  levels := ⟨[], rfl⟩
  listed := nofun
  emptyKey := .inr nofun
  idle := rfl

/-! ### The workers -/

/-- The flush worker takes its table from the channel. -/
theorem startFlush_eq_some (next : s.startFlush = some s') :
    ∃ table rest,
      s' = { s with engine := { s.engine with flushCh := rest }, flushing := some table } ∧
        ∀ t ∈ s'.rotated, t ∈ s.rotated := by
  unfold System.startFlush at next
  split at next
  · rename_i table rest idle waiting
    cases next
    refine ⟨table, rest, rfl, ?_⟩
    intro t mem
    simp only [rotated, waiting, mem_append, mem_cons, toList_some] at mem ⊢
    tauto
  · nomatch next

/-- The compaction worker takes a level from the channel, and keeps it if it has tables. -/
theorem startCompaction_eq_some (next : s.startCompaction = some s') :
    ∃ level rest, s.compacting = none ∧ s.engine.compactCh = level :: rest ∧
      (s' = { s with engine := { s.engine with compactCh := rest } } ∨
        s.tablesOf level ≠ [] ∧
          s' = { s with
            engine := { s.engine with compactCh := rest }
            compacting := some (level, s.tablesOf level) }) := by
  unfold System.startCompaction at next
  split at next
  · rename_i level rest idle waiting
    refine ⟨level, rest, idle, waiting, ?_⟩
    split at next
    · cases next
      exact .inl rfl
    · split at next
      · cases next
        exact .inl rfl
      · rename_i some_table
        cases next
        exact .inr ⟨some_table, rfl⟩
  · nomatch next

/-- A flush worker that lets go of its table. -/
theorem mem_rotated_release (mem : t ∈ { s with flushing := none }.rotated) : t ∈ s.rotated := by
  simp only [rotated, mem_append] at mem ⊢
  tauto

theorem mem_rotated_of_flushing (taken : s.flushing = some table) : table ∈ s.rotated := by
  rw [rotated, taken]
  simp

/-- The table that is flushed is the only immutable one with its number. -/
theorem Numbered.of_flushing (numbered : s.Numbered) (taken : s.flushing = some table)
    (mem : t ∈ s.engine.immutable) (equal : t.id = table.id) : t = table :=
  numbered.same t (mem_append_left _ mem) table (mem_rotated_of_flushing taken) equal

/-- No immutable table has the number of the active one. -/
theorem Numbered.of_active (numbered : s.Numbered) (mem : t ∈ s.engine.immutable)
    (equal : t.id = s.engine.memTable.id) : t = s.engine.memTable := by
  have older := numbered.older t (mem_append_left _ mem)
  omega

/-! ### Flushed tables -/

/-- The system after a flush has made a table of level 0. -/
def flushed (s : System) (table : Table) (path : Path) (m : SSTableMeta) (file : Bytes) :
    System :=
  { s with
    engine := ((s.engine.addLevel0 m).dropTable table).requestCompaction
    files := s.files.insert path file
    flushing := none }

variable {path : Path} {m : SSTableMeta} {file : Bytes} {sizing : Sizing} {now : ℕ}

theorem flushed_memTable : (s.flushed table path m file).engine.memTable = s.engine.memTable :=
  Engine.requestCompaction_memTable _

theorem flushed_immutable :
    (s.flushed table path m file).engine.immutable =
      s.engine.immutable.eraseP fun t => t.id = table.id :=
  Engine.requestCompaction_immutable _

theorem flushed_memory :
    (s.flushed table path m file).engine.memory = (s.engine.dropTable table).memory := by
  unfold Engine.memory
  rw [flushed_memTable, flushed_immutable]
  rfl

theorem flushed_levels {level0 : List SSTableMeta}
    (levels : s.engine.levels = level0 :: List.replicate 6 []) :
    (s.flushed table path m file).engine.levels = (level0 ++ [m]) :: List.replicate 6 [] := by
  show (Engine.requestCompaction _).levels = _
  rw [Engine.requestCompaction_levels]
  show s.engine.levels.modify 0 (· ++ [m]) = _
  rw [levels]
  rfl

theorem mem_tablesOf_flushed (levels : ∃ level0, s.engine.levels = level0 :: List.replicate 6 [])
    {m' : SSTableMeta} (mem : m' ∈ (s.flushed table path m file).tablesOf 0) :
    m' ∈ s.tablesOf 0 ∨ m' = m := by
  obtain ⟨level0, levels⟩ := levels
  unfold tablesOf at mem ⊢
  rw [flushed_levels levels] at mem
  rw [levels]
  simpa using mem

theorem mem_rotated_flushed (mem : t ∈ (s.flushed table path m file).rotated) : t ∈ s.rotated := by
  unfold rotated at mem
  rw [flushed_immutable] at mem
  rcases mem_append.mp mem with kept | waiting
  · exact mem_append_left _ (mem_of_mem_eraseP kept)
  · simp only [flushed, Engine.requestCompaction_flushCh, toList_none,
      append_nil] at waiting
    exact mem_append_right _ (mem_append_left _ waiting)

/-- A flush that ends has only let go of its table, or has made it a table of level 0. -/
theorem finishFlush_eq_some (next : s.finishFlush sizing now = some s') :
    ∃ table, s.flushing = some table ∧ (s' = { s with flushing := none } ∨
      ∃ m file, table.list.all ≠ [] ∧
        Engine.writeTable sizing { level := 0, nanos := now } table.list.all = .ok (m, file) ∧
        Finished m file ∧ m.path = { level := 0, nanos := now } ∧
        ((∀ entry ∈ table.list.all, entry.key ≠ []) → m.minKey ≠ []) ∧
        s' = s.flushed table { level := 0, nanos := now } m file) := by
  unfold System.finishFlush at next
  split at next
  · nomatch next
  · rename_i table taken
    refine ⟨table, taken, ?_⟩
    rcases Engine.flushMemTable_cases sizing s.engine s.files table now with
      ⟨-, done⟩ | ⟨-, -, failed⟩ | ⟨m, file, some_entry, written, finished, named, known, done⟩
    · rw [done] at next
      cases next
      exact .inl rfl
    · rw [failed] at next
      cases next
      exact .inl rfl
    · rw [done] at next
      cases next
      exact .inr ⟨m, file, some_entry, written, finished, named, known, rfl⟩

/-! ### The map and the system -/

namespace Represents

variable (represents : s.Represents contents)

include represents

/-- The tables on disk do not answer. -/
theorem readFromDisk_eq_none (emptyKey : key = [] → ∀ m ∈ s.tablesOf 0, m.minKey ≠ []) :
    s.engine.readFromDisk s.files key = .ok none := by
  obtain ⟨level0, levels⟩ := represents.levels
  have tables : s.tablesOf 0 = level0 := by
    unfold tablesOf
    rw [levels]
    rfl
  unfold Engine.readFromDisk
  rw [levels]
  dsimp only
  rw [Engine.readFromTables_eq_none]
  · exact Engine.readFromLevels_replicate s.files key 6
  · intro m mem
    apply represents.listed
    rw [tables]
    exact mem_reverse.mp mem
  · intro empty m mem
    apply emptyKey empty
    rw [tables]
    exact mem_reverse.mp mem

/-- A read of a system that stands for a map returns what the map has. -/
theorem get_eq (key : Key) : s.get key = .ok (contents key) := by
  have answer := represents.answers key
  unfold System.get Engine.get Engine.getAtTimestamp
  simp only [represents.opened, ↓reduceIte]
  rw [← lookup]
  cases found : lookup s.engine.memory key with
  | some entry =>
    rw [found] at answer
    exact congrArg Except.ok answer
  | none =>
    rw [found] at answer
    have nothing : s.engine.readFromDisk s.files key = .ok none := by
      apply represents.readFromDisk_eq_none
      rintro rfl
      rcases represents.emptyKey with inMemory | known
      · rw [found] at inMemory
        cases inMemory
      · exact known
    rw [nothing]
    exact congrArg Except.ok answer

/-! ### Writes -/

theorem write
    (written : s.engine.putWithTimestamp key value deleted coins ts seq = .ok e') :
    { s with engine := e' }.Represents
      (update contents key (if deleted then none else some value)) := by
  obtain ⟨levels, closed⟩ := Engine.levels_putWithTimestamp written
  have memory := Engine.lookup_putWithTimestamp written
  have tables : ∀ level, { s with engine := e' }.tablesOf level = s.tablesOf level :=
    tablesOf_congr levels
  refine ⟨?_, ?_, ?_, ?_, ?_, ?_, represents.idle⟩
  · intro k
    rw [memory]
    by_cases same : k = key
    · rw [if_pos same, same, update_self]
      exact Engine.visible_writtenEntry key value deleted ts seq
    · rw [if_neg same, update_of_ne same]
      exact represents.answers k
  · rw [closed]
    exact represents.opened
  · exact represents.numbered.write written
  · rw [levels]
    exact represents.levels
  · rw [tables]
    exact represents.listed
  · rw [tables, memory]
    rcases represents.emptyKey with inMemory | known
    · left
      split
      · rfl
      · exact inMemory
    · exact .inr known

/-- Nothing that a read looks at depends on the channels and the workers. -/
theorem of_same (memTable : s'.engine.memTable = s.engine.memTable)
    (immutable : s'.engine.immutable = s.engine.immutable)
    (levels : s'.engine.levels = s.engine.levels) (closed : s'.engine.closed = s.engine.closed)
    (files : s'.files = s.files) (idle : s'.compacting = none)
    (kept : ∀ t ∈ s'.rotated, t ∈ s.rotated) : s'.Represents contents := by
  have memory : s'.engine.memory = s.engine.memory := by
    unfold Engine.memory
    rw [memTable, immutable]
  have tables := tablesOf_congr levels
  constructor
  · rw [memory]
    exact represents.answers
  · rw [closed]
    exact represents.opened
  · apply represents.numbered.mono kept
    rw [memTable]
  · rw [levels]
    exact represents.levels
  · rw [tables, files]
    exact represents.listed
  · rw [tables, memory]
    exact represents.emptyKey
  · exact idle

theorem startFlush (next : s.startFlush = some s') : s'.Represents contents := by
  obtain ⟨table, rest, rfl, kept⟩ := startFlush_eq_some next
  exact represents.of_same rfl rfl rfl rfl rfl represents.idle kept

theorem startCompaction (keeps : s.Keeps .startCompaction)
    (next : s.startCompaction = some s') : s'.Represents contents := by
  obtain ⟨level, rest, -, waiting, rfl | ⟨some_table, rfl⟩⟩ := startCompaction_eq_some next
  · exact represents.of_same rfl rfl rfl rfl rfl represents.idle fun _ mem => mem
  · refine absurd (keeps level ?_) some_table
    rw [waiting]
    exact mem_singleton_self level

/-- Without the flushed table, a key that the table does not have is found where it was. -/
theorem lookup_flushed (taken : s.flushing = some table)
    (absent : table.list.get key = none) :
    lookup (s.flushed table path m file).engine.memory key = lookup s.engine.memory key := by
  rw [flushed_memory]
  exact Engine.lookup_dropTable (fun _ mem => represents.numbered.of_flushing taken mem) absent

/-- The files of the tables of level 0 can be opened after the flush, also where the new
file has taken the place of an older one. -/
theorem listed_flushed (finished : Finished m file) (named : m.path = path) :
    ∀ m' ∈ (s.flushed table path m file).tablesOf 0, ∃ file',
      (s.flushed table path m file).files.lookup m'.path = some file' ∧ Finished m' file' := by
  intro m' mem
  rcases mem_tablesOf_flushed represents.levels mem with old | rfl
  · obtain ⟨file', stored, finished'⟩ := represents.listed m' old
    by_cases same : m'.path = path
    · refine ⟨file, ?_, finished.opens, finished'.filter⟩
      rw [same]
      exact lookup_insert s.files
    · refine ⟨file', ?_, finished'⟩
      rw [← stored]
      exact lookup_insert_ne same
  · refine ⟨file, ?_, finished⟩
    rw [named]
    exact lookup_insert s.files

theorem emptyKey_flushed (taken : s.flushing = some table) (keeps : s.FlushKeeps table)
    (known : (∀ entry ∈ table.list.all, entry.key ≠ []) → m.minKey ≠ []) :
    (lookup (s.flushed table path m file).engine.memory []).isSome ∨
      ∀ m' ∈ (s.flushed table path m file).tablesOf 0, m'.minKey ≠ [] := by
  cases found : table.list.get [] with
  | some entry =>
    left
    have empty := SkipList.key_of_get found
    have mem : entry ∈ table.list.all := SkipList.mem_all.mpr (by rw [empty]; exact found)
    have inMemory := (keeps entry mem).2 empty
    rw [empty] at inMemory
    rw [flushed_memory]
    exact inMemory
  | none =>
    rw [represents.lookup_flushed taken found]
    refine represents.emptyKey.imp_right fun others m' mem => ?_
    rcases mem_tablesOf_flushed represents.levels mem with old | rfl
    · exact others m' old
    · apply known
      intro entry mem empty
      have got := SkipList.mem_all.mp mem
      rw [empty, found] at got
      nomatch got

theorem flush (taken : s.flushing = some table) (keeps : s.FlushKeeps table)
    (finished : Finished m file) (named : m.path = path)
    (known : (∀ entry ∈ table.list.all, entry.key ≠ []) → m.minKey ≠ []) :
    (s.flushed table path m file).Represents contents := by
  refine ⟨?answers, ?opened, ?numbered, ?levels, represents.listed_flushed finished named,
    represents.emptyKey_flushed taken keeps known, represents.idle⟩
  case answers =>
    intro key
    rw [← represents.answers key]
    cases found : table.list.get key with
    | none => rw [represents.lookup_flushed taken found]
    | some entry =>
      have same := SkipList.key_of_get found
      subst same
      rw [flushed_memory]
      exact (keeps entry (SkipList.mem_all.mpr found)).1
  case opened =>
    exact (Engine.requestCompaction_closed _).trans represents.opened
  case numbered =>
    apply represents.numbered.mono
    · exact fun _ mem => mem_rotated_flushed mem
    · rw [flushed_memTable]
  case levels =>
    obtain ⟨level0, levels⟩ := represents.levels
    exact ⟨_, flushed_levels levels⟩

theorem finishFlush (keeps : s.Keeps (.finishFlush now))
    (next : s.finishFlush sizing now = some s') : s'.Represents contents := by
  obtain ⟨table, taken, rfl | ⟨m, file, -, -, finished, named, known, rfl⟩⟩ :=
    finishFlush_eq_some next
  · exact represents.of_same rfl rfl rfl rfl rfl represents.idle fun _ => mem_rotated_release
  · refine represents.flush taken (keeps table ?_) finished named known
    rw [taken]
    exact mem_singleton_self table

/-- Every allowed step keeps the system and the map together. -/
theorem step {event : Event} (keeps : s.Keeps event)
    (next : s.step sizing event = some s') : s'.Represents (event.write contents) := by
  cases event with
  | put key value coins ts seq | delete key coins ts seq =>
    simp only [System.step, map_eq_some_iff, toOption_eq_some] at next
    obtain ⟨e', written, rfl⟩ := next
    exact represents.write written
  | startFlush => exact represents.startFlush next
  | finishFlush now => exact represents.finishFlush keeps next
  | startCompaction => exact represents.startCompaction keeps next
  | finishCompaction now =>
    simp only [System.step, System.finishCompaction, represents.idle] at next
    nomatch next

end Represents

theorem Run.represents {config : Config} {events : List Event}
    (run : Run sizing System.Keeps (start config) events s) : s.Represents (lastWrite events) := by
  induction run with
  | nil => exact start_represents config
  | snoc run keeps next ih =>
    rw [lastWrite, foldl_append]
    exact ih.step keeps next

end System

theorem System.run_of_exec {sizing : Sizing} {allowed : System → Event → Prop}
    [∀ s, DecidablePred (allowed s)] {s₀ s s' : System} {before events : List Event}
    (run : Run sizing allowed s₀ before s)
    (exec : Runs.exec (System.step sizing) allowed s events = some s') :
    Run sizing allowed s₀ (before ++ events) s' := by
  induction events generalizing s before with
  | nil =>
    cases exec
    rw [append_nil]
    exact run
  | cons event rest ih =>
    rw [Runs.exec] at exec
    split at exec
    · rename_i ok
      obtain ⟨s₁, next, exec⟩ := bind_eq_some_iff.mp exec
      rw [append_cons]
      exact ih (run.snoc ok next) exec
    · cases exec

/-! ## Reads -/

/-- In every run whose flushes keep the answers of the memory and whose compactions find
their level empty, a read returns the value of the last write to its key. -/
theorem get_eq_lastWrite (sizing : Sizing) (config : Config) {events : List Event} {s : System}
    (run : System.Run sizing System.Keeps (System.start config) events s) (key : Key) :
    s.get key = .ok (lastWrite events key) :=
  run.represents.get_eq key

/-- Memtables that are full as soon as they have an entry. -/
def tiny : Config :=
  { memTableSize := 66 }

/-- A key is written twice, and the older memtable is flushed. -/
def overwritten : List Event :=
  [.put [107] [49] [] 1 1, .put [107] [50] [true] 2 2, .startFlush, .finishFlush 7]

theorem get_eq_lastWrite_overwritten :
    ∃ s, System.Run .decimal System.Keeps (System.start tiny) overwritten s ∧
      s.get [107] = .ok (some [50]) := by
  have runs : (Runs.exec (System.step .decimal) System.Keeps (System.start tiny)
      overwritten).isSome := by
    decide +kernel
  obtain ⟨s, exec⟩ := isSome_iff_exists.mp runs
  have run := System.run_of_exec .nil exec
  exact ⟨s, run, get_eq_lastWrite .decimal tiny run [107]⟩

/-- A put succeeds and its memtable is flushed: the value cannot be read any more. -/
theorem get_ne_lastWrite_flushed :
    ∃ events s, System.Run .decimal (fun _ _ => True) (System.start tiny) events s ∧
      lastWrite events [107] = some [49] ∧ s.get [107] = .ok none := by
  let events : List Event := [.put [107] [49] [] 1 1, .startFlush, .finishFlush 7]
  obtain ⟨s, exec, read⟩ : ∃ s, Runs.exec (System.step .decimal) (fun _ _ => True)
      (System.start tiny) events = some s ∧ s.get [107] = .ok none := by
    decide +kernel
  exact ⟨events, s, System.run_of_exec .nil exec, rfl, read⟩

end Hermes.Storage
