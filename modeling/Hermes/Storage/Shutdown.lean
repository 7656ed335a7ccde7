import Hermes.Data.Runs
import Hermes.Storage.Command
import Hermes.Storage.FailingCompaction
import Hermes.Storage.LastWrite
import Hermes.Storage.TableFormat
import Hermes.Storage.Wal.Segments

/-!
# Closing the engine

`Close` marks the engine as closed, stops the two workers and flushes the active memtable.
The immutable memtables are left to the flush worker, which may stop before it has written
them, and a failure of the last flush is only printed.  So the entries in memory come to the
disk if the flush worker is done with the immutable memtables when it stops and the last flush
succeeds.
-/

namespace Hermes.Storage

open Clock (HLCTimestamp)
open AList Bloom List Memtable Option SSTable

/-! ## Entries in files -/

/-- Some table file has the entry, all but its sequence number. -/
def Saved (files : Files) (entry : Entry) : Prop :=
  ∃ path, stored entry ∈ Engine.tableEntries files path

/-- A table file that can be read and has an entry. -/
def Readable (files : Files) (path : Path) : Prop :=
  ∃ entries, entries ≠ [] ∧ (Engine.openReader files path).bind Reader.iterate = .ok entries

variable {entry : Entry}

section Files

variable {files : Files} {path : Path}

theorem not_mem_tableEntries (missing : files.lookup path = none) (entry : Entry) :
    entry ∉ Engine.tableEntries files path := by
  intro mem
  unfold Engine.tableEntries Engine.openReader at mem
  rw [missing] at mem
  nomatch mem

/-- The files that are there stay as they are. -/
def Kept (files files' : Files) : Prop :=
  ∀ path, files.lookup path ≠ none → files'.lookup path = files.lookup path

variable {files' : Files}

theorem Kept.refl : Kept files files :=
  fun _ _ => rfl

/-- A file with a new name leaves the others as they are. -/
theorem Kept.insert (fresh : files.lookup path = none) (file : Bytes) :
    Kept files (files.insert path file) := by
  intro other present
  apply lookup_insert_ne
  rintro rfl
  exact present fresh

theorem Kept.openReader (kept : Kept files files') (present : files.lookup path ≠ none) :
    Engine.openReader files' path = Engine.openReader files path := by
  unfold Engine.openReader
  rw [kept path present]

theorem Readable.mono (readable : Readable files path) (kept : Kept files files') :
    Readable files' path := by
  obtain ⟨entries, nonempty, read⟩ := readable
  refine ⟨entries, nonempty, ?_⟩
  rw [kept.openReader]
  · exact read
  · intro missing
    unfold Engine.openReader at read
    rw [missing] at read
    nomatch read

theorem Saved.mono (saved : Saved files entry) (kept : Kept files files') :
    Saved files' entry := by
  obtain ⟨path, mem⟩ := saved
  refine ⟨path, ?_⟩
  unfold Engine.tableEntries
  rw [kept.openReader fun missing => not_mem_tableEntries missing _ mem]
  exact mem

/-- The entries whose records fit into a segment of the log. -/
def Small (entry : Entry) : Prop :=
  (encodeEntry entry).length ≤ Wal.defaultSegmentSize

theorem Small.lt (small : Small entry) : 8 + (encodeEntry entry).length < 2 ^ 31 := by
  unfold Small Wal.defaultSegmentSize at small
  omega

variable {sizing : Sizing} {entries : List Entry}

/-- A table of so few entries fits into a file. -/
theorem writeTable_ne_error (some_entry : entries ≠ []) (small : ∀ entry ∈ entries, Small entry)
    (count : entries.length < 2 ^ 32) (bits : sizing.bits entries.length < 2 ^ 62) :
    Engine.writeTable sizing path entries ≠ .error (.error .fileTooLarge) := by
  obtain ⟨w, added, -, -, -, written⟩ := Engine.writeTable_eq_finish sizing path some_entry
  have narrow : ∀ entry ∈ entries, entry.key.length + 16 ≤ Wal.defaultSegmentSize := by
    intro entry mem
    have length := small entry mem
    rw [Small, length_encodeEntry] at length
    omega
  have size := length_file_le added small (by decide) narrow
  have blocks : entries.length * (Wal.defaultSegmentSize + 8)
      ≤ 2 ^ 32 * (Wal.defaultSegmentSize + 8) := Nat.mul_le_mul_right _ count.le
  have index : entries.length * Wal.defaultSegmentSize ≤ 2 ^ 32 * Wal.defaultSegmentSize :=
    Nat.mul_le_mul_right _ count.le
  rw [written, Writer.finish, if_pos]
  · exact nofun
  · unfold Wal.defaultSegmentSize at size blocks index
    omega

/-- A file that a flush has written has the entries of its memtable. -/
theorem read_writeTable (some_entry : entries ≠ []) {m : SSTableMeta} {file : Bytes}
    (written : Engine.writeTable sizing path entries = .ok (m, file))
    (small : ∀ entry ∈ entries, Small entry) (count : entries.length < 2 ^ 32) :
    (Engine.openReader (files.insert path file) path).bind Reader.iterate
      = .ok (entries.map stored) := by
  obtain ⟨w, added, -, -, -, finished⟩ := Engine.writeTable_eq_finish sizing path some_entry
  rw [written] at finished
  obtain ⟨table, loaded, iterated⟩ :=
    iterate_of_finish added finished.symm (fun entry mem => (small entry mem).lt) count path
  unfold Engine.openReader
  rw [lookup_insert]
  dsimp only
  rw [loaded]
  exact iterated

end Files

/-! ## The system -/

/-- A system that may be closed. -/
structure Closable where
  system : System
  /-- History: the entries that the memtables held when `Close` was called. -/
  held : List Entry := []
  flusherStopped : Bool := false
  compactorStopped : Bool := false
  /-- The call of `Close` that has closed the engine is not over. -/
  closing : Bool := false
  /-- A call of `Close` has returned without an error. -/
  returned : Bool := false

namespace Closable

inductive Event where
  /-- A call of `Put` or `Delete` that succeeds, or a step of a worker. -/
  | work (event : Storage.Event)
  /-- A flush that a call of the file system makes fail, with what it leaves behind. -/
  | failFlush (now : ℕ) (left : Option Bytes)
  /-- The end of a compaction, in which calls of the file system may fail. -/
  | finishCompaction (now : ℕ) (io : CompactionCalls)
  | close
  /-- A call of `Close` that finds the engine closed. -/
  | closeAgain
  | stopFlusher
  | stopCompactor
  /-- The end of `Close`: the flush of the active memtable. -/
  | finish (now : ℕ)
  /-- The end of `Close` where the file system makes that flush fail. -/
  | failFinish (now : ℕ) (left : Option Bytes)

def start (config : Config) : Closable :=
  { system := System.start config }

/-- The file that a flush writes. -/
def flushPath (now : ℕ) : Path :=
  { level := 0, nanos := now }

/-- The log refuses records that do not fit into a segment, and a worker that has stopped takes
nothing more.  The end of a compaction is an event of its own. -/
def Possible (s : Closable) : Storage.Event → Prop
  | .put key value _ _ _ => (encodeCommand key value false).length ≤ Wal.defaultSegmentSize
  | .delete key _ _ _ => (encodeCommand key [] true).length ≤ Wal.defaultSegmentSize
  | .startFlush => ¬ s.flusherStopped
  | .startCompaction => ¬ s.compactorStopped
  | .finishFlush _ => True
  | .finishCompaction _ => False

instance (s : Closable) : DecidablePred s.Possible := by
  rintro ⟨⟩ <;> delta Possible <;> infer_instance

/-- What a flush that fails leaves in its file. -/
def leave (files : Files) (now : ℕ) : Option Bytes → Files
  | none => files
  | some bytes => files.insert (flushPath now) bytes

/-- The entries in memory. -/
def inMemory (e : Engine) : List Entry :=
  e.memory.flatMap fun t => t.list.all

/-- The workers have stopped, and `Close` goes on. -/
def Stopped (s : Closable) : Prop :=
  s.closing ∧ s.flusherStopped ∧ s.compactorStopped
  deriving Decidable

/-- The flush of the active memtable at the end of `Close`.  An error is only printed. -/
def lastFlush (sizing : Sizing) (s : System) (now : ℕ) : Option System :=
  if s.engine.memTable.list.length > 0 then
    match s.engine.flushMemTable sizing s.files s.engine.memTable now with
    | .ok (e, files) => some { s with engine := e, files := files }
    | .error (.error _) => some s
    | .error (.panic _) => none
  else some s

def step (sizing : Sizing) (s : Closable) : Event → Option Closable
  | .work event =>
    if s.Possible event then
      (s.system.step sizing event).map fun system => { s with system := system }
    else none
  | .failFlush now left =>
    match s.system.flushing with
    | none => none
    | some _ =>
      some { s with
        system := { s.system with
          files := leave s.system.files now left
          flushing := none } }
  | .finishCompaction now io =>
    match s.system.compacting with
    | none => none
    | some (level, sources) =>
      match s.system.engine.compactWith io sizing s.system.files level sources now with
      | .ok (e, files) =>
        some { s with system := { s.system with engine := e, files := files, compacting := none } }
      | .error (.panic _) => none
      | .error _ =>
        let path := Engine.outputPath level now
        some { s with
          system := { s.system with
            files := if io.creates then s.system.files.insert path [] else s.system.files
            compacting := none } }
  | .close =>
    if s.system.engine.closed then none
    else
      some { s with
        system := { s.system with engine := { s.system.engine with closed := true } }
        held := inMemory s.system.engine
        closing := true }
  | .closeAgain => if s.system.engine.closed then some { s with returned := true } else none
  | .stopFlusher =>
    if s.system.engine.closed ∧ s.system.flushing = none then
      some { s with flusherStopped := true }
    else none
  | .stopCompactor =>
    if s.system.engine.closed ∧ s.system.compacting = none then
      some { s with compactorStopped := true }
    else none
  | .finish now =>
    if s.Stopped then
      (lastFlush sizing s.system now).map fun system =>
        { s with system := system, closing := false, returned := true }
    else none
  | .failFinish now left =>
    if s.Stopped ∧ s.system.engine.memTable.list.length > 0 then
      some { s with
        system := { s.system with files := leave s.system.files now left }
        closing := false
        returned := true }
    else none

/-- What `Close` is for: once it has returned, every entry that the memtables held is in a
table file. -/
def FlushesAll (s : Closable) : Prop :=
  s.returned → ∀ entry ∈ s.held, Saved s.system.files entry

/-! ## The condition -/

/-- No file has the name that a flush would give to its own. -/
def Fresh (s : Closable) (now : ℕ) : Prop :=
  s.system.files.lookup (flushPath now) = none
  deriving Decidable

/-- The memtable has so few entries that the index of its table can count the blocks. -/
def Few (table : Table) : Prop :=
  table.list.all.length < 2 ^ 32
  deriving Decidable

/-- The filter of its table is not larger than a file can be. -/
def Filtered (sizing : Sizing) (table : Table) : Prop :=
  sizing.bits table.list.all.length < 2 ^ 62
  deriving Decidable

/-- The condition on a step.  Flushes have names of their own and write tables that can be read
again; a compaction can open every table that it has copied, and has a name of its own for the
new one; the flush worker stops when the immutable memtables have nothing left; the last flush
does not fail; and a second call of `Close` waits for the first one. -/
def Orderly (sizing : Sizing) (s : Closable) : Event → Prop
  | .work (.finishFlush now) => s.Fresh now ∧ ∀ table ∈ s.system.flushing, Few table
  | .failFlush now _ => s.Fresh now
  | .finishCompaction now io => ∀ job ∈ s.system.compacting,
    Engine.OpensAll io s.system.files job.2 ∧
      s.system.files.lookup (Engine.outputPath job.1 now) = none
  | .stopFlusher => ∀ table ∈ s.system.engine.immutable, table.list.all = []
  | .closeAgain => s.returned
  | .finish now => s.Fresh now ∧ Few s.system.engine.memTable ∧
    Filtered sizing s.system.engine.memTable
  | .failFinish .. => False
  | _ => True

instance (sizing : Sizing) (s : Closable) : DecidablePred (s.Orderly sizing) := by
  rintro (⟨_ | _ | _ | _ | _ | _⟩ | _) <;> delta Orderly <;> infer_instance

/-! ## The invariant -/

/-- What holds of the system, whether or not it is closed. -/
structure Healthy (s : System) : Prop where
  numbered : s.Numbered
  levels : ∃ level0, s.engine.levels = level0 :: List.replicate 6 []
  readable : ∀ m ∈ s.tablesOf 0, Readable s.files m.path
  compacting : ∀ level sources, s.compacting = some (level, sources) →
    level = 0 ∧ sources ≠ [] ∧ ∀ m ∈ sources, Readable s.files m.path
  small : ∀ t, t = s.engine.memTable ∨ t ∈ s.rotated → ∀ entry ∈ t.list.all, Small entry
  counted : s.engine.memTable.list.Counted

/-- A step of the system that loses no entry: the entries in memory stay there or come into a
file, and those in files stay there. -/
structure Moves (s s' : System) : Prop where
  closed : s'.engine.closed = s.engine.closed
  saved : ∀ entry, Saved s.files entry → Saved s'.files entry
  inMemory : ∀ entry ∈ inMemory s.engine,
    entry ∈ inMemory s'.engine ∨ Saved s'.files entry

variable {deleted : Bool} {value : Bytes} {now : ℕ}

variable {key : Key} {coins : List Bool} {ts : HLCTimestamp}

section System

variable {s s' : System} {sizing : Sizing}

theorem healthy_start (config : Config) : Healthy (System.start config) where
  numbered := (System.start_represents config).numbered
  levels := ⟨[], rfl⟩
  readable := nofun
  compacting := nofun
  small := by
    rintro t (rfl | mem) entry inside
    · nomatch inside
    · nomatch mem
  counted := SkipList.counted_empty

/-- Nothing of this depends on the channels. -/
theorem Healthy.of_same (healthy : Healthy s) (memTable : s'.engine.memTable = s.engine.memTable)
    (levels : s'.engine.levels = s.engine.levels)
    (compacting : ∀ job, s'.compacting = some job → s.compacting = some job)
    (files : Kept s.files s'.files) (rotated : ∀ t ∈ s'.rotated, t ∈ s.rotated) :
    Healthy s' := by
  have tables := System.tablesOf_congr levels 0
  refine ⟨?_, ?_, ?_, ?_, ?_, ?_⟩
  · apply healthy.numbered.mono rotated
    rw [memTable]
  · rw [levels]
    exact healthy.levels
  · rw [tables]
    exact fun m mem => (healthy.readable m mem).mono files
  · intro level sources job
    obtain ⟨top, some_table, read⟩ := healthy.compacting level sources (compacting _ job)
    exact ⟨top, some_table, fun m mem => (read m mem).mono files⟩
  · rw [memTable]
    exact fun t mem => healthy.small t (mem.imp_right (rotated t))
  · rw [memTable]
    exact healthy.counted

/-! ### Writes -/

theorem small_writtenEntry (ts : HLCTimestamp) (seq : ℕ)
    (fits : (encodeCommand key value deleted).length ≤ Wal.defaultSegmentSize) :
    Small (Engine.writtenEntry key value deleted ts seq) := by
  rw [length_encodeCommand] at fits
  rw [Small, length_encodeEntry]
  cases deleted with
  | false => exact fits
  | true =>
    show key.length + 0 + 17 ≤ _
    omega

theorem Healthy.write {e' : Engine} {seq : ℕ} (healthy : Healthy s)
    (fits : (encodeCommand key value deleted).length ≤ Wal.defaultSegmentSize)
    (written : s.engine.putWithTimestamp key value deleted coins ts seq = .ok e') :
    Healthy { s with engine := e' } := by
  obtain ⟨levels, -⟩ := Engine.levels_putWithTimestamp written
  have tables : { s with engine := e' }.tablesOf 0 = s.tablesOf 0 :=
    System.tablesOf_congr levels 0
  refine ⟨healthy.numbered.write written, ?_, ?_, healthy.compacting, ?_,
    Engine.counted_putWithTimestamp healthy.counted written⟩
  · rw [levels]
    exact healthy.levels
  · rw [tables]
    exact healthy.readable
  · obtain ⟨table, -, got, result⟩ := System.write_cases written
    have small : ∀ entry ∈ table.list.all, Small entry := by
      intro entry mem
      have found := SkipList.mem_all.mp mem
      rw [got] at found
      split at found
      · cases found
        exact small_writtenEntry ts seq fits
      · exact healthy.small _ (.inl rfl) entry (SkipList.mem_all.mpr found)
    intro t mem
    rcases result with ⟨active, kept⟩ | ⟨active, kept⟩
    · rcases mem with rfl | mem
      · rw [active]
        exact small
      · exact healthy.small t (.inr (kept t mem))
    · rcases mem with rfl | mem
      · rw [active]
        exact nofun
      · rcases kept t mem with old | rfl
        · exact healthy.small t (.inr old)
        · exact small

/-! ### Flushes -/

variable {m : SSTableMeta} {file : Bytes} {table : Table}

section

variable {path : Path} (healthy : Healthy s)
  (known : table = s.engine.memTable ∨ table ∈ s.rotated) (few : Few table)
  (some_entry : table.list.all ≠ [])
  (written : Engine.writeTable sizing path table.list.all = .ok (m, file))

include healthy known few some_entry written

/-- The entries of a flushed table are in its file. -/
theorem Healthy.saved_flushed (mem : entry ∈ table.list.all) :
    Saved (s.flushed table path m file).files entry := by
  refine ⟨path, ?_⟩
  show stored entry ∈ Engine.tableEntries (s.files.insert path file) path
  unfold Engine.tableEntries
  rw [read_writeTable some_entry written (healthy.small table known) few]
  exact mem_map_of_mem mem

variable (fresh : s.files.lookup path = none)

include fresh

/-- A flush of the active memtable or of one that has been rotated. -/
theorem Healthy.flush (named : m.path = path) : Healthy (s.flushed table path m file) where
  numbered := by
    apply healthy.numbered.mono
    · exact fun _ => System.mem_rotated_flushed
    · rw [System.flushed_memTable]
  levels := by
    obtain ⟨level0, levels⟩ := healthy.levels
    exact ⟨_, System.flushed_levels levels⟩
  readable := by
    intro m' mem
    rcases System.mem_tablesOf_flushed healthy.levels mem with old | rfl
    · exact (healthy.readable m' old).mono (.insert fresh file)
    · rw [named]
      refine ⟨_, ?_, read_writeTable some_entry written (healthy.small table known) few⟩
      exact fun empty => some_entry (map_eq_nil_iff.mp empty)
  compacting := by
    intro level sources job
    obtain ⟨top, some_table, read⟩ := healthy.compacting level sources job
    exact ⟨top, some_table, fun m mem => (read m mem).mono (.insert fresh file)⟩
  small := by
    rw [System.flushed_memTable]
    exact fun t mem => healthy.small t (mem.imp_right System.mem_rotated_flushed)
  counted := by
    rw [System.flushed_memTable]
    exact healthy.counted

/-- The entries of a flushed table move to its file. -/
theorem Moves.flush (same : ∀ t ∈ s.engine.immutable, t.id = table.id → t = table) :
    Moves s (s.flushed table path m file) where
  closed := Engine.requestCompaction_closed _
  saved := fun _ saved => saved.mono (.insert fresh file)
  inMemory := by
    intro entry mem
    unfold Closable.inMemory at mem ⊢
    rw [System.flushed_memory]
    rcases Engine.memory_dropTable same with unchanged | ⟨newer, before, after⟩
    · rw [unchanged]
      exact .inl mem
    · rw [before, flatMap_append] at mem
      rw [after, flatMap_append]
      rcases mem_append.mp mem with inNewer | mem
      · exact .inl (mem_append_left _ inNewer)
      · rcases mem_append.mp mem with inTable | inOlder
        · exact .inr (healthy.saved_flushed known few some_entry written inTable)
        · exact .inl (mem_append_right _ inOlder)

end

section

variable (healthy : Healthy s)

include healthy

/-- A step that changes nothing in memory, and no file that is there. -/
theorem Healthy.keep (memTable : s'.engine.memTable = s.engine.memTable)
    (immutable : s'.engine.immutable = s.engine.immutable)
    (levels : s'.engine.levels = s.engine.levels) (closed : s'.engine.closed = s.engine.closed)
    (compacting : ∀ job, s'.compacting = some job → s.compacting = some job)
    (files : Kept s.files s'.files) (rotated : ∀ t ∈ s'.rotated, t ∈ s.rotated) :
    Healthy s' ∧ Moves s s' := by
  refine ⟨healthy.of_same memTable levels compacting files rotated, closed,
    fun _ saved => saved.mono files, ?_⟩
  intro entry mem
  unfold Closable.inMemory Engine.memory at mem ⊢
  rw [memTable, immutable]
  exact .inl mem

/-- No compaction of a readable table gets through to the end. -/
theorem Healthy.compactWith_ne_ok {level : ℕ} {sources : List SSTableMeta}
    {io : CompactionCalls} {result : Engine × Files} (job : s.compacting = some (level, sources))
    (all : Engine.OpensAll io s.files sources) :
    s.engine.compactWith io sizing s.files level sources now ≠ .ok result := by
  obtain ⟨rfl, some_table, readable⟩ := healthy.compacting level sources job
  obtain ⟨level0, levels⟩ := healthy.levels
  obtain ⟨m, rest, rfl⟩ := exists_cons_of_ne_nil some_table
  obtain ⟨entries, some_entry, read⟩ := readable m mem_cons_self
  refine Engine.compactWith_ne_ok all ?_ read some_entry
  rw [levels, length_cons]
  decide

/-! ### Steps of the workers -/

theorem Healthy.startCompaction (next : s.startCompaction = some s') : Healthy s' ∧ Moves s s' := by
  obtain ⟨level, rest, -, -, rfl | ⟨some_table, rfl⟩⟩ := System.startCompaction_eq_some next
  · exact healthy.keep rfl rfl rfl rfl (fun _ job => job) .refl fun _ mem => mem
  · refine ⟨{ healthy with
      numbered := healthy.numbered.mono (fun _ mem => mem) rfl
      compacting := ?_ }, rfl, fun _ saved => saved, fun _ => .inl⟩
    intro level' sources job
    cases job
    -- All levels but the first are empty.
    have top : level = 0 := by
      obtain ⟨level0, levels⟩ := healthy.levels
      unfold System.tablesOf at some_table
      rw [levels] at some_table
      obtain _ | level := level
      · rfl
      · refine absurd ?_ some_table
        rw [getElem?_cons_succ, getElem?_replicate]
        split <;> rfl
    subst top
    exact ⟨rfl, some_table, healthy.readable⟩

theorem Healthy.finishFlush (fresh : s.files.lookup (flushPath now) = none)
    (few : ∀ table ∈ s.flushing, Few table) (next : s.finishFlush sizing now = some s') :
    Healthy s' ∧ Moves s s' := by
  obtain ⟨table, taken, rfl | ⟨m, file, some_entry, written, -, named, -, rfl⟩⟩ :=
    System.finishFlush_eq_some next
  · exact healthy.keep rfl rfl rfl rfl (fun _ job => job) .refl fun _ => System.mem_rotated_release
  · have known : table ∈ s.rotated := System.mem_rotated_of_flushing taken
    exact ⟨healthy.flush (.inr known) (few table taken) some_entry written fresh named,
      .flush healthy (.inr known) (few table taken) some_entry written fresh
        fun _ => healthy.numbered.of_flushing taken⟩

theorem Healthy.leave (fresh : s.files.lookup (flushPath now) = none) (left : Option Bytes) :
    Healthy { s with files := Closable.leave s.files now left, flushing := none } ∧
      Moves s { s with files := Closable.leave s.files now left, flushing := none } := by
  have files : Kept s.files (Closable.leave s.files now left) := by
    cases left with
    | none => exact .refl
    | some bytes => exact .insert fresh bytes
  exact healthy.keep rfl rfl rfl rfl (fun _ job => job) files fun _ => System.mem_rotated_release

theorem Healthy.lastFlush (idle : s.flushing = none) (few : Few s.engine.memTable)
    (filtered : Filtered sizing s.engine.memTable)
    (next : Closable.lastFlush sizing s now = some s') :
    (s' = s ∧ s.engine.memTable.list.all = []) ∨
      ∃ m file, s.engine.memTable.list.all ≠ [] ∧
        Engine.writeTable sizing (flushPath now) s.engine.memTable.list.all = .ok (m, file) ∧
        m.path = flushPath now ∧ s' = s.flushed s.engine.memTable (flushPath now) m file := by
  unfold Closable.lastFlush at next
  split at next
  · rcases Engine.flushMemTable_cases sizing s.engine s.files s.engine.memTable now with
      ⟨empty, done⟩ | ⟨some_entry, failed, -⟩ | ⟨m, file, some_entry, written, -, named, -, done⟩
    · rw [done] at next
      cases next
      exact .inl ⟨rfl, empty⟩
    · exact absurd failed
        (writeTable_ne_error some_entry (healthy.small _ (.inl rfl)) few filtered)
    · rw [done] at next
      refine .inr ⟨m, file, some_entry, written, named, ?_⟩
      rw [← some.inj next]
      simp only [System.flushed, idle, flushPath]
  · rename_i zero
    cases next
    exact .inl ⟨rfl, healthy.counted.all_eq_nil (Nat.eq_zero_of_not_pos zero)⟩

end

end System

/-! ## Runs -/

/-- What holds in every state that an orderly run reaches. -/
structure Sound (s : Closable) : Prop where
  healthy : Healthy s.system
  closed : s.closing ∨ s.returned ∨ s.flusherStopped → s.system.engine.closed
  kept : s.system.engine.closed → ∀ entry ∈ s.held,
    entry ∈ inMemory s.system.engine ∨ Saved s.system.files entry
  flushed : s.flusherStopped → s.system.flushing = none ∧
    ∀ table ∈ s.system.engine.immutable, table.list.all = []
  saved : s.FlushesAll

variable {s s' : Closable} {sizing : Sizing}

theorem sound_start (config : Config) : (start config).Sound where
  healthy := healthy_start config
  closed := by simp [start]
  kept := nofun
  flushed := nofun
  saved := nofun

/-- Nothing is in memory when the workers have stopped but the active memtable. -/
theorem Sound.mem_memTable (sound : s.Sound) (stopped : s.flusherStopped)
    (mem : entry ∈ inMemory s.system.engine) : entry ∈ s.system.engine.memTable.list.all := by
  obtain ⟨table, listed, inside⟩ := mem_flatMap.mp mem
  rcases mem_cons.mp listed with rfl | listed
  · exact inside
  · rw [(sound.flushed stopped).2 table (mem_reverse.mp listed)] at inside
    nomatch inside

variable {system : System}

section

variable (sound : s.Sound)

include sound

/-- A step of the workers. -/
theorem Sound.move (moved : Healthy system ∧ Moves s.system system)
    (flushed : s.flusherStopped → system.flushing = none ∧
      ∀ table ∈ system.engine.immutable, table.list.all = []) :
    { s with system := system }.Sound := by
  obtain ⟨healthy, moves⟩ := moved
  refine ⟨healthy, ?_, ?_, flushed, ?_⟩
  · rw [moves.closed]
    exact sound.closed
  · rw [moves.closed]
    intro closed entry mem
    rcases sound.kept closed entry mem with inMemory | saved
    · exact moves.inMemory entry inMemory
    · exact .inr (moves.saved entry saved)
  · exact fun returned entry mem => moves.saved entry (sound.saved returned entry mem)

/-- A write finds the engine open. -/
theorem Sound.write {e' : Engine} {seq : ℕ}
    (fits : (encodeCommand key value deleted).length ≤ Wal.defaultSegmentSize)
    (written : s.system.engine.putWithTimestamp key value deleted coins ts seq = .ok e') :
    { s with system := { s.system with engine := e' } }.Sound := by
  have opened : ¬ s.system.engine.closed := by
    intro closed
    unfold Engine.putWithTimestamp at written
    rw [if_pos closed] at written
    nomatch written
  have same : e'.closed = s.system.engine.closed := (Engine.levels_putWithTimestamp written).2
  refine ⟨sound.healthy.write fits written, ?_, ?_, ?_, ?_⟩
  · exact fun going => same.trans (sound.closed going)
  · exact fun closed => absurd (same ▸ closed) opened
  · exact fun stopped => absurd (sound.closed (.inr (.inr stopped))) opened
  · exact fun done => absurd (sound.closed (.inr (.inl done))) opened

theorem Sound.work {event : Storage.Event} (possible : s.Possible event)
    (orderly : s.Orderly sizing (.work event)) (next : s.system.step sizing event = some system) :
    { s with system := system }.Sound := by
  cases event with
  | put key value coins ts seq | delete key coins ts seq =>
    simp only [System.step, map_eq_some_iff, toOption_eq_some] at next
    obtain ⟨e', written, rfl⟩ := next
    exact sound.write possible written
  | startFlush =>
    obtain ⟨table, rest, rfl, kept⟩ := System.startFlush_eq_some next
    exact sound.move (sound.healthy.keep rfl rfl rfl rfl (fun _ job => job) .refl kept)
      fun stopped => absurd stopped possible
  | finishFlush now =>
    refine sound.move (sound.healthy.finishFlush orderly.1 orderly.2 next) fun stopped => ?_
    obtain ⟨table, taken, -⟩ := System.finishFlush_eq_some next
    rw [(sound.flushed stopped).1] at taken
    cases taken
  | startCompaction =>
    refine sound.move (sound.healthy.startCompaction next) fun stopped => ?_
    obtain ⟨level, rest, -, -, rfl | ⟨-, rfl⟩⟩ := System.startCompaction_eq_some next
    · exact sound.flushed stopped
    · exact sound.flushed stopped
  | finishCompaction now => exact possible.elim

/-! ### The steps of `Close` -/

/-- The end of `Close`: nothing is left in memory that is in no file. -/
theorem Sound.finish (closed : s.system.engine.closed) (healthy : Healthy system)
    (moves : Moves s.system system)
    (flushed : system.flushing = none ∧ ∀ table ∈ system.engine.immutable, table.list.all = [])
    (saved : ∀ entry ∈ inMemory s.system.engine, Saved system.files entry) :
    { s with system := system, closing := false, returned := true }.Sound := by
  have all : ∀ entry ∈ s.held, Saved system.files entry := by
    intro entry mem
    rcases sound.kept closed entry mem with inMemory | old
    · exact saved entry inMemory
    · exact moves.saved entry old
  exact ⟨healthy, fun _ => moves.closed.trans closed, fun _ entry mem => .inr (all entry mem),
    fun _ => flushed, fun _ => all⟩

theorem Sound.lastFlush (orderly : s.Orderly sizing (.finish now)) (stopped : s.Stopped)
    (next : Closable.lastFlush sizing s.system now = some system) :
    { s with system := system, closing := false, returned := true }.Sound := by
  obtain ⟨closing, flusherStopped, -⟩ := stopped
  obtain ⟨fresh, few, filtered⟩ := orderly
  have idle := sound.flushed flusherStopped
  have closed := sound.closed (.inl closing)
  rcases sound.healthy.lastFlush idle.1 few filtered next with
    ⟨rfl, empty⟩ | ⟨m, file, some_entry, written, named, rfl⟩
  · refine sound.finish closed sound.healthy ⟨rfl, fun _ saved => saved, fun _ => .inl⟩ idle ?_
    intro entry mem
    have inside := sound.mem_memTable flusherStopped mem
    rw [empty] at inside
    nomatch inside
  · apply sound.finish closed
    · exact sound.healthy.flush (.inl rfl) few some_entry written fresh named
    · exact .flush sound.healthy (.inl rfl) few some_entry written fresh
        fun _ => sound.healthy.numbered.of_active
    · refine ⟨rfl, fun table mem => idle.2 table ?_⟩
      rw [System.flushed_immutable] at mem
      exact mem_of_mem_eraseP mem
    · intro entry mem
      exact sound.healthy.saved_flushed (.inl rfl) few some_entry written
        (sound.mem_memTable flusherStopped mem)

/-- `Close` is called: nothing has been flushed yet. -/
theorem Sound.close (opened : ¬ s.system.engine.closed) :
    { s with
      system := { s.system with engine := { s.system.engine with closed := true } }
      held := inMemory s.system.engine
      closing := true }.Sound := by
  refine ⟨sound.healthy.of_same rfl rfl (fun _ job => job) .refl fun _ mem => mem,
    fun _ => rfl, fun _ entry mem => .inl mem, ?_, ?_⟩
  · exact fun stopped => absurd (sound.closed (.inr (.inr stopped))) opened
  · exact fun done => absurd (sound.closed (.inr (.inl done))) opened

theorem Sound.step {event : Event} (orderly : s.Orderly sizing event)
    (next : s.step sizing event = some s') : s'.Sound := by
  cases event with
  | work event =>
    obtain ⟨possible, next⟩ := ite_none_right_eq_some.mp next
    obtain ⟨system, worked, rfl⟩ := map_eq_some_iff.mp next
    exact sound.work possible orderly worked
  | failFlush now left =>
    simp only [Closable.step] at next
    split at next
    · nomatch next
    · cases next
      exact sound.move (sound.healthy.leave orderly left)
        fun stopped => ⟨rfl, (sound.flushed stopped).2⟩
  | finishCompaction now io =>
    simp only [Closable.step] at next
    split at next
    · nomatch next
    · rename_i level sources job
      obtain ⟨all, fresh⟩ := orderly _ job
      split at next
      · rename_i completed
        exact absurd completed (sound.healthy.compactWith_ne_ok job all)
      · nomatch next
      · cases next
        -- at most an empty file is left behind
        have files : Kept s.system.files (if io.creates then
            s.system.files.insert (Engine.outputPath level now) [] else s.system.files) := by
          split
          · exact .insert fresh []
          · exact .refl
        refine sound.move
          (sound.healthy.keep rfl rfl rfl rfl ?_ files fun _ mem => mem) sound.flushed
        rintro _ ⟨⟩
  | close =>
    obtain ⟨opened, next⟩ := ite_none_left_eq_some.mp next
    cases next
    exact sound.close opened
  | closeAgain =>
    obtain ⟨closed, next⟩ := ite_none_right_eq_some.mp next
    cases next
    exact ⟨sound.healthy, fun _ => closed, sound.kept, sound.flushed, fun _ => sound.saved orderly⟩
  | stopFlusher =>
    obtain ⟨idle, next⟩ := ite_none_right_eq_some.mp next
    cases next
    exact ⟨sound.healthy, fun _ => idle.1, sound.kept, fun _ => ⟨idle.2, orderly⟩, sound.saved⟩
  | stopCompactor =>
    obtain ⟨-, next⟩ := ite_none_right_eq_some.mp next
    cases next
    exact { sound with }
  | finish now =>
    obtain ⟨stopped, next⟩ := ite_none_right_eq_some.mp next
    obtain ⟨system, flushed, rfl⟩ := map_eq_some_iff.mp next
    exact sound.lastFlush orderly stopped flushed
  | failFinish now left => exact orderly.elim

end

/-- In every run whose flushes and compactions write to names of their own, whose compactions can
open the tables that they copy, whose flush worker stops only when the immutable memtables have
nothing left, and whose last flush succeeds, `Close` brings every entry to the disk. -/
theorem flushesAll_of_orderly (sizing : Sizing) (config : Config)
    (run : Runs.Reachable (step sizing) (Orderly sizing) (start config) s) : s.FlushesAll := by
  have sound : s.Sound := by
    refine run.invariant (I := Sound) (sound_start config) ?_
    intro s event s' sound orderly next
    exact sound.step orderly next
  exact sound.saved

/-- Two puts, of which the first is flushed by the worker and the second by `Close`. -/
theorem flushesAll_of_orderly_two :
    ∃ s, Runs.Reachable (step .decimal) (Orderly .decimal) (start { memTableSize := 67 }) s ∧
      s.returned ∧ s.held.length = 2 ∧ s.FlushesAll := by
  obtain ⟨s, run, returned, held⟩ := Runs.exists_of_exec (step .decimal) (Orderly .decimal)
    (start { memTableSize := 67 })
    [.work (.put [107] [49, 50] [] 1 1), .work (.put [108] [50] [] 2 2), .close,
      .work .startFlush, .work (.finishFlush 7), .stopFlusher, .stopCompactor, .finish 8]
    (P := fun s => s.returned ∧ s.held.length = 2) (by decide +kernel)
  exact ⟨s, run, returned, held, flushesAll_of_orderly .decimal { memTableSize := 67 } run⟩

/-- A put fills the memtable, and the flush worker stops before it takes the table: `Close` has
returned, and no file has the entry. -/
theorem not_flushesAll_waiting :
    ∃ s, Runs.Reachable (step .decimal) (fun _ _ => True) (start tiny) s ∧
      s.returned ∧ s.held.length = 1 ∧ s.system.files.keys = [] ∧ ¬ s.FlushesAll := by
  obtain ⟨s, run, returned, held, noFile⟩ :=
    Runs.exists_of_exec (step .decimal) (fun _ _ => True) (start tiny)
    [.work (.put [107] [49] [] 1 1), .close, .stopFlusher, .stopCompactor, .finish 7]
    (P := fun s => s.returned ∧ s.held.length = 1 ∧ s.system.files.keys = []) (by decide +kernel)
  refine ⟨s, run, returned, held, noFile, fun flushes => ?_⟩
  obtain ⟨entry, only⟩ := length_eq_one_iff.mp held
  obtain ⟨path, inside⟩ := flushes returned entry (by rw [only]; exact mem_singleton_self _)
  have missing : s.system.files.lookup path = none := by
    rw [AList.lookup_eq_none, AList.mem_keys, noFile]
    exact not_mem_nil
  exact not_mem_tableEntries missing _ inside

end Closable

end Hermes.Storage
