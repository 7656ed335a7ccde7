import Hermes.Storage.SSTable

/-!
# The storage engine

Writes go to the active memtable.  A full memtable becomes immutable and waits for the
flush worker, which makes it a table of level 0; the compaction worker merges the
tables of a level into one table of the next level.  Reads ask the memtables and then
the levels, the newest first.

Calls of the file system succeed.  The write-ahead log gives every write its timestamp
and its sequence number, and the coins are the draws for the towers of the skip list.
-/

namespace Hermes.Storage

open Clock (HLCTimestamp)
open Memtable Bloom SSTable List

structure Config where
  memTableSize : ℕ := 64 * 1024 * 1024
  maxLevel0SSTables : ℕ := 4
  deriving DecidableEq, Repr

/-- A memtable that is referred to from several places.  Tables are numbered in the
order in which they are made. -/
structure Table where
  id : ℕ
  list : Memtable.SkipList := {}

/-- The entry of a key in the first of several tables that has one. -/
def lookup (tables : List Table) (key : Key) : Option Entry :=
  tables.findSome? fun t => t.list.get key

abbrev Files := AList fun _ : Path => Bytes

structure Engine where
  config : Config
  memTable : Table := { id := 0 }
  immutable : List Table := []
  levels : List (List SSTableMeta) := List.replicate 7 []
  flushCh : List Table := []
  compactCh : List ℕ := []
  closed : Bool := false

/-- What a call may return instead of a value. -/
inductive EngineFault where
  | engineClosed
  | table (fault : Fault)
  deriving DecidableEq, Repr

namespace Engine

/-- `Open` on an empty directory. -/
def openEmpty (config : Config) : Engine :=
  { config := config }

/-- The memtables, the newest first. -/
def memory (e : Engine) : List Table :=
  e.memTable :: e.immutable.reverse

def flushChCap : ℕ := 4

def compactChCap : ℕ := 10

/-- What `putWithTimestamp` does once the write-ahead log has the write.  A full
memtable is handed to the flush worker unless four tables are waiting already. -/
def putWithTimestamp (e : Engine) (key : Key) (value : Bytes) (deleted : Bool)
    (coins : List Bool) (ts : HLCTimestamp) (seq : ℕ) : Except EngineFault Engine :=
  if e.closed then .error .engineClosed
  else
    let list := if deleted then e.memTable.list.delete coins key ts seq
      else e.memTable.list.put coins key value ts seq
    let table := { e.memTable with list := list }
    if list.size ≥ e.config.memTableSize then
      .ok { e with
        memTable := { id := e.memTable.id + 1 }
        immutable := e.immutable ++ [table]
        flushCh := if e.flushCh.length < flushChCap then e.flushCh ++ [table] else e.flushCh }
    else .ok { e with memTable := table }

/-! ## Reading -/

def openReader (files : Files) (path : Path) : Except Fault Reader :=
  match files.lookup path with
  | none => .error (.error (.cannotOpen path))
  | some file => do return { file := file, table := ← Reader.loadMeta path file }

def readFromSSTable (files : Files) (m : SSTableMeta) (key : Key) :
    Except Fault (Option Entry) := do
  if ← liftPanic (m.mightContain key) then (← openReader files m.path).get key
  else return none

/-- The tables of level 0, the newest first, until one has the key. -/
def readFromTables (files : Files) (key : Key) : List SSTableMeta → Except Fault (Option Entry)
  | [] => .ok none
  | m :: rest => do
    match ← readFromSSTable files m key with
    | some entry => return some entry
    | none => readFromTables files key rest

/-- The only table of a deeper level that may have the key. -/
def readFromLevel (files : Files) (tables : List SSTableMeta) (key : Key) :
    Except Fault (Option Entry) :=
  let reaches := fun i => (tables[i]?).any fun m => ¬ m.maxKey < key
  match tables[sortSearch reaches tables.length 0 tables.length]? with
  | none => .ok none
  | some m =>
    if key < m.minKey ∨ m.maxKey < key then .ok none else readFromSSTable files m key

/-- The levels below level 0 in their order. -/
def readFromLevels (files : Files) (key : Key) :
    List (List SSTableMeta) → Except Fault (Option Entry)
  | [] => .ok none
  | tables :: rest => do
    match ← readFromLevel files tables key with
    | some entry => return some entry
    | none => readFromLevels files key rest

def readFromDisk (e : Engine) (files : Files) (key : Key) : Except Fault (Option Entry) :=
  match e.levels with
  | [] => .ok none
  | level0 :: deeper => do
    match ← readFromTables files key level0.reverse with
    | some entry => return some entry
    | none => readFromLevels files key deeper

/-- `getAtTimestamp`; the timestamp zero asks for the latest entry. -/
def getAtTimestamp (e : Engine) (files : Files) (key : Key) (readTS : HLCTimestamp) :
    Except EngineFault (Option Bytes) :=
  if e.closed then .error .engineClosed
  else
    let found := e.memory.findSome? fun t =>
      if readTS = 0 then t.list.get key else t.list.getAtTimestamp key readTS
    match found with
    | some entry => .ok entry.visible
    | none =>
      match e.readFromDisk files key with
      | .error fault => .error (.table fault)
      | .ok entry => .ok (entry.bind Entry.visible)

/-- `Get`. -/
def get (e : Engine) (files : Files) (key : Key) : Except EngineFault (Option Bytes) :=
  e.getAtTimestamp files key 0

/-! ## Flushing -/

/-- The file that `flushMemTable` writes for the entries of a table. -/
def writeTable (sizing : Sizing) (path : Path) (entries : List Entry) :
    Except Fault (SSTableMeta × Bytes) := do
  let w ← liftPanic (entries.foldlM Writer.add (Writer.new sizing path entries.length))
  w.finish

/-- Remove a table from the immutable ones. -/
def dropTable (e : Engine) (table : Table) : Engine :=
  { e with immutable := e.immutable.eraseP fun t => t.id = table.id }

def addLevel0 (e : Engine) (m : SSTableMeta) : Engine :=
  { e with levels := e.levels.modify 0 (· ++ [m]) }

/-- Ask the compaction worker to merge level 0 if it has many tables. -/
def requestCompaction (e : Engine) : Engine :=
  if (e.levels[0]?.getD []).length ≥ e.config.maxLevel0SSTables ∧
      e.compactCh.length < compactChCap then
    { e with compactCh := e.compactCh ++ [0] }
  else e

@[simp]
theorem requestCompaction_memTable (e : Engine) : e.requestCompaction.memTable = e.memTable := by
  unfold requestCompaction
  split <;> rfl

@[simp]
theorem requestCompaction_immutable (e : Engine) : e.requestCompaction.immutable = e.immutable := by
  unfold requestCompaction
  split <;> rfl

@[simp]
theorem requestCompaction_flushCh (e : Engine) : e.requestCompaction.flushCh = e.flushCh := by
  unfold requestCompaction
  split <;> rfl

@[simp]
theorem requestCompaction_levels (e : Engine) : e.requestCompaction.levels = e.levels := by
  unfold requestCompaction
  split <;> rfl

@[simp]
theorem requestCompaction_closed (e : Engine) : e.requestCompaction.closed = e.closed := by
  unfold requestCompaction
  split <;> rfl

/-- `flushMemTable`; the clock reading names the file. -/
def flushMemTable (sizing : Sizing) (e : Engine) (files : Files) (table : Table) (now : ℕ) :
    Except Fault (Engine × Files) :=
  let entries := table.list.all
  if entries = [] then .ok (e, files)
  else do
    let path : Path := { level := 0, nanos := now }
    let (m, file) ← writeTable sizing path entries
    return (((e.addLevel0 m).dropTable table).requestCompaction, files.insert path file)

/-! ## Compaction -/

/-- `kWayMerge` on what the iterators yield: of the entries of a key the one with the
highest timestamp, the earliest on a tie. -/
def kWayMerge (tables : List (List Entry)) : List Entry :=
  let seen := tables.flatten.foldl
    (fun (seen : AList fun _ : Key => Entry) entry =>
      match seen.lookup entry.key with
      | none => seen.insert entry.key entry
      | some existing =>
        if entry.timestamp > existing.timestamp then seen.insert entry.key entry else seen)
    ∅
  (seen.entries.map Sigma.snd).mergeSort fun a b => ¬ b.key < a.key

/-- The readers of the source tables; a table that cannot be opened is left out. -/
def openSources (files : Files) : List SSTableMeta → Except Fault (List Reader)
  | [] => .ok []
  | m :: rest =>
    match openReader files m.path with
    | .error (.panic p) => .error (.panic p)
    | .error (.error _) => openSources files rest
    | .ok reader => do return reader :: (← openSources files rest)

/-- The table that a compaction writes.  The filter is made for no keys at all. -/
def writeMerged (sizing : Sizing) (path : Path) (lastLevel : Bool) (merged : List Entry) :
    Except Fault (SSTableMeta × Bytes) := do
  let kept := merged.filter fun entry => ¬ (entry.deleted ∧ lastLevel)
  let w ← liftPanic (kept.foldlM Writer.add (Writer.new sizing path 0))
  w.finish

/-- `compact` from the point where it has copied the tables of its level. -/
def compact (sizing : Sizing) (e : Engine) (files : Files) (level : ℕ)
    (sourceTables : List SSTableMeta) (now : ℕ) : Except Fault (Engine × Files) := do
  let nextLevel := level + 1
  let path : Path := { level := nextLevel, nanos := now }
  let readers ← openSources files sourceTables
  let merged := kWayMerge (← readers.mapM Reader.iterate)
  let (m, file) ← writeMerged sizing path (nextLevel = e.levels.length - 1) merged
  let levels := (e.levels.set level []).modify nextLevel (· ++ [{ m with level := nextLevel }])
  return ({ e with levels := levels },
    sourceTables.foldl (fun files m => files.erase m.path) (files.insert path file))

end Engine

/-! ## What the operations do -/

@[simp]
theorem lookup_cons (t : Table) (tables : List Table) (key : Key) :
    lookup (t :: tables) key = (t.list.get key).or (lookup tables key) := by
  unfold lookup
  rw [findSome?_cons]
  cases t.list.get key <;> rfl

theorem lookup_append (tables others : List Table) (key : Key) :
    lookup (tables ++ others) key = (lookup tables key).or (lookup others key) :=
  findSome?_append

namespace Engine

/-- The entry that a write makes. -/
def writtenEntry (key : Key) (value : Bytes) (deleted : Bool) (ts : HLCTimestamp) (seq : ℕ) :
    Entry :=
  { key := key, value := if deleted then [] else value, timestamp := ts, deleted := deleted,
    sequence := seq }

theorem visible_writtenEntry (key : Key) (value : Bytes) (deleted : Bool) (ts : HLCTimestamp)
    (seq : ℕ) :
    (writtenEntry key value deleted ts seq).visible = if deleted then none else some value := by
  cases deleted <;> rfl

section

variable {e e' : Engine} {key : Key} {value : Bytes} {deleted : Bool} {coins : List Bool}
  {ts : HLCTimestamp} {seq : ℕ}
  (written : e.putWithTimestamp key value deleted coins ts seq = .ok e')

include written

/-- A successful write: the entry is in the active memtable, or in the newest immutable
one if the memtable is full. -/
theorem putWithTimestamp_spec :
    ∃ table, table.id = e.memTable.id ∧
      (∀ k, table.list.get k = if k = key then some (writtenEntry key value deleted ts seq)
        else e.memTable.list.get k) ∧
      (e' = { e with memTable := table } ∨
        e' = { e with
          memTable := { id := e.memTable.id + 1 }
          immutable := e.immutable ++ [table]
          flushCh := if e.flushCh.length < flushChCap then e.flushCh ++ [table]
            else e.flushCh }) := by
  unfold putWithTimestamp at written
  split at written
  · cases written
  dsimp only at written
  have got : ∀ k, (if deleted then e.memTable.list.delete coins key ts seq
      else e.memTable.list.put coins key value ts seq).get k
      = if k = key then some (writtenEntry key value deleted ts seq)
        else e.memTable.list.get k := by
    intro k
    cases deleted with
    | true => exact SkipList.get_delete key ts seq k
    | false => exact SkipList.get_put key value ts seq k
  generalize (if deleted then e.memTable.list.delete coins key ts seq
    else e.memTable.list.put coins key value ts seq) = list at written got
  refine ⟨{ e.memTable with list := list }, rfl, got, ?_⟩
  split at written
  · cases written
    exact .inr rfl
  · cases written
    exact .inl rfl

/-- After a successful write the memory has the new entry, whether or not the memtable has
been rotated. -/
theorem lookup_putWithTimestamp (k : Key) :
    lookup e'.memory k = if k = key then some (writtenEntry key value deleted ts seq)
      else lookup e.memory k := by
  obtain ⟨table, -, got, result⟩ := putWithTimestamp_spec written
  have newest : lookup (table :: e.immutable.reverse) k
      = if k = key then some (writtenEntry key value deleted ts seq) else lookup e.memory k := by
    rw [lookup_cons, got]
    by_cases same : k = key
    · rw [if_pos same, if_pos same]
      rfl
    · rw [if_neg same, if_neg same, memory, lookup_cons]
  rw [← newest]
  rcases result with rfl | rfl
  · rfl
  · unfold memory
    rw [reverse_append]
    rfl

theorem levels_putWithTimestamp : e'.levels = e.levels ∧ e'.closed = e.closed := by
  obtain ⟨table, -, -, rfl | rfl⟩ := putWithTimestamp_spec written
  · exact ⟨rfl, rfl⟩
  · exact ⟨rfl, rfl⟩

end

variable {key : Key}

theorem counted_putWithTimestamp {e e' : Engine} {value : Bytes} {deleted : Bool}
    {coins : List Bool} {ts : HLCTimestamp} {seq : ℕ} (counted : e.memTable.list.Counted)
    (written : e.putWithTimestamp key value deleted coins ts seq = .ok e') :
    e'.memTable.list.Counted := by
  unfold putWithTimestamp at written
  split at written
  · cases written
  dsimp only at written
  have kept : (if deleted then e.memTable.list.delete coins key ts seq
      else e.memTable.list.put coins key value ts seq).Counted := by
    split
    · exact counted.delete key ts seq
    · exact counted.put key value ts seq
  generalize (if deleted then e.memTable.list.delete coins key ts seq
    else e.memTable.list.put coins key value ts seq) = list at written kept
  split at written
  · cases written
    exact SkipList.counted_empty
  · cases written
    exact kept

/-- The immutable memtables that are older than a given one, the newest first. -/
def olderThan (e : Engine) (table : Table) : List Table :=
  (e.immutable.takeWhile fun t => t.id ≠ table.id).reverse

variable {table : Table}

/-- Taking a table out of memory leaves the newer and the older ones, provided the number
identifies the table. -/
theorem memory_dropTable {e : Engine} (same : ∀ t ∈ e.immutable, t.id = table.id → t = table) :
    (e.dropTable table).memory = e.memory ∨
      ∃ newer, e.memory = newer ++ table :: e.olderThan table ∧
        (e.dropTable table).memory = newer ++ e.olderThan table := by
  unfold memory dropTable olderThan
  rcases exists_or_eq_self_of_eraseP (fun t => t.id = table.id) e.immutable with
    unchanged | ⟨t, front, back, others, found, split, erased⟩
  · left
    rw [unchanged]
  · right
    have isTable : t = table := by
      refine same t ?_ (of_decide_eq_true found)
      rw [split]
      exact mem_append_cons_self
    have older : (e.immutable.takeWhile fun t => t.id ≠ table.id) = front := by
      rw [split, takeWhile_append_of_pos, takeWhile_cons_of_neg, append_nil]
      · simpa using found
      · intro t mem
        simpa using others t mem
    refine ⟨e.memTable :: back.reverse, ?_, ?_⟩
    · rw [older, split, isTable]
      simp
    · rw [older, erased]
      simp

/-- Taking a table out of memory changes nothing for the keys that it does not have,
provided the number identifies the table. -/
theorem lookup_dropTable {e : Engine} (same : ∀ t ∈ e.immutable, t.id = table.id → t = table)
    (absent : table.list.get key = none) :
    lookup (e.dropTable table).memory key = lookup e.memory key := by
  rcases memory_dropTable same with unchanged | ⟨newer, before, after⟩
  · rw [unchanged]
  · rw [before, after, lookup_append, lookup_append, lookup_cons, absent, Option.none_or]

theorem readFromTables_eq_none {files : Files} {tables : List SSTableMeta}
    (listed : ∀ m ∈ tables, ∃ file, files.lookup m.path = some file ∧ Finished m file)
    (emptyKey : key = [] → ∀ m ∈ tables, m.minKey ≠ []) :
    readFromTables files key tables = .ok none := by
  induction tables with
  | nil => rfl
  | cons m rest ih =>
    have first : readFromSSTable files m key = .ok none := by
      obtain ⟨file, present, finished⟩ := listed m mem_cons_self
      obtain ⟨b, asked⟩ := finished.mightContain key
      unfold readFromSSTable
      cases b with
      | false =>
        rw [asked]
        rfl
      | true =>
        have named : key ≠ [] := by
          rintro rfl
          rw [SSTableMeta.mightContain_nil (emptyKey rfl m mem_cons_self)] at asked
          cases asked
        obtain ⟨filter, entries, opened⟩ := finished.opens m.path
        rw [asked]
        unfold openReader
        rw [present]
        dsimp only
        rw [opened]
        exact Reader.get_eq_none rfl named
    rw [readFromTables, first]
    exact ih (fun m mem => listed m (mem_cons_of_mem _ mem)) fun empty m mem =>
      emptyKey empty m (mem_cons_of_mem _ mem)

theorem readFromLevels_replicate (files : Files) (key : Key) (n : ℕ) :
    readFromLevels files key (List.replicate n []) = .ok none := by
  induction n with
  | zero => rfl
  | succ n ih => exact ih

variable {entries : List Entry}

/-- The writer of a table that has entries takes them all. -/
theorem writeTable_eq_finish (sizing : Sizing) (path : Path) (some_entry : entries ≠ []) :
    ∃ w, entries.foldlM Writer.add (Writer.new sizing path entries.length) = .ok w ∧
      w.filter.Fits ∧ w.path = path ∧ ((∀ entry ∈ entries, entry.key ≠ []) → w.minKey ≠ []) ∧
      writeTable sizing path entries = w.finish := by
  have fits : (Writer.new sizing path entries.length).filter.Fits :=
    BloomFilter.fits_new sizing (length_pos_iff.mpr some_entry)
  obtain ⟨w, added, fits', path_eq, minKey⟩ := Writer.foldlM_add fits entries
  refine ⟨w, added, fits', path_eq, fun keys => minKey keys (.inr some_entry), ?_⟩
  unfold writeTable liftPanic
  rw [added]
  rfl

/-- Writing a table that has entries succeeds as long as the file is not too large. -/
theorem writeTable_spec (sizing : Sizing) (path : Path) (some_entry : entries ≠ []) :
    writeTable sizing path entries = .error (.error .fileTooLarge) ∨
      ∃ m file, writeTable sizing path entries = .ok (m, file) ∧ Finished m file ∧
        m.path = path ∧ ((∀ entry ∈ entries, entry.key ≠ []) → m.minKey ≠ []) := by
  obtain ⟨w, -, fits, path_eq, minKey, written⟩ := writeTable_eq_finish sizing path some_entry
  rw [written]
  cases finished : w.finish with
  | error fault =>
    left
    unfold Writer.finish at finished
    dsimp only at finished
    split at finished
    · nomatch finished
    · exact finished.symm
  | ok result =>
    right
    obtain ⟨m, file⟩ := result
    obtain ⟨done, samePath, sameKey⟩ := Writer.finished fits finished
    refine ⟨m, file, rfl, done, samePath.trans path_eq, ?_⟩
    rw [sameKey]
    exact minKey

/-- A flush has nothing to write, fails because its file would be too large, or makes the table
one of level 0. -/
theorem flushMemTable_cases (sizing : Sizing) (e : Engine) (files : Files) (table : Table)
    (now : ℕ) :
    (table.list.all = [] ∧ e.flushMemTable sizing files table now = .ok (e, files)) ∨
      (table.list.all ≠ [] ∧
        writeTable sizing { level := 0, nanos := now } table.list.all
          = .error (.error .fileTooLarge) ∧
        e.flushMemTable sizing files table now = .error (.error .fileTooLarge)) ∨
      ∃ m file, table.list.all ≠ [] ∧
        writeTable sizing { level := 0, nanos := now } table.list.all = .ok (m, file) ∧
        Finished m file ∧ m.path = { level := 0, nanos := now } ∧
        ((∀ entry ∈ table.list.all, entry.key ≠ []) → m.minKey ≠ []) ∧
        e.flushMemTable sizing files table now =
          .ok (((e.addLevel0 m).dropTable table).requestCompaction,
            files.insert { level := 0, nanos := now } file) := by
  unfold flushMemTable
  dsimp only
  by_cases empty : table.list.all = []
  · exact .inl ⟨empty, if_pos empty⟩
  · rw [if_neg empty]
    rcases writeTable_spec sizing { level := 0, nanos := now } empty with
      failed | ⟨m, file, written, finished, named, known⟩
    · refine .inr (.inl ⟨empty, failed, ?_⟩)
      rw [failed]
      rfl
    · refine .inr (.inr ⟨m, file, empty, written, finished, named, known, ?_⟩)
      rw [written]
      rfl

theorem writeMerged_eq_panic (sizing : Sizing) (path : Path) {lastLevel : Bool}
    {merged : List Entry} {entry : Entry} (mem : entry ∈ merged)
    (kept : ¬ (entry.deleted ∧ lastLevel)) :
    writeMerged sizing path lastLevel merged = .error (.panic .divideByZero) := by
  unfold writeMerged
  have some_kept : entry ∈ merged.filter fun entry => ¬ (entry.deleted ∧ lastLevel) :=
    mem_filter.mpr ⟨mem, decide_eq_true kept⟩
  dsimp only
  rw [Writer.foldlM_add_new_zero sizing path (ne_nil_of_mem some_kept)]
  rfl

end Engine

end Hermes.Storage
