import Hermes.Data.Runs
import Hermes.Storage.LastWrite

/-!
# Reads meet newer entries first

A read stops at the first table that has the key: the active memtable, the immutable
ones, the tables on disk.  That is right if what is asked first is newer.  Writes are
made one at a time and are numbered by the write-ahead log, and the flush worker may
fail.  A table that it could not write, or that it was never given, stays in memory
and is then asked before younger tables that are on disk.
-/

namespace Hermes.Storage

open Clock (HLCTimestamp)
open AList Bloom Function List Memtable Option SSTable

/-- A system with the number of its last write and, for every file name, the entries
that were last flushed to it. -/
structure Traced where
  system : System
  sequence : ℕ := 0
  sources : Path → List Entry := fun _ => []

namespace Traced

inductive Event where
  | put (key : Key) (value : Bytes) (coins : List Bool) (ts : HLCTimestamp)
  | delete (key : Key) (coins : List Bool) (ts : HLCTimestamp)
  | startFlush
  | finishFlush (now : ℕ)
  /-- A flush that a call of the file system makes fail, with what it leaves behind. -/
  | failFlush (now : ℕ) (left : Option Bytes)
  deriving DecidableEq, Repr

/-- An engine that has been opened on an empty directory. -/
def start (config : Config) : Traced :=
  { system := System.start config }

/-- The file that a flush of level 0 writes. -/
def flushPath (now : ℕ) : Path :=
  { level := 0, nanos := now }

/-- A write gets the next number of the log. -/
def write (sizing : Sizing) (s : Traced) (event : Storage.Event) : Option Traced :=
  (s.system.step sizing event).map fun system =>
    { s with system := system, sequence := s.sequence + 1 }

def step (sizing : Sizing) (s : Traced) : Event → Option Traced
  | .put key value coins ts => s.write sizing (.put key value coins ts (s.sequence + 1))
  | .delete key coins ts => s.write sizing (.delete key coins ts (s.sequence + 1))
  | .startFlush => s.system.startFlush.map fun system => { s with system := system }
  | .finishFlush now =>
    match s.system.flushing with
    | none => none
    | some table => (s.system.finishFlush sizing now).map fun system =>
      { s with
        system := system
        sources := Function.update s.sources (flushPath now) table.list.all }
  | .failFlush now left =>
    match s.system.flushing with
    | none => none
    | some _ =>
      let files := match left with
        | none => s.system.files
        | some file => s.system.files.insert (flushPath now) file
      some { s with system := { s.system with files := files, flushing := none } }

/-- The runs of the writers and the flush worker whose steps are all allowed. -/
def Reachable (sizing : Sizing) (config : Config) (allowed : Traced → Event → Prop) :
    Traced → Prop :=
  Runs.Reachable (step sizing) allowed (start config)

/-- The tables that the levels list. -/
def listed (s : Traced) : List SSTableMeta :=
  s.system.engine.levels.flatten

end Traced

/-- All of some entries were written before all of some others. -/
def Older (entries newer : List Entry) : Prop :=
  ∀ a ∈ entries, ∀ b ∈ newer, a.sequence < b.sequence

namespace Traced

/-- What a read relies on. -/
structure ReadOrder (s : Traced) : Prop where
  immutable : ∀ t ∈ s.system.engine.immutable, ∀ m ∈ s.listed, ∀ a ∈ t.list.all,
    ∀ b ∈ s.sources m.path, b.key = a.key → b.sequence < a.sequence
  active : ∀ t ∈ s.system.engine.immutable, Older t.list.all s.system.engine.memTable.list.all
  activeListed : ∀ m ∈ s.listed, Older (s.sources m.path) s.system.engine.memTable.list.all

/-- The files of the listed tables are those that flushes have made of the entries. -/
def Written (sizing : Sizing) (s : Traced) : Prop :=
  ∀ m ∈ s.listed, ∃ file, s.system.files.lookup m.path = some file ∧
    Engine.writeTable sizing m.path (s.sources m.path) = .ok (m, file)

/-- The condition on a step: a flush that succeeds finds no key of its table in an older
table that is still in memory, and no flush meets the name of a listed table. -/
def Orderly (s : Traced) : Event → Prop
  | .finishFlush now =>
    (∀ table ∈ s.system.flushing.toList, ∀ t ∈ s.system.engine.immutable, t.id < table.id →
      ∀ a ∈ table.list.all, t.list.get a.key = none) ∧
    ∀ m ∈ s.listed, m.path ≠ flushPath now
  | .failFlush now _ => ∀ m ∈ s.listed, m.path ≠ flushPath now
  | _ => True

instance (s : Traced) : DecidablePred s.Orderly := by
  rintro ⟨⟩ <;> delta Orderly <;> infer_instance

/-! ## The invariant -/

/-- The memtables that exist. -/
def tables (s : Traced) : List Table :=
  s.system.engine.memTable :: s.system.rotated

/-- The numbers of the writes follow the numbers of the memtables. -/
structure OK (sizing : Sizing) (s : Traced) : Prop where
  numbered : s.system.Numbered
  nodup : (s.system.engine.immutable.map Table.id).Nodup
  level0 : ∃ level0, s.system.engine.levels = level0 :: List.replicate 6 []
  bounded : ∀ t ∈ s.tables, ∀ a ∈ t.list.all, a.sequence ≤ s.sequence
  listedBounded : ∀ m ∈ s.listed, ∀ a ∈ s.sources m.path, a.sequence ≤ s.sequence
  separated : ∀ t ∈ s.tables, ∀ t' ∈ s.tables, t.id < t'.id → Older t.list.all t'.list.all
  immutable : ∀ t ∈ s.system.engine.immutable, ∀ m ∈ s.listed, ∀ a ∈ t.list.all,
    ∀ b ∈ s.sources m.path, b.key = a.key → b.sequence < a.sequence
  activeListed : ∀ m ∈ s.listed, Older (s.sources m.path) s.system.engine.memTable.list.all
  written : s.Written sizing

variable {sizing : Sizing} {s s' : Traced} {t : Table}

theorem mem_rotated_of_immutable (mem : t ∈ s.system.engine.immutable) : t ∈ s.system.rotated :=
  mem_append_left _ mem

theorem mem_tables_of_rotated (mem : t ∈ s.system.rotated) : t ∈ s.tables :=
  mem_cons_of_mem _ mem

/-- Rotated tables are older than the active one. -/
theorem OK.older_active (ok : s.OK sizing) (mem : t ∈ s.system.rotated) :
    Older t.list.all s.system.engine.memTable.list.all :=
  ok.separated t (mem_tables_of_rotated mem) _ mem_cons_self (ok.numbered.older t mem)

theorem OK.readOrder (ok : s.OK sizing) : s.ReadOrder where
  __ := ok
  active _ mem := ok.older_active (mem_rotated_of_immutable mem)

theorem OK.start (config : Config) : (start config).OK sizing where
  numbered := (System.start_represents config).numbered
  nodup := nodup_nil
  level0 := ⟨[], rfl⟩
  bounded := by
    intro t mem a inTable
    rw [mem_singleton.mp mem] at inTable
    nomatch inTable
  listedBounded := nofun
  separated := by
    intro t mem t' mem' less
    rw [mem_singleton.mp mem, mem_singleton.mp mem'] at less
    exact absurd less (lt_irrefl _)
  immutable := nofun
  activeListed := nofun
  written := nofun

/-- Nothing depends on the channels, on the worker and on files of other names. -/
theorem OK.of_same (ok : s.OK sizing)
    (memTable : s'.system.engine.memTable = s.system.engine.memTable)
    (immutable : s'.system.engine.immutable = s.system.engine.immutable)
    (levels : s'.system.engine.levels = s.system.engine.levels)
    (sequence : s'.sequence = s.sequence)
    (sources : ∀ m ∈ s.listed, s'.sources m.path = s.sources m.path)
    (files : ∀ m ∈ s.listed, s'.system.files.lookup m.path = s.system.files.lookup m.path)
    (kept : ∀ t ∈ s'.system.rotated, t ∈ s.system.rotated) : s'.OK sizing := by
  have listed : s'.listed = s.listed := by
    unfold Traced.listed
    rw [levels]
  have tables : ∀ t ∈ s'.tables, t ∈ s.tables := by
    intro t mem
    rcases mem_cons.mp mem with rfl | rotated
    · rw [memTable]
      exact mem_cons_self
    · exact mem_tables_of_rotated (kept t rotated)
  constructor
  · exact ok.numbered.mono kept (by rw [memTable])
  · rw [immutable]
    exact ok.nodup
  · rw [levels]
    exact ok.level0
  · intro t mem
    rw [sequence]
    exact ok.bounded t (tables t mem)
  · intro m mem
    rw [listed] at mem
    rw [sequence, sources m mem]
    exact ok.listedBounded m mem
  · exact fun t mem t' mem' => ok.separated t (tables t mem) t' (tables t' mem')
  · intro t mem m inLevel
    rw [immutable] at mem
    rw [listed] at inLevel
    rw [sources m inLevel]
    exact ok.immutable t mem m inLevel
  · intro m mem
    rw [listed] at mem
    rw [sources m mem, memTable]
    exact ok.activeListed m mem
  · intro m mem
    rw [listed] at mem
    rw [sources m mem, files m mem]
    exact ok.written m mem

/-! ### Writes -/

/-- The active memtable with one more write. -/
structure Extends (s : Traced) (table : Table) : Prop where
  id : table.id = s.system.engine.memTable.id
  entries : ∀ a ∈ table.list.all,
    a.sequence = s.sequence + 1 ∨ a ∈ s.system.engine.memTable.list.all

theorem Extends.of_get {table : Table} {key : Key} {entry : Entry}
    (id : table.id = s.system.engine.memTable.id) (sequence : entry.sequence = s.sequence + 1)
    (got : ∀ k, table.list.get k =
      if k = key then some entry else s.system.engine.memTable.list.get k) :
    s.Extends table where
  id := id
  entries := by
    intro a mem
    have found := SkipList.mem_all.mp mem
    rw [got] at found
    split at found
    · cases found
      exact .inl sequence
    · exact .inr (SkipList.mem_all.mpr found)

section

variable {table : Table} (written : s.Extends table)

include written

/-- Whatever is older than the active memtable and than the new write is older than the
two together. -/
theorem Extends.older {entries : List Entry}
    (before : Older entries s.system.engine.memTable.list.all)
    (bounded : ∀ a ∈ entries, a.sequence ≤ s.sequence) : Older entries table.list.all := by
  intro a mem b inTable
  rcases written.entries b inTable with new | old
  · rw [new]
    exact Nat.lt_succ_of_le (bounded a mem)
  · exact before a mem b old

variable (ok : s.OK sizing)

include ok

theorem Extends.bounded {a : Entry} (mem : a ∈ table.list.all) : a.sequence ≤ s.sequence + 1 := by
  rcases written.entries a mem with new | old
  · exact le_of_eq new
  · exact Nat.le_succ_of_le (ok.bounded _ mem_cons_self a old)

theorem Extends.rotated_older (mem : t ∈ s.system.rotated) : Older t.list.all table.list.all :=
  written.older (ok.older_active mem) (ok.bounded t (mem_tables_of_rotated mem))

theorem Extends.listed_older {m : SSTableMeta} (mem : m ∈ s.listed) :
    Older (s.sources m.path) table.list.all :=
  written.older (ok.activeListed m mem) (ok.listedBounded m mem)

/-- A write into a memtable that has room. -/
theorem OK.extend :
    OK sizing { s with
      system := { s.system with engine := { s.system.engine with memTable := table } }
      sequence := s.sequence + 1 } where
  __ := ok
  numbered := by
    apply ok.numbered.mono
    · exact fun _ mem => mem
    · exact written.id
  bounded := by
    intro t mem a inTable
    rcases mem_cons.mp mem with rfl | rotated
    · exact written.bounded ok inTable
    · exact Nat.le_succ_of_le (ok.bounded t (mem_tables_of_rotated rotated) a inTable)
  listedBounded m mem a inTable := Nat.le_succ_of_le (ok.listedBounded m mem a inTable)
  separated := by
    intro t mem t' mem' less
    rcases mem_cons.mp mem with rfl | rotated
    · rcases mem_cons.mp mem' with rfl | rotated'
      · exact absurd less (lt_irrefl _)
      · have := ok.numbered.older t' rotated'
        have := written.id
        omega
    · rcases mem_cons.mp mem' with rfl | rotated'
      · exact written.rotated_older ok rotated
      · exact ok.separated t (mem_tables_of_rotated rotated) t'
          (mem_tables_of_rotated rotated') less
  activeListed _ mem := written.listed_older ok mem

/-- The state after a write that fills the memtable. -/
def rotate (s : Traced) (table : Table) (flushCh : List Table) : Traced :=
  { s with
    system := { s.system with
      engine := { s.system.engine with
        memTable := { id := s.system.engine.memTable.id + 1 }
        immutable := s.system.engine.immutable ++ [table]
        flushCh := flushCh } }
    sequence := s.sequence + 1 }

/-- The full memtable joins the immutable ones as the youngest of them. -/
theorem OK.rotate {flushCh : List Table}
    (kept : ∀ t ∈ (s.rotate table flushCh).system.rotated, t ∈ s.system.rotated ∨ t = table) :
    (s.rotate table flushCh).OK sizing where
  __ := ok
  numbered := ok.numbered.rotate written.id rfl kept
  nodup := by
    show ((s.system.engine.immutable ++ [table]).map Table.id).Nodup
    rw [map_append, nodup_append]
    refine ⟨ok.nodup, nodup_singleton _, ?_⟩
    intro id old id' new
    obtain ⟨t, mem, rfl⟩ := mem_map.mp old
    rw [mem_singleton.mp new, written.id]
    exact ne_of_lt (ok.numbered.older t (mem_rotated_of_immutable mem))
  bounded := by
    intro t mem a inTable
    rcases mem_cons.mp mem with rfl | rotated
    · nomatch inTable
    · rcases kept t rotated with old | rfl
      · exact Nat.le_succ_of_le (ok.bounded t (mem_tables_of_rotated old) a inTable)
      · exact written.bounded ok inTable
  listedBounded m mem a inTable := Nat.le_succ_of_le (ok.listedBounded m mem a inTable)
  separated := by
    intro t mem t' mem' less
    rcases mem_cons.mp mem' with rfl | rotated'
    · intro _ _ _ inFresh
      nomatch inFresh
    · rcases mem_cons.mp mem with rfl | rotated
      · intro _ inFresh
        nomatch inFresh
      · rcases kept t rotated with old | rfl
        · rcases kept t' rotated' with old' | rfl
          · exact ok.separated t (mem_tables_of_rotated old) t' (mem_tables_of_rotated old') less
          · exact written.rotated_older ok old
        · rcases kept t' rotated' with old' | rfl
          · have := ok.numbered.older t' old'
            have := written.id
            omega
          · exact absurd less (lt_irrefl _)
  immutable := by
    intro t mem m inLevel a inTable b inSource sameKey
    rcases mem_append.mp mem with old | new
    · exact ok.immutable t old m inLevel a inTable b inSource sameKey
    · rw [mem_singleton.mp new] at inTable
      exact written.listed_older ok inLevel b inSource a inTable
  activeListed := by
    intro _ _ _ _ _ inFresh
    nomatch inFresh

end

/-- A write keeps the order: its number is the highest so far. -/
theorem OK.write (ok : s.OK sizing) {key : Key} {value : Bytes} {deleted : Bool}
    {coins : List Bool} {ts : HLCTimestamp} {e : Engine}
    (written : s.system.engine.putWithTimestamp key value deleted coins ts (s.sequence + 1)
      = .ok e) :
    OK sizing { s with system := { s.system with engine := e }, sequence := s.sequence + 1 } := by
  obtain ⟨table, id, got, rfl | rfl⟩ := Engine.putWithTimestamp_spec written
  · exact ok.extend (.of_get id rfl got)
  · exact ok.rotate (.of_get id rfl got) fun _ => System.mem_rotated_rotate

/-! ### The flush worker -/

/-- The state after a flush has made a table of level 0. -/
def flushed (s : Traced) (table : Table) (now : ℕ) (m : SSTableMeta) (file : Bytes) : Traced :=
  { s with
    system := s.system.flushed table (flushPath now) m file
    sources := Function.update s.sources (flushPath now) table.list.all }

section Flush

variable {table : Table} {now : ℕ} {m : SSTableMeta} {file : Bytes}

theorem flushed_system :
    (s.flushed table now m file).system = s.system.flushed table (flushPath now) m file :=
  rfl

theorem mem_tables_flushed (mem : t ∈ (s.flushed table now m file).tables) : t ∈ s.tables := by
  rcases mem_cons.mp mem with rfl | rotated
  · rw [flushed_system, System.flushed_memTable]
    exact mem_cons_self
  · exact mem_tables_of_rotated (System.mem_rotated_flushed rotated)

variable (ok : s.OK sizing)

include ok

variable {m' : SSTableMeta}

theorem mem_listed_flushed (mem : m' ∈ (s.flushed table now m file).listed) :
    m' ∈ s.listed ∨ m' = m := by
  obtain ⟨level0, levels⟩ := ok.level0
  have levels' : (s.flushed table now m file).system.engine.levels =
      (level0 ++ [m]) :: replicate 6 [] := System.flushed_levels levels
  unfold Traced.listed at mem ⊢
  rw [levels'] at mem
  rw [levels]
  simpa using mem

theorem OK.ne_of_mem_eraseP (mem : t ∈ s.system.engine.immutable.eraseP fun t => t.id = table.id) :
    t.id ≠ table.id := by
  have erased : t.id ∈ (s.system.engine.immutable.map Table.id).erase table.id := by
    rw [erase_eq_eraseP', eraseP_map]
    exact mem_map_of_mem mem
  exact (ok.nodup.mem_erase_iff.mp erased).1

/-- What the tables of level 0 were written from: the new one from the flushed table, the
others as before. -/
theorem sources_flushed (fresh : ∀ m' ∈ s.listed, m'.path ≠ flushPath now)
    (named : m.path = flushPath now) (mem : m' ∈ (s.flushed table now m file).listed) :
    (m' ∈ s.listed ∧ (s.flushed table now m file).sources m'.path = s.sources m'.path) ∨
      (m' = m ∧ (s.flushed table now m file).sources m'.path = table.list.all) := by
  rcases mem_listed_flushed ok mem with old | rfl
  · exact .inl ⟨old, update_of_ne (fresh m' old) _ _⟩
  · refine .inr ⟨rfl, ?_⟩
    rw [named]
    exact update_self _ _ _

variable (taken : s.system.flushing = some table) (orderly : s.Orderly (.finishFlush now))

include taken orderly

/-- The flushed table is older than the tables that stay in memory, as far as they share
keys. -/
theorem OK.immutable_flushed (mem : t ∈ (s.flushed table now m file).system.engine.immutable)
    {a b : Entry} (inTable : a ∈ t.list.all) (flushed : b ∈ table.list.all)
    (sameKey : b.key = a.key) : b.sequence < a.sequence := by
  rw [flushed_system, System.flushed_immutable] at mem
  have stays := mem_of_mem_eraseP mem
  rcases lt_or_gt_of_ne (ok.ne_of_mem_eraseP mem) with older | younger
  · have absent := orderly.1 table (by rw [taken]; exact mem_singleton_self _) t stays older b
      flushed
    rw [sameKey, SkipList.mem_all.mp inTable] at absent
    nomatch absent
  · exact ok.separated table (mem_tables_of_rotated (System.mem_rotated_of_flushing taken)) t
      (mem_tables_of_rotated (mem_rotated_of_immutable stays)) younger b flushed a inTable

/-- A flush keeps the order if the table has no key of an older one that stays in
memory. -/
theorem OK.flushed (named : m.path = flushPath now)
    (written : Engine.writeTable sizing (flushPath now) table.list.all = .ok (m, file)) :
    (s.flushed table now m file).OK sizing := by
  have fresh := orderly.2
  have inRotated : table ∈ s.system.rotated := System.mem_rotated_of_flushing taken
  constructor
  case numbered =>
    apply ok.numbered.mono
    · exact fun _ => System.mem_rotated_flushed
    · rw [flushed_system, System.flushed_memTable]
  case nodup =>
    rw [flushed_system, System.flushed_immutable]
    exact ok.nodup.sublist (Sublist.map _ eraseP_sublist)
  case level0 =>
    obtain ⟨level0, levels⟩ := ok.level0
    exact ⟨_, System.flushed_levels levels⟩
  case bounded => exact fun t mem => ok.bounded t (mem_tables_flushed mem)
  case listedBounded =>
    intro m' mem
    rcases sources_flushed ok fresh named mem with ⟨old, same⟩ | ⟨_, same⟩
    · rw [same]
      exact ok.listedBounded m' old
    · rw [same]
      exact ok.bounded table (mem_tables_of_rotated inRotated)
  case separated =>
    exact fun t mem t' mem' =>
      ok.separated t (mem_tables_flushed mem) t' (mem_tables_flushed mem')
  case immutable =>
    intro t mem m' inLevel a inTable b inSource sameKey
    rcases sources_flushed ok fresh named inLevel with ⟨old, same⟩ | ⟨_, same⟩
    · rw [same] at inSource
      rw [flushed_system, System.flushed_immutable] at mem
      exact ok.immutable t (mem_of_mem_eraseP mem) m' old a inTable b inSource sameKey
    · rw [same] at inSource
      exact ok.immutable_flushed taken orderly mem inTable inSource sameKey
  case activeListed =>
    intro m' mem
    rw [flushed_system, System.flushed_memTable]
    rcases sources_flushed ok fresh named mem with ⟨old, same⟩ | ⟨_, same⟩
    · rw [same]
      exact ok.activeListed m' old
    · rw [same]
      exact ok.older_active inRotated
  case written =>
    intro m' mem
    rcases sources_flushed ok fresh named mem with ⟨old, same⟩ | ⟨rfl, same⟩
    · rw [same]
      obtain ⟨file', stored, made⟩ := ok.written m' old
      refine ⟨file', ?_, made⟩
      rw [← stored]
      exact lookup_insert_ne (fresh m' old)
    · rw [same, named]
      exact ⟨file, lookup_insert s.system.files, written⟩

end Flush

theorem OK.step {event : Event} (ok : s.OK sizing) (orderly : s.Orderly event)
    (next : s.step sizing event = some s') : s'.OK sizing := by
  cases event with
  | put key value coins ts | delete key coins ts =>
    simp only [Traced.step, Traced.write, System.step, map_eq_some_iff,
      toOption_eq_some] at next
    obtain ⟨_, ⟨e, written, rfl⟩, rfl⟩ := next
    exact ok.write written
  | startFlush =>
    simp only [Traced.step, map_eq_some_iff] at next
    obtain ⟨system, next, rfl⟩ := next
    obtain ⟨table, rest, rfl, kept⟩ := System.startFlush_eq_some next
    exact ok.of_same rfl rfl rfl rfl (fun _ _ => rfl) (fun _ _ => rfl) kept
  | finishFlush now =>
    simp only [Traced.step] at next
    split at next
    · cases next
    · rename_i table taken
      obtain ⟨system, ended, rfl⟩ := map_eq_some_iff.mp next
      obtain ⟨table', taken', rfl | ⟨m, file, -, written, -, named, -, rfl⟩⟩ :=
        System.finishFlush_eq_some ended
      · exact ok.of_same rfl rfl rfl rfl (fun m mem => update_of_ne (orderly.2 m mem) _ _)
          (fun _ _ => rfl) fun _ => System.mem_rotated_release
      · cases taken.symm.trans taken'
        exact ok.flushed taken orderly named written
  | failFlush now left =>
    simp only [Traced.step] at next
    split at next
    · cases next
    · cases next
      refine ok.of_same rfl rfl rfl rfl (fun _ _ => rfl) ?_ fun _ => System.mem_rotated_release
      intro m mem
      cases left with
      | none => rfl
      | some file => exact lookup_insert_ne (orderly m mem)

theorem Reachable.ok {config : Config} (reachable : Reachable sizing config Orderly s) :
    s.OK sizing :=
  Runs.Reachable.invariant (OK.start config) (fun _ _ _ ok orderly next => ok.step orderly next)
    reachable

end Traced

/-- In every run in which no flush leaves an older table with one of its keys behind, and
no two tables get the same name, a read meets newer entries first.  The files hold the
entries that the order is about. -/
theorem readOrder_of_orderly (sizing : Sizing) (config : Config) {s : Traced}
    (reachable : Traced.Reachable sizing config Traced.Orderly s) :
    s.ReadOrder ∧ s.Written sizing :=
  ⟨reachable.ok.readOrder, reachable.ok.written⟩

/-- A key is written twice, and the older table is flushed first. -/
theorem readOrder_overwritten :
    ∃ s, Traced.Reachable .decimal tiny Traced.Orderly s ∧ s.listed ≠ [] ∧ s.ReadOrder := by
  refine Runs.exists_of_exec_and (Traced.step .decimal) Traced.Orderly (.start tiny)
    [.put [107] [49] [] 1, .put [107] [50] [true] 2, .startFlush, .finishFlush 7]
    (by decide +kernel) fun s reachable _ => ?_
  exact (readOrder_of_orderly .decimal tiny reachable).1

/-- The flush of the first table fails, that of the second one succeeds: the older value is
in memory and the newer one on disk, and a read returns the older one. -/
theorem not_readOrder_failed :
    ∃ s, Traced.Reachable .decimal tiny (fun _ _ => True) s ∧ ¬ s.ReadOrder ∧
      s.system.get [107] = .ok (some [49]) := by
  let events : List Traced.Event :=
    [.put [107] [49] [] 1, .startFlush, .failFlush 5 none, .put [107] [50] [] 2, .startFlush,
      .finishFlush 7]
  obtain ⟨s, reachable, ⟨t, mem, m, listed, a, inTable, b, inSource, sameKey, notOlder⟩, read⟩ :=
    Runs.exists_of_exec (Traced.step .decimal) (fun _ _ => True) (.start tiny) events
      (P := fun s => (∃ t ∈ s.system.engine.immutable, ∃ m ∈ s.listed, ∃ a ∈ t.list.all,
        ∃ b ∈ s.sources m.path, b.key = a.key ∧ ¬ b.sequence < a.sequence) ∧
        s.system.get [107] = .ok (some [49])) (by decide +kernel)
  refine ⟨s, reachable, fun order => ?_, read⟩
  exact notOlder (order.immutable t mem m listed a inTable b inSource sameKey)

end Hermes.Storage
