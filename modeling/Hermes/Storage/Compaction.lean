import Hermes.Storage.Engine

/-!
# Compaction

A compaction is to move the entries of a level into the next level and to keep the
newest entry of every key.  It does not get that far: the writer of the merged table is
made for no keys, so that its filter has no bits, and the first entry that it is given
divides by the number of bits.
-/

namespace Hermes.Storage

open AList Bloom List Memtable SSTable

namespace Engine

/-- The tables of a level. -/
def tablesOf (e : Engine) (level : ℕ) : List SSTableMeta :=
  e.levels[level]?.getD []

/-- `compact` of a level. -/
def compactLevel (sizing : Sizing) (e : Engine) (files : Files) (level now : ℕ) :
    Except Fault (Engine × Files) :=
  if level ≥ e.levels.length - 1 then .ok (e, files)
  else
    let sourceTables := e.tablesOf level
    if sourceTables = [] then .ok (e, files)
    else e.compact sizing files level sourceTables now

/-- What the iterators of some tables yield, table by table. -/
def readTables (files : Files) (tables : List SSTableMeta) : Except Fault (List (List Entry)) :=
  tables.mapM fun m => do (← openReader files m.path).iterate

end Engine

/-- An entry that no other entry of its key is newer than. -/
def Newest (entries : List Entry) (entry : Entry) : Prop :=
  entry ∈ entries ∧ ∀ other ∈ entries, other.key = entry.key → other.timestamp ≤ entry.timestamp

/-- What a compaction of a level is for: it completes, the newest entries of the level
and the next one are the same as before, and the next level has every key that the
level had. -/
def Engine.Compacts (sizing : Sizing) (e : Engine) (files : Files) (level now : ℕ) : Prop :=
  ∃ e' files', e.compactLevel sizing files level now = .ok (e', files') ∧
    ∃ source before next after,
      readTables files (e.tablesOf level) = .ok source ∧
      readTables files (e.tablesOf (level + 1)) = .ok before ∧
      readTables files' (e'.tablesOf (level + 1)) = .ok next ∧
      readTables files' (e'.tablesOf level) = .ok after ∧
      (∀ entry, Newest (source ++ before).flatten entry ↔ Newest (after ++ next).flatten entry) ∧
      ∀ entry ∈ source.flatten, ∃ moved ∈ next.flatten, moved.key = entry.key

namespace Engine

/-! ## The merge -/

/-- One round of the merge: keep an entry unless its key has one that is as new. -/
def keepNewer (seen : AList fun _ : Key => Entry) (entry : Entry) : AList fun _ : Key => Entry :=
  match seen.lookup entry.key with
  | none => seen.insert entry.key entry
  | some existing =>
    if entry.timestamp > existing.timestamp then seen.insert entry.key entry else seen

theorem kWayMerge_eq (tables : List (List Entry)) :
    kWayMerge tables = ((tables.flatten.foldl keepNewer ∅).entries.map Sigma.snd).mergeSort
      fun a b => ¬ b.key < a.key :=
  rfl

variable {seen : AList fun _ : Key => Entry}

theorem mem_keepNewer {entry : Entry} {key : Key} :
    key ∈ keepNewer seen entry ↔ key = entry.key ∨ key ∈ seen := by
  unfold keepNewer
  split
  · exact mem_insert seen
  · rename_i existing found
    split
    · exact mem_insert seen
    · have known : entry.key ∈ seen :=
        lookup_isSome.mp (Option.isSome_iff_exists.mpr ⟨existing, found⟩)
      exact ⟨.inr, fun either => either.elim (fun same => same ▸ known) id⟩

/-- The merge sees the keys of all entries. -/
theorem mem_foldl_keepNewer {entries : List Entry} {key : Key} :
    key ∈ entries.foldl keepNewer seen ↔ key ∈ seen ∨ key ∈ entries.map Entry.key := by
  induction entries generalizing seen with
  | nil => simp
  | cons entry rest ih =>
    rw [foldl_cons, ih, mem_keepNewer, map_cons, mem_cons]
    tauto

/-- The merge of tables that have an entry has an entry. -/
theorem kWayMerge_ne_nil {tables : List (List Entry)} (some_entry : tables.flatten ≠ []) :
    kWayMerge tables ≠ [] := by
  obtain ⟨entry, rest, split⟩ := exists_cons_of_ne_nil some_entry
  have seen : entry.key ∈ tables.flatten.foldl keepNewer ∅ := by
    rw [mem_foldl_keepNewer, split]
    exact .inr mem_cons_self
  intro empty
  have length := congrArg length empty
  rw [kWayMerge_eq, length_mergeSort, length_map, length_nil,
    length_eq_zero_iff] at length
  rw [AList.mem_keys, AList.keys, length] at seen
  nomatch seen

/-! ## What a compaction does -/

variable {read : List (List Entry)} {files : Files} {tables : List SSTableMeta}

theorem openSources_of_readTables (readable : readTables files tables = .ok read) :
    ∃ readers, openSources files tables = .ok readers ∧ readers.mapM Reader.iterate = .ok read := by
  induction tables generalizing read with
  | nil => exact ⟨[], rfl, readable⟩
  | cons m rest ih =>
    unfold readTables at readable
    rw [mapM_cons] at readable
    obtain ⟨entries, first, readable⟩ := bind_eq_ok.mp readable
    obtain ⟨others, readRest, same⟩ := bind_eq_ok.mp readable
    cases same
    obtain ⟨reader, opened, iterated⟩ := bind_eq_ok.mp first
    obtain ⟨readers, openedRest, iteratedRest⟩ := ih readRest
    refine ⟨reader :: readers, ?_, ?_⟩
    · rw [openSources, opened, openedRest]
      rfl
    · rw [mapM_cons, iterated, iteratedRest]
      rfl

/-- A compaction that has anything to move panics, unless it moves into the last level:
there it would leave deletions out. -/
theorem compact_eq_panic (sizing : Sizing) {e : Engine} {level now : ℕ}
    (above : level + 2 < e.levels.length) (readable : readTables files tables = .ok read)
    (some_entry : read.flatten ≠ []) :
    e.compact sizing files level tables now = .error (.panic .divideByZero) := by
  obtain ⟨readers, opened, iterated⟩ := openSources_of_readTables readable
  obtain ⟨entry, rest, merged⟩ := exists_cons_of_ne_nil (kWayMerge_ne_nil some_entry)
  have notLast : decide (level + 1 = e.levels.length - 1) = false := decide_eq_false (by omega)
  have failed : writeMerged sizing { level := level + 1, nanos := now }
      (decide (level + 1 = e.levels.length - 1)) (kWayMerge read)
        = .error (.panic .divideByZero) := by
    have moved : entry ∈ kWayMerge read := by
      rw [merged]
      exact mem_cons_self
    apply writeMerged_eq_panic sizing _ moved
    rw [notLast]
    exact fun both => nomatch both.2
  unfold compact
  rw [opened]
  show (readers.mapM Reader.iterate >>= _) = _
  rw [iterated]
  show (writeMerged _ _ _ (kWayMerge read) >>= _) = _
  rw [failed]
  rfl

theorem compactLevel_eq_panic (sizing : Sizing) {e : Engine} {level now : ℕ}
    (above : level + 2 < e.levels.length)
    (readable : readTables files (e.tablesOf level) = .ok read) (some_entry : read.flatten ≠ []) :
    e.compactLevel sizing files level now = .error (.panic .divideByZero) := by
  have sources : e.tablesOf level ≠ [] := by
    intro none
    rw [none] at readable
    cases readable
    exact some_entry rfl
  unfold compactLevel
  rw [if_neg (by omega)]
  rw [if_neg sources]
  exact compact_eq_panic sizing above readable some_entry

/-- No compaction of a level with an entry does what it is for. -/
theorem not_compacts (sizing : Sizing) {e : Engine} (seven : e.levels.length = 7) (files : Files)
    {level : ℕ} (upper : level ≤ 4) (now : ℕ) {read : List (List Entry)}
    (readable : readTables files (e.tablesOf level) = .ok read) (some_entry : read.flatten ≠ []) :
    ¬ e.Compacts sizing files level now := by
  rintro ⟨e', files', completed, _⟩
  rw [compactLevel_eq_panic sizing (by omega) readable some_entry] at completed
  nomatch completed

/-- An engine whose level 0 has one table with one entry. -/
def oneTable : Except Fault (Engine × Files) :=
  flushMemTable .decimal (openEmpty {}) ∅
    { id := 0, list := ({} : Memtable.SkipList).put [] [107] [49] 1 1 } 1

/-- The table of that engine can be read. -/
theorem readTables_oneTable :
    ∃ e files read, oneTable = .ok (e, files) ∧ e.levels.length = 7 ∧
      readTables files (e.tablesOf 0) = .ok read ∧ read.flatten ≠ [] := by
  obtain ⟨e, files, written, seven, readable⟩ : ∃ e files, oneTable = .ok (e, files) ∧
      e.levels.length = 7 ∧ readTables files (e.tablesOf 0) =
        .ok [[{ key := [107], value := [49], timestamp := 1 }]] := by
    decide +kernel
  exact ⟨e, files, _, written, seven, readable, by decide⟩

theorem not_compacts_oneTable :
    ∃ e files read, oneTable = .ok (e, files) ∧ e.levels.length = 7 ∧
      readTables files (e.tablesOf 0) = .ok read ∧ read.flatten ≠ [] ∧
      ¬ e.Compacts .decimal files 0 2 := by
  obtain ⟨e, files, read, written, seven, readable, some_entry⟩ := readTables_oneTable
  exact ⟨e, files, read, written, seven, readable, some_entry,
    not_compacts .decimal seven files (by decide) 2 readable some_entry⟩

/-- The compaction of that engine panics. -/
theorem compactLevel_oneTable :
    ∃ e files, oneTable = .ok (e, files) ∧
      e.compactLevel .decimal files 0 2 = .error (.panic .divideByZero) ∧
      ¬ e.Compacts .decimal files 0 2 := by
  obtain ⟨e, files, read, written, seven, readable, some_entry⟩ := readTables_oneTable
  have panics : e.compactLevel .decimal files 0 2 = .error (.panic .divideByZero) :=
    compactLevel_eq_panic .decimal (by omega) readable some_entry
  refine ⟨e, files, written, panics, ?_⟩
  rintro ⟨e', files', completed, _⟩
  rw [panics] at completed
  nomatch completed

end Engine

end Hermes.Storage
