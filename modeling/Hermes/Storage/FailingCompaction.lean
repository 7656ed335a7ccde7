import Hermes.Storage.Compaction

/-!
# Compaction with failures

`compact` meets failures of the file system in different ways: a source table that cannot
be opened is left out, an error while reading a table or while creating or finishing the
new one ends the compaction, and the result of `Add` is not looked at.  Whoever gets
through to the end empties the level and removes the files of all the source tables, also
of those that were left out.
-/

namespace Hermes.Storage

open AList Bloom List Memtable SSTable

/-- Which calls of the file system succeed during a compaction.  A failed write is noticed
when the table is finished. -/
structure CompactionCalls where
  /-- Opening the source tables, by their places in the level. -/
  opens : ℕ → Bool := fun _ => true
  /-- Reading the blocks of the source tables. -/
  reads : ℕ → ℕ → Bool := fun _ _ => true
  creates : Bool := true
  finishes : Bool := true

inductive CompactionFault where
  | panic (cause : Panic)
  | source (cause : TableError)
  | create
  | finish
  deriving DecidableEq, Repr

def CompactionFault.ofFault : Fault → CompactionFault
  | .panic cause => .panic cause
  | .error cause => .source cause

namespace Engine

/-- The readers of the source tables from place `k` on; a table that cannot be opened is
left out. -/
def openSourcesWith (io : CompactionCalls) (files : Files) :
    (k : ℕ) → List SSTableMeta → Except CompactionFault (List (ℕ × Reader))
  | _, [] => .ok []
  | k, m :: rest =>
    if io.opens k then
      match openReader files m.path with
      | .error (.panic p) => .error (.panic p)
      | .error (.error _) => openSourcesWith io files (k + 1) rest
      | .ok reader => do return (k, reader) :: (← openSourcesWith io files (k + 1) rest)
    else openSourcesWith io files (k + 1) rest

/-- The source tables that are opened, which are those that are merged. -/
def opened (io : CompactionCalls) (files : Files) (sourceTables : List SSTableMeta) :
    List SSTableMeta :=
  (sourceTables.zipIdx.filter fun (m, k) => io.opens k && (openReader files m.path).isOk).map
    Prod.fst

/-- Every source table can be opened. -/
def OpensAll (io : CompactionCalls) (files : Files) (sourceTables : List SSTableMeta) : Prop :=
  ∀ source ∈ sourceTables.zipIdx,
    (io.opens source.2 && (openReader files source.1.path).isOk) = true
  deriving Decidable

/-- What the iterator of the table at place `k` yields until it ends. -/
def iterateWith (io : CompactionCalls) (source : ℕ × Reader) :
    Except CompactionFault (List Entry) := do
  let blocks ← source.2.table.index.zipIdx.mapM fun (entry, b) =>
    if io.reads source.1 b then
      (source.2.readBlock entry.offset entry.length).mapError .ofFault
    else .error (.source .blockUnreadable)
  return blocks.flatMap decodeBlock

/-- The name of the table that a compaction writes. -/
def outputPath (level now : ℕ) : Path :=
  { level := level + 1, nanos := now }

/-- The entries that a compaction writes: deletions are left out of the last level. -/
def keptEntries (lastLevel : Bool) (merged : List Entry) : List Entry :=
  merged.filter fun entry => ¬ (entry.deleted ∧ lastLevel)

/-- `compact` of a level that has tables. -/
def compactWith (io : CompactionCalls) (sizing : Sizing) (e : Engine) (files : Files) (level : ℕ)
    (sourceTables : List SSTableMeta) (now : ℕ) : Except CompactionFault (Engine × Files) := do
  let nextLevel := level + 1
  let readers ← openSourcesWith io files 0 sourceTables
  if ¬ io.creates then throw .create
  let merged := kWayMerge (← readers.mapM (iterateWith io))
  let w ← ((keptEntries (nextLevel = e.levels.length - 1) merged).foldlM Writer.add
    (Writer.new sizing (outputPath level now) 0)).mapError .panic
  if ¬ io.finishes then throw .finish
  let (m, file) ← w.finish.mapError fun _ => .finish
  let levels := (e.levels.set level []).modify nextLevel (· ++ [{ m with level := nextLevel }])
  return ({ e with levels := levels },
    sourceTables.foldl (fun files m => files.erase m.path)
      (files.insert (outputPath level now) file))

/-! ## Compactions that get through to the end -/

/-- The table without entries. -/
def emptyTable (sizing : Sizing) (path : Path) : SSTableMeta where
  path := path
  fileSize := (Writer.new sizing path 0).file.length
  filter := some (BloomFilter.new sizing 0)

theorem length_file_new_zero (sizing : Sizing) (path : Path) :
    (Writer.new sizing path 0).file.length = 84 := by
  have bits : (BloomFilter.new sizing 0).bitset = [] := by
    unfold BloomFilter.new
    rw [sizing.bits_zero]
    rfl
  have bloom : (BloomFilter.new sizing 0).serialize.length = 16 := by
    unfold BloomFilter.serialize
    rw [bits]
    simp
  simp [Writer.file, Writer.new, bloom, encodeIndex, footerSize]

theorem finish_new_zero (sizing : Sizing) (path : Path) :
    (Writer.new sizing path 0).finish =
      .ok (emptyTable sizing path, (Writer.new sizing path 0).file) := by
  have unchanged : (Writer.new sizing path 0).flushBlock = Writer.new sizing path 0 :=
    if_pos rfl
  unfold Writer.finish
  rw [unchanged, if_pos (by rw [length_file_new_zero]; decide)]
  rfl

/-- The engine and the files after a compaction that has found nothing to write. -/
def emptied (sizing : Sizing) (e : Engine) (files : Files) (level : ℕ)
    (sourceTables : List SSTableMeta) (now : ℕ) : Engine × Files :=
  ({ e with
      levels := (e.levels.set level []).modify (level + 1)
        (· ++ [{ emptyTable sizing (outputPath level now) with level := level + 1 }]) },
    sourceTables.foldl (fun files m => files.erase m.path)
      (files.insert (outputPath level now) (Writer.new sizing (outputPath level now) 0).file))

/-- A compaction finds nothing to write: the tables that can be opened are read to their
ends and have no entry, or only deletions that the last level does without. -/
def NothingKept (io : CompactionCalls) (e : Engine) (files : Files) (level : ℕ)
    (sourceTables : List SSTableMeta) : Prop :=
  ∃ readers read, openSourcesWith io files 0 sourceTables = .ok readers ∧
    readers.mapM (iterateWith io) = .ok read ∧
    ∀ entry ∈ kWayMerge read, entry.deleted ∧ level + 1 = e.levels.length - 1

theorem keptEntries_eq_nil {lastLevel : Prop} [Decidable lastLevel] {merged : List Entry} :
    keptEntries (decide lastLevel) merged = [] ↔ ∀ entry ∈ merged, entry.deleted ∧ lastLevel := by
  unfold keptEntries
  simp

variable {sourceTables : List SSTableMeta} {result : Engine × Files} {files : Files}
  {sizing : Sizing} {io : CompactionCalls} {level now : ℕ} {e : Engine}

/-- A compaction completes exactly when the new table can be created and finished and there
is nothing to write into it. -/
theorem compactWith_eq_ok_iff :
    e.compactWith io sizing files level sourceTables now = .ok result ↔
      io.creates = true ∧ io.finishes = true ∧ NothingKept io e files level sourceTables ∧
        result = e.emptied sizing files level sourceTables now := by
  unfold compactWith NothingKept
  cases opened : openSourcesWith io files 0 sourceTables with
  | error fault => simp [bind, Except.bind]
  | ok readers =>
    cases creates : io.creates with
    | false => simp [bind, Except.bind]
    | true =>
      cases iterated : readers.mapM (iterateWith io) with
      | error fault => simp [bind, Except.bind, iterated]
      | ok read =>
        by_cases nothing : keptEntries (level + 1 = e.levels.length - 1) (kWayMerge read) = []
        · have all := keptEntries_eq_nil.mp nothing
          cases finishes : io.finishes with
          | false =>
            simp [bind, Except.bind, iterated, nothing, Except.mapError, pure, Except.pure]
          | true =>
            simp only [bind, Except.bind, iterated, nothing, Except.mapError, pure,
              Except.pure, finish_new_zero, foldlM_nil, not_true_eq_false, if_false,
              Except.ok.injEq, true_and]
            exact ⟨fun same => ⟨⟨readers, read, rfl, iterated, all⟩, same.symm⟩,
              fun both => both.2.symm⟩
        · have panics := Writer.foldlM_add_new_zero sizing (outputPath level now) nothing
          simp only [bind, Except.bind, iterated, panics, Except.mapError,
            not_true_eq_false, if_false, reduceCtorEq, Except.ok.injEq, false_iff]
          rintro ⟨_, _, ⟨_, _, rfl, iterated', all⟩, _⟩
          cases iterated.symm.trans iterated'
          exact nothing (keptEntries_eq_nil.mpr all)

theorem OpensAll.opened_eq (all : OpensAll io files sourceTables) :
    opened io files sourceTables = sourceTables := by
  rw [opened, filter_eq_self.mpr all, zipIdx_map_fst]

theorem mapError_eq_ok {α ε ε' : Type} {x : Except ε α} {f : ε → ε'} {a : α} :
    x.mapError f = .ok a ↔ x = .ok a := by
  cases x <;> simp [Except.mapError]

theorem iterate_of_iterateWith {source : ℕ × Reader} {entries : List Entry}
    (iterated : iterateWith io source = .ok entries) : source.2.iterate = .ok entries := by
  obtain ⟨blocks, read, same⟩ := bind_eq_ok.mp iterated
  cases same
  refine bind_eq_ok.mpr ⟨blocks, ?_, rfl⟩
  rw [mapM_eq_ok] at read ⊢
  rw [← zipIdx_map_fst 0 source.2.table.index, forall₂_map_left_iff]
  refine read.imp fun x block one => ?_
  dsimp only at one
  split at one
  · exact mapError_eq_ok.mp one
  · nomatch one

/-- A compaction above the last level does not get through to the end if its first table can be
opened and has an entry. -/
theorem compactWith_ne_ok {m : SSTableMeta} {rest : List SSTableMeta} {entries : List Entry}
    (all : OpensAll io files (m :: rest)) (above : level + 2 < e.levels.length)
    (read : (openReader files m.path).bind Reader.iterate = .ok entries)
    (some_entry : entries ≠ []) :
    e.compactWith io sizing files level (m :: rest) now ≠ .ok result := by
  intro completed
  obtain ⟨-, -, ⟨readers, merged, openedAll, iterated, dropped⟩, -⟩ :=
    compactWith_eq_ok_iff.mp completed
  obtain ⟨opens, -⟩ := Bool.and_eq_true_iff.mp (all (m, 0) mem_cons_self)
  obtain ⟨reader, openedFirst, read⟩ := bind_eq_ok.mp read
  rw [openSourcesWith, if_pos opens, openedFirst] at openedAll
  obtain ⟨others, -, same⟩ := bind_eq_ok.mp openedAll
  cases same
  obtain ⟨first, tables, yielded, -, rfl⟩ := forall₂_cons_left_iff.mp (mapM_eq_ok.mp iterated)
  cases read.symm.trans (iterate_of_iterateWith yielded)
  have moves : kWayMerge (entries :: tables) ≠ [] :=
    kWayMerge_ne_nil fun empty => some_entry (append_eq_nil_iff.mp empty).1
  obtain ⟨entry, moved⟩ := exists_mem_of_ne_nil _ moves
  have last := (dropped entry moved).2
  omega

/-! ## The same without failures -/

theorem openSourcesWith_eq_ok (files : Files) (k : ℕ) (tables : List SSTableMeta)
    (readers : List Reader) :
    (∃ sources, openSourcesWith {} files k tables = .ok sources ∧ sources.map Prod.snd = readers) ↔
      openSources files tables = .ok readers := by
  induction tables generalizing k readers with
  | nil => simp [openSourcesWith, openSources]
  | cons m rest ih =>
    unfold openSourcesWith openSources
    cases openReader files m.path with
    | error fault =>
      cases fault with
      | panic p => simp
      | error cause => exact ih (k + 1) readers
    | ok reader =>
      constructor
      · rintro ⟨sources, opened, rfl⟩
        obtain ⟨others, openedRest, same⟩ := bind_eq_ok.mp opened
        cases same
        exact bind_eq_ok.mpr ⟨_, (ih (k + 1) _).mp ⟨others, openedRest, rfl⟩, rfl⟩
      · intro opened
        obtain ⟨others, openedRest, same⟩ := bind_eq_ok.mp opened
        cases same
        obtain ⟨sources, openedRest', rfl⟩ := (ih (k + 1) others).mpr openedRest
        exact ⟨(k, reader) :: sources, bind_eq_ok.mpr ⟨sources, openedRest', rfl⟩, rfl⟩

theorem iterateWith_eq_ok (source : ℕ × Reader) (entries : List Entry) :
    iterateWith {} source = .ok entries ↔ source.2.iterate = .ok entries := by
  have blocks : ∀ blocks, source.2.table.index.zipIdx.mapM (fun x =>
        (source.2.readBlock x.1.offset x.1.length).mapError CompactionFault.ofFault) = .ok blocks ↔
      source.2.table.index.mapM (fun entry => source.2.readBlock entry.offset entry.length)
        = .ok blocks := by
    intro blocks
    rw [mapM_eq_ok, mapM_eq_ok]
    conv_rhs => rw [← zipIdx_map_fst 0 source.2.table.index, forall₂_map_left_iff]
    simp only [mapError_eq_ok]
  unfold iterateWith Reader.iterate
  simp only [if_true]
  rw [bind_eq_ok, bind_eq_ok]
  simp only [blocks, pure, Except.pure, Except.ok.injEq]

theorem compactWith_eq_compact :
    e.compactWith {} sizing files level sourceTables now = .ok result ↔
      e.compact sizing files level sourceTables now = .ok result := by
  have iterated : ∀ (sources : List (ℕ × Reader)) (read : List (List Entry)),
      sources.mapM (iterateWith {}) = .ok read ↔
        (sources.map Prod.snd).mapM Reader.iterate = .ok read := by
    intro sources read
    rw [mapM_eq_ok, mapM_eq_ok, forall₂_map_left_iff]
    simp only [iterateWith_eq_ok]
  unfold compactWith compact writeMerged liftPanic
  simp only [bind_eq_ok, mapError_eq_ok, ← openSourcesWith_eq_ok files 0, iterated,
    not_true_eq_false, if_false, pure, Except.pure, Except.ok.injEq]
  constructor
  · rintro ⟨sources, opened, read, iterates, w, adds, table, finishes, same⟩
    exact ⟨_, ⟨sources, opened, rfl⟩, read, iterates, table, ⟨w, adds, finishes⟩, same⟩
  · rintro ⟨_, ⟨sources, opened, rfl⟩, read, iterates, table, ⟨w, adds, finishes⟩, same⟩
    exact ⟨sources, opened, read, iterates, w, adds, table, finishes, same⟩

/-! ## What a compaction may lose -/

/-- The entries of a table file; a file that cannot be read has none. -/
def tableEntries (files : Files) (path : Path) : List Entry :=
  match (openReader files path).bind Reader.iterate with
  | .ok entries => entries
  | .error _ => []

/-- `compact` of a level. -/
def compactLevelWith (io : CompactionCalls) (sizing : Sizing) (e : Engine) (files : Files)
    (level now : ℕ) : Except CompactionFault (Engine × Files) :=
  if level ≥ e.levels.length - 1 then .ok (e, files)
  else
    let sourceTables := e.tablesOf level
    if sourceTables = [] then .ok (e, files)
    else e.compactWith io sizing files level sourceTables now

/-- The engine and the files after a compaction of a level.  One that fails behind the
creation of the new table leaves an empty file. -/
def afterCompaction (io : CompactionCalls) (sizing : Sizing) (e : Engine) (files : Files)
    (level now : ℕ) : Engine × Files :=
  match e.compactLevelWith io sizing files level now with
  | .ok result => result
  | .error _ =>
    (e, if (openSourcesWith io files 0 (e.tablesOf level)).isOk ∧ io.creates then
      files.insert (outputPath level now) [] else files)

/-- What a compaction must not do: give up a table although one of its entries is not in
the new table. -/
def LosesNothing (io : CompactionCalls) (sizing : Sizing) (e : Engine) (files : Files)
    (level now : ℕ) : Prop :=
  let after := e.afterCompaction io sizing files level now
  ∀ m ∈ e.tablesOf level,
    (∃ entry ∈ tableEntries files m.path, entry ∉ tableEntries after.2 (outputPath level now)) →
      after.2.lookup m.path = files.lookup m.path ∧ m ∈ after.1.tablesOf level
  deriving Decidable

/-- What a compaction of a level does that does not fail. -/
theorem compactLevelWith_eq_ok
    (completed : e.compactLevelWith io sizing files level now = .ok result) : result = (e, files) ∨
      level + 1 < e.levels.length ∧ e.tablesOf level ≠ [] ∧ io.creates = true ∧
        io.finishes = true ∧ NothingKept io e files level (e.tablesOf level) ∧
        result = e.emptied sizing files level (e.tablesOf level) now := by
  unfold compactLevelWith at completed
  split at completed
  · cases completed
    exact .inl rfl
  · dsimp only at completed
    split at completed
    · cases completed
      exact .inl rfl
    · rename_i sources
      exact .inr ⟨by omega, sources, compactWith_eq_ok_iff.mp completed⟩

/-- A compaction that has tables but nothing to write gets through to the end. -/
theorem afterCompaction_eq_emptied (deeper : level + 1 < e.levels.length)
    (sources : e.tablesOf level ≠ []) (creates : io.creates = true)
    (finishes : io.finishes = true) (nothing : NothingKept io e files level (e.tablesOf level)) :
    e.afterCompaction io sizing files level now =
      e.emptied sizing files level (e.tablesOf level) now := by
  have completed : e.compactWith io sizing files level (e.tablesOf level) now =
      .ok (e.emptied sizing files level (e.tablesOf level) now) :=
    compactWith_eq_ok_iff.mpr ⟨creates, finishes, nothing, rfl⟩
  unfold afterCompaction compactLevelWith
  rw [if_neg (by omega)]
  rw [if_neg sources, completed]

theorem path_ne_outputPath {m : SSTableMeta} (own : m.path.level = level) (now : ℕ) :
    m.path ≠ outputPath level now := by
  intro same
  rw [same] at own
  exact Nat.succ_ne_self level own

theorem tablesOf_emptied :
    (e.emptied sizing files level sourceTables now).1.tablesOf level = [] := by
  by_cases inside : level < e.levels.length <;> simp [emptied, tablesOf, inside]

theorem tablesOf_emptied_of_ne {l : ℕ} (source : l ≠ level) (target : l ≠ level + 1) :
    (e.emptied sizing files level sourceTables now).1.tablesOf l = e.tablesOf l := by
  simp [emptied, tablesOf, Ne.symm source, Ne.symm target]

theorem tablesOf_emptied_succ (deeper : level + 1 < e.levels.length) :
    (e.emptied sizing files level sourceTables now).1.tablesOf (level + 1) =
      e.tablesOf (level + 1) ++
        [{ emptyTable sizing (outputPath level now) with level := level + 1 }] := by
  simp [emptied, tablesOf, deeper]

theorem lookup_foldl_erase {tables : List SSTableMeta} {path : Path}
    (other : ∀ m ∈ tables, m.path ≠ path) :
    (tables.foldl (fun files m => files.erase m.path) files).lookup path = files.lookup path := by
  induction tables generalizing files with
  | nil => rfl
  | cons m rest ih =>
    rw [foldl_cons, ih fun m mem => other m (mem_cons_of_mem _ mem)]
    exact lookup_erase_ne (Ne.symm (other m mem_cons_self))

theorem tableEntries_emptied (own : ∀ m ∈ sourceTables, m.path.level = level) :
    tableEntries (e.emptied sizing files level sourceTables now).2 (outputPath level now) = [] := by
  have other : ∀ m ∈ sourceTables, m.path ≠ outputPath level now :=
    fun m mem => path_ne_outputPath (own m mem) now
  have present : (e.emptied sizing files level sourceTables now).2.lookup (outputPath level now)
      = some (Writer.new sizing (outputPath level now) 0).file := by
    rw [emptied, lookup_foldl_erase other, lookup_insert]
  obtain ⟨filter, index, decoded, loaded⟩ :=
    (Writer.new sizing (outputPath level now) 0).loadMeta_index
      (by rw [length_file_new_zero]; decide) (outputPath level now)
  have none : index = [] := by
    have empty : decodeIndex (encodeIndex []) = .ok [] := by decide
    exact (Except.ok.inj (empty.symm.trans decoded)).symm
  unfold tableEntries openReader
  rw [present]
  dsimp only
  rw [loaded, none]
  rfl

/-- A compaction loses nothing exactly if there is nothing to lose, or if it fails. -/
theorem losesNothing_iff (io : CompactionCalls) (sizing : Sizing) (e : Engine) (files : Files)
    (level now : ℕ) (own : ∀ m ∈ e.tablesOf level, m.path.level = level) :
    e.LosesNothing io sizing files level now ↔
      e.levels.length ≤ level + 1 ∨ (∀ m ∈ e.tablesOf level, tableEntries files m.path = []) ∨
        io.creates = false ∨ io.finishes = false ∨
        ¬ NothingKept io e files level (e.tablesOf level) := by
  constructor
  · intro loses
    by_contra allowed
    simp only [not_or, not_le, not_forall, not_not] at allowed
    obtain ⟨deeper, ⟨m, mem, some_entry⟩, creates, finishes, nothing⟩ := allowed
    obtain ⟨entry, memEntry⟩ := exists_mem_of_ne_nil _ some_entry
    unfold LosesNothing at loses
    rw [afterCompaction_eq_emptied deeper (ne_nil_of_mem mem) (Bool.of_not_eq_false creates)
      (Bool.of_not_eq_false finishes) nothing] at loses
    have stays := (loses m mem ⟨entry, memEntry, by
      rw [tableEntries_emptied own]
      exact not_mem_nil⟩).2
    rw [tablesOf_emptied] at stays
    nomatch stays
  · intro allowed m mem
    rintro ⟨entry, memEntry, -⟩
    unfold afterCompaction
    split
    · rename_i result completed
      rcases compactLevelWith_eq_ok completed with
        rfl | ⟨deeper, -, creates, finishes, nothing, -⟩
      · exact ⟨rfl, mem⟩
      · -- a compaction that completes has nothing to lose
        rcases allowed with last | empty | fails | fails | kept
        · exact absurd last (not_le.mpr deeper)
        · rw [empty m mem] at memEntry
          nomatch memEntry
        · rw [creates] at fails
          nomatch fails
        · rw [finishes] at fails
          nomatch fails
        · exact absurd nothing kept
    · refine ⟨?_, mem⟩
      split
      · exact lookup_insert_ne (path_ne_outputPath (own m mem) now)
      · rfl

/-- An engine with one table, on which a compaction cannot create its file. -/
theorem losesNothing_oneTable :
    ∃ e files, oneTable = .ok (e, files) ∧ (∀ m ∈ e.tablesOf 0, m.path.level = 0) ∧
      e.tablesOf 0 ≠ [] ∧ e.LosesNothing { creates := false } .decimal files 0 2 := by
  obtain ⟨e, files, written, own, some_table⟩ : ∃ e files, oneTable = .ok (e, files) ∧
      (∀ m ∈ e.tablesOf 0, m.path.level = 0) ∧ e.tablesOf 0 ≠ [] := by
    decide +kernel
  exact ⟨e, files, written, own, some_table,
    (losesNothing_iff { creates := false } .decimal e files 0 2 own).mpr (.inr (.inr (.inl rfl)))⟩

/-- The only table cannot be opened; the compaction completes with an empty table, and the
file and the place in the level are gone. -/
theorem not_losesNothing_unopened :
    ∃ e files, oneTable = .ok (e, files) ∧
      ¬ e.LosesNothing { opens := fun _ => false } .decimal files 0 2 ∧
      (e.afterCompaction { opens := fun _ => false } .decimal files 0 2).1.tablesOf 0 = [] ∧
      (e.afterCompaction { opens := fun _ => false } .decimal files 0 2).2.lookup
        { level := 0, nanos := 1 } = none := by
  decide +kernel

end Engine

end Hermes.Storage
