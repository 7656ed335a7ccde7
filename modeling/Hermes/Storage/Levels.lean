import Hermes.Data.Runs
import Hermes.Storage.FailingCompaction

/-!
# The levels under flushes and compactions

A flush appends a table to level 0, a compaction empties a level and appends a table to
the next one.  The only compactions that get through to the end are those that find
nothing to write, and what they append is a table without keys.  It does not fit beside
another one of its kind, and a table that was flushed while the compaction was at work
goes down with its level.
-/

namespace Hermes.Storage

open Bloom List Memtable Runs SSTable

/-! ## Tables in the order of their keys -/

/-- An operation on the levels. -/
inductive LevelEvent where
  | flush (table : Table) (now : ℕ)
  | compact (level now : ℕ) (io : CompactionCalls)

variable {table : Table} {now : ℕ}

namespace Engine

/-- Carry out an operation.  One that fails leaves the levels alone, a panic ends the
process. -/
def levelStep (sizing : Sizing) (s : Engine × Files) : LevelEvent → Option (Engine × Files)
  | .flush table now =>
    match s.1.flushMemTable sizing s.2 table now with
    | .ok result => some result
    | .error (.error _) => some s
    | .error (.panic _) => none
  | .compact level now io =>
    match s.1.compactLevelWith io sizing s.2 level now with
    | .error (.panic _) => none
    | _ => some (s.1.afterCompaction io sizing s.2 level now)

/-- The tables of the deeper levels are in the order of their keys, and no two ranges
meet. -/
def DeeperSorted (e : Engine) : Prop :=
  ∀ level, 1 ≤ level → (e.tablesOf level).Pairwise fun m m' => m.maxKey < m'.minKey

/-- No compaction gets through to the end while there is a table in the next level: it
fails, or has something to write, which makes it panic. -/
def Spaced (s : Engine × Files) : LevelEvent → Prop
  | .flush _ _ => True
  | .compact level _ io =>
    s.1.tablesOf (level + 1) = [] ∨ s.1.tablesOf level = [] ∨ io.creates = false ∨
      io.finishes = false ∨ ¬ NothingKept io s.1 s.2 level (s.1.tablesOf level)

variable {sizing : Sizing} {e e' : Engine} {files files' : Files}

/-- A flush only touches level 0, and that only if its table has entries. -/
theorem levels_flushMemTable
    (flushed : e.flushMemTable sizing files table now = .ok (e', files')) :
    ∃ added, (table.list.all = [] → added = []) ∧ e'.levels = e.levels.modify 0 (· ++ added) := by
  unfold flushMemTable at flushed
  dsimp only at flushed
  split at flushed
  · cases flushed
    exact ⟨[], fun _ => rfl, by cases e.levels <;> simp⟩
  · rename_i some_entry
    obtain ⟨⟨m, file⟩, _, same⟩ := bind_eq_ok.mp flushed
    cases same
    exact ⟨[m], fun empty => absurd empty some_entry, requestCompaction_levels _⟩

/-- Under the condition no deeper level gets a second table. -/
theorem length_levelStep {s s' : Engine × Files} {event : LevelEvent} (spaced : Spaced s event)
    (single : ∀ level, 1 ≤ level → (s.1.tablesOf level).length ≤ 1)
    (happens : levelStep sizing s event = some s') :
    ∀ level, 1 ≤ level → (s'.1.tablesOf level).length ≤ 1 := by
  intro l deeper
  cases event with
  | flush table now =>
    simp only [levelStep] at happens
    split at happens
    · rename_i result flushed
      cases happens
      obtain ⟨added, -, levels⟩ := levels_flushMemTable flushed
      have other : ¬ 0 = l := by omega
      simpa [tablesOf, levels, other] using single l deeper
    · cases happens
      exact single l deeper
    · cases happens
  | compact level now io =>
    have after : s' = s.1.afterCompaction io sizing s.2 level now := by
      simp only [levelStep] at happens
      split at happens
      · cases happens
      · exact (Option.some.inj happens).symm
    rw [after, afterCompaction]
    split
    · rename_i result completed
      rcases compactLevelWith_eq_ok completed with
        rfl | ⟨next, sources, creates, finishes, nothing, rfl⟩
      · exact single l deeper
      · by_cases source : l = level
        · rw [source, tablesOf_emptied]
          exact Nat.zero_le 1
        · by_cases target : l = level + 1
          · have room : s.1.tablesOf (level + 1) = [] := by
              rcases spaced with room | none | fails | fails | kept
              · exact room
              · exact absurd none sources
              · rw [creates] at fails
                cases fails
              · rw [finishes] at fails
                cases fails
              · exact absurd nothing kept
            rw [target, tablesOf_emptied_succ next, room]
            exact le_rfl
          · rw [tablesOf_emptied_of_ne source target]
            exact single l deeper
    · exact single l deeper

/-- In every run in which no compaction gets through to the end above a level with a table,
the tables of the deeper levels are in order. -/
theorem deeperSorted_of_spaced (sizing : Sizing) (config : Config) {s : Engine × Files}
    (reachable : Runs.Reachable (levelStep sizing) Spaced (openEmpty config, ∅) s) :
    s.1.DeeperSorted := by
  have single : ∀ level, 1 ≤ level → (s.1.tablesOf level).length ≤ 1 := by
    refine reachable.invariant
      (I := fun s => ∀ level, 1 ≤ level → (s.1.tablesOf level).length ≤ 1) ?_
      fun s event s' single spaced happens => length_levelStep spaced single happens
    intro level _
    have none : (openEmpty config).tablesOf level = [] := by
      show ((replicate 7 [])[level]?).getD [] = []
      rw [getElem?_replicate]
      split <;> rfl
    rw [none]
    exact Nat.zero_le 1
  intro level deeper
  have short := single level deeper
  match s.1.tablesOf level, short with
  | [], _ => exact .nil
  | [m], _ => exact pairwise_singleton _ m

/-- A memtable with one entry. -/
def singleTable (id : ℕ) (key : Key) : Table where
  id := id
  list := ({} : Memtable.SkipList).put [] key [49] 1 1

/-- One compaction that cannot open its source. -/
theorem deeperSorted_of_spaced_once :
    ∃ s, Runs.Reachable (levelStep .decimal) Spaced (openEmpty {}, ∅) s ∧
      (s.1.tablesOf 1).length = 1 ∧ s.1.DeeperSorted := by
  obtain ⟨s, reachable, single⟩ := exists_of_exec (levelStep .decimal)
    (fun s event => (match event with
      | .flush _ _ => true
      | .compact level _ _ => decide (s.1.tablesOf (level + 1) = [])) = true)
    (openEmpty {}, ∅)
    [.flush (singleTable 0 [107]) 1, .compact 0 2 { opens := fun _ => false }]
    (P := fun s => (s.1.tablesOf 1).length = 1) (by decide +kernel)
  have reachable' : Reachable (levelStep .decimal) Spaced (openEmpty {}, ∅) s := by
    refine reachable.mono fun s event allowed => ?_
    cases event with
    | flush table now => trivial
    | compact level now io => exact .inl (of_decide_eq_true allowed)
  exact ⟨s, reachable', single, deeperSorted_of_spaced .decimal {} reachable'⟩

/-- Two compactions that cannot open their sources leave two tables without keys in the same
level. -/
theorem not_deeperSorted :
    ∃ s, Runs.Reachable (levelStep .decimal) (fun _ _ => True) (openEmpty {}, ∅) s ∧
      (s.1.tablesOf 1).map (fun m => (m.minKey, m.maxKey)) = [([], []), ([], [])] ∧
      ¬ s.1.DeeperSorted := by
  refine exists_of_exec_and (levelStep .decimal) (fun _ _ => True) (openEmpty {}, ∅)
    [.flush (singleTable 0 [107]) 1, .compact 0 2 { opens := fun _ => false },
      .flush (singleTable 1 [108]) 3, .compact 0 4 { opens := fun _ => false }]
    (by decide +kernel) fun s _ ranges sorted => ?_
  have pairwise : ((s.1.tablesOf 1).map fun m => (m.minKey, m.maxKey)).Pairwise
      fun range range' => range.2 < range'.1 :=
    pairwise_map.mpr (sorted 1 le_rfl)
  rw [ranges] at pairwise
  exact absurd pairwise (by decide)

end Engine

/-! ## A compaction of level 0 among flushes -/

/-- How far the compaction of level 0 is: it has not begun, it has copied the tables of the
level, or it is over and has merged some tables. -/
inductive CompactionRun where
  | waiting
  | copied (sources : List SSTableMeta)
  | over (merged : List SSTableMeta)
  deriving DecidableEq, Repr

/-- An engine with one compaction of level 0. -/
structure Merging where
  engine : Engine
  files : Files := ∅
  run : CompactionRun := .waiting
  /-- History: the tables that flushes have appended to level 0. -/
  flushed : List SSTableMeta := []

inductive MergingEvent where
  /-- A flush, whose locked section appends the table. -/
  | flush (table : Table) (now : ℕ)
  /-- The first locked section of `compact`. -/
  | copy
  /-- The merge and the second locked section. -/
  | finish (now : ℕ) (io : CompactionCalls)

namespace Merging

def step (sizing : Sizing) (s : Merging) : MergingEvent → Option Merging
  | .flush table now =>
    match s.engine.flushMemTable sizing s.files table now with
    | .ok (e, files) =>
      some { s with
        engine := e
        files := files
        flushed := s.flushed ++ (e.tablesOf 0).drop (s.engine.tablesOf 0).length }
    | .error (.error _) => some s
    | .error (.panic _) => none
  | .copy =>
    if s.run = .waiting then
      if s.engine.tablesOf 0 = [] then some { s with run := .over [] }
      else some { s with run := .copied (s.engine.tablesOf 0) }
    else none
  | .finish now io =>
    match s.run with
    | .copied sources =>
      match s.engine.compactWith io sizing s.files 0 sources now with
      | .ok (e, files) =>
        some { s with
          engine := e
          files := files
          run := .over (Engine.opened io s.files sources) }
      | .error (.panic _) => none
      | .error _ =>
        some { s with
          files := if io.creates then s.files.insert (Engine.outputPath 0 now) [] else s.files
          run := .over [] }
    | _ => none

/-- Every table that was flushed is still listed or has been merged. -/
def NoneLost (s : Merging) : Prop :=
  ∀ m ∈ s.flushed, m ∈ s.engine.tablesOf 0 ∨ ∃ merged, s.run = .over merged ∧ m ∈ merged

/-- No table is flushed between the two locked sections of the compaction, which can open
every table that it has copied. -/
def Apart (s : Merging) : MergingEvent → Prop
  | .flush table _ => table.list.all = [] ∨ ∀ sources, s.run = .copied sources → False
  | .copy => True
  | .finish _ io => ∀ sources, s.run = .copied sources → Engine.OpensAll io s.files sources

instance (run : CompactionRun) (P : List SSTableMeta → Prop) [DecidablePred P] :
    Decidable (∀ sources, run = .copied sources → P sources) :=
  match run with
  | .copied sources => decidable_of_iff (P sources) (by simp)
  | .waiting | .over _ => .isTrue (by simp)

instance (s : Merging) : DecidablePred (Apart s) := by
  rintro ⟨⟩ <;> delta Apart <;> infer_instance

/-- What holds between the sections: a compaction at work has copied all the tables that are
listed. -/
structure OK (s : Merging) : Prop where
  levels : 0 < s.engine.levels.length
  kept : s.NoneLost
  copied : ∀ sources, s.run = .copied sources → sources = s.engine.tablesOf 0

namespace OK

variable {sizing : Sizing} {s s' : Merging}

/-- As long as the compaction is not over, all flushed tables are listed. -/
theorem listed (ok : s.OK) (going : ∀ merged, s.run ≠ .over merged) :
    ∀ m ∈ s.flushed, m ∈ s.engine.tablesOf 0 := by
  intro m mem
  rcases ok.kept m mem with listed | ⟨merged, ended, _⟩
  · exact listed
  · exact absurd ended (going merged)

theorem flush (ok : s.OK) (apart : s.Apart (.flush table now))
    (happens : s.step sizing (.flush table now) = some s') : s'.OK := by
  simp only [step] at happens
  split at happens
  · rename_i e files flushed
    cases happens
    obtain ⟨added, nothing, levels⟩ := Engine.levels_flushMemTable flushed
    have tables : e.tablesOf 0 = s.engine.tablesOf 0 ++ added := by
      simp [Engine.tablesOf, levels, ok.levels]
    refine ⟨by simpa [levels] using ok.levels, ?_, ?_⟩
    · intro m mem
      rw [tables, drop_left] at mem
      rw [tables]
      rcases mem_append.mp mem with old | new
      · exact (ok.kept m old).imp_left (mem_append_left _)
      · exact .inl (mem_append_right _ new)
    · intro sources copied
      rcases apart with empty | idle
      · rw [tables, nothing empty, append_nil]
        exact ok.copied sources copied
      · exact (idle sources copied).elim
  · cases happens
    exact ok
  · cases happens

theorem copy (ok : s.OK) (happens : s.step sizing .copy = some s') : s'.OK := by
  simp only [step] at happens
  split at happens
  · rename_i waiting
    have listed := ok.listed (by rw [waiting]; exact nofun)
    split at happens
    · cases happens
      exact ⟨ok.levels, fun m mem => .inl (listed m mem), nofun⟩
    · cases happens
      refine ⟨ok.levels, fun m mem => .inl (listed m mem), ?_⟩
      rintro _ ⟨⟩
      rfl
  · nomatch happens

theorem finish (ok : s.OK) {io : CompactionCalls} (apart : s.Apart (.finish now io))
    (happens : s.step sizing (.finish now io) = some s') : s'.OK := by
  simp only [step] at happens
  split at happens
  · rename_i sources copied
    have listed := ok.listed (by rw [copied]; rintro _ ⟨⟩)
    split at happens
    · rename_i e files completed
      cases happens
      obtain ⟨-, -, -, same⟩ := Engine.compactWith_eq_ok_iff.mp completed
      cases same
      refine ⟨?_, ?_, by rintro _ ⟨⟩⟩
      · simpa [Engine.emptied] using ok.levels
      · intro m mem
        refine .inr ⟨_, rfl, ?_⟩
        rw [(apart sources copied).opened_eq, ok.copied sources copied]
        exact listed m mem
    · cases happens
    · cases happens
      exact ⟨ok.levels, fun m mem => .inl (listed m mem), by rintro _ ⟨⟩⟩
  · cases happens

end OK

/-- In every interleaving of flushes with one compaction of level 0 in which no table is
flushed between the two locked sections and every copied table can be opened, every flushed
table is still listed or among those that the compaction has merged. -/
theorem noneLost_of_apart (sizing : Sizing) {e : Engine} (some_level : 0 < e.levels.length)
    (files : Files) {s : Merging}
    (reachable : Runs.Reachable (step sizing) Apart { engine := e, files := files } s) :
    s.NoneLost := by
  have start : OK { engine := e, files := files } :=
    ⟨some_level, nofun, nofun⟩
  have ok : s.OK := reachable.invariant start fun s event s' ok apart happens => by
    cases event with
    | flush table now => exact ok.flush apart happens
    | copy => exact ok.copy happens
    | finish now io => exact ok.finish apart happens
  exact ok.kept

instance (s : Merging) : Decidable s.NoneLost :=
  match run : s.run with
  | .over merged =>
    decidable_of_iff (∀ m ∈ s.flushed, m ∈ s.engine.tablesOf 0 ∨ m ∈ merged)
      (by simp [NoneLost, run])
  | .waiting | .copied _ =>
    decidable_of_iff (∀ m ∈ s.flushed, m ∈ s.engine.tablesOf 0) (by simp [NoneLost, run])

/-- One table is flushed before the compaction and one behind it.  The compaction cannot create
its table. -/
theorem noneLost_of_apart_twice :
    ∃ s, Runs.Reachable (step .decimal) Apart { engine := Engine.openEmpty {} } s ∧
      s.flushed.length = 2 ∧ s.run = .over [] ∧ s.NoneLost := by
  obtain ⟨s, reachable, two, ended⟩ := exists_of_exec (step .decimal) Apart
    { engine := Engine.openEmpty {} }
    [.flush (Engine.singleTable 0 [107]) 1, .copy, .finish 2 { creates := false },
      .flush (Engine.singleTable 1 [108]) 3]
    (P := fun s => s.flushed.length = 2 ∧ s.run = .over []) (by decide +kernel)
  exact ⟨s, reachable, two, ended, noneLost_of_apart .decimal (by decide) ∅ reachable⟩

/-- The second table is flushed after the compaction has copied the level, whose only table
cannot be opened. -/
theorem not_noneLost :
    ∃ s, Runs.Reachable (step .decimal) (fun _ _ => True) { engine := Engine.openEmpty {} } s ∧
      s.flushed.length = 2 ∧ s.engine.tablesOf 0 = [] ∧ ¬ s.NoneLost :=
  exists_of_exec (step .decimal) (fun _ _ => True) { engine := Engine.openEmpty {} }
    [.flush (Engine.singleTable 0 [107]) 1, .copy, .flush (Engine.singleTable 1 [108]) 2,
      .finish 3 { opens := fun _ => false }]
    (by decide +kernel)

end Merging

end Hermes.Storage
