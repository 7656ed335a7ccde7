import Hermes.Storage.SSTable

/-!
# Point reads of a written table

A table that has been written and opened again is to return each entry under its key.
It returns none: `loadMeta` does not read the range of the keys back, so that every key
but the empty one lies above the greatest key that the reader knows.
-/

namespace Hermes.Storage.SSTable

open Memtable Bloom

/-- What a table keeps of an entry: all but the sequence number. -/
def stored (entry : Entry) : Entry :=
  { entry with sequence := 0 }

/-- Write entries with `Add` and `Finish`, and open the file with `OpenReader`. -/
def writeAndOpen (sizing : Sizing) (path : Path) (expectedKeys : ℕ) (entries : List Entry) :
    Except Fault Reader := do
  let w ← liftPanic (entries.foldlM Writer.add (Writer.new sizing path expectedKeys))
  let (_, file) ← w.finish
  return { file := file, table := ← Reader.loadMeta path file }

/-- A reader returns the entry of every key among the entries, and of no other. -/
def PointReads (entries : List Entry) (r : Reader) : Prop :=
  ∀ key, r.get key = .ok ((entries.find? fun entry => entry.key = key).map stored)

/-- No reader knows the range of its keys. -/
theorem Reader.maxKey_of_loadMeta {path : Path} {file : Bytes} {m : SSTableMeta}
    (opened : loadMeta path file = .ok m) : m.maxKey = [] := by
  obtain ⟨footer, _, rest⟩ := bind_eq_ok.mp opened
  dsimp only at rest
  split at rest
  · nomatch rest
  · obtain ⟨bloomData, _, rest⟩ := bind_eq_ok.mp rest
    split at rest
    · nomatch rest
    · obtain ⟨indexData, _, rest⟩ := bind_eq_ok.mp rest
      obtain ⟨index, _, rest⟩ := bind_eq_ok.mp rest
      cases rest
      rfl

/-- No table with entries returns them once it has been opened again. -/
theorem not_pointReads (sizing : Sizing) (path : Path) (expectedKeys : ℕ) {entries : List Entry}
    (nonempty : entries ≠ []) (named : ∀ entry ∈ entries, entry.key ≠ []) :
    ¬ ∃ r, writeAndOpen sizing path expectedKeys entries = .ok r ∧ PointReads entries r := by
  rintro ⟨r, opened, reads⟩
  obtain ⟨first, rest, rfl⟩ := List.exists_cons_of_ne_nil nonempty
  obtain ⟨w, _, written⟩ := bind_eq_ok.mp opened
  obtain ⟨⟨_, file⟩, _, loads⟩ := bind_eq_ok.mp written
  obtain ⟨m, loaded, same⟩ := bind_eq_ok.mp loads
  cases same
  have nothing := Reader.get_eq_none (r := ⟨file, m⟩) (Reader.maxKey_of_loadMeta loaded)
    (named first List.mem_cons_self)
  rw [reads] at nothing
  simp at nothing

/-- A file with the entry of one key. -/
def single : List Entry :=
  [{ key := [107], value := [49], timestamp := 1 }]

theorem not_pointReads_single :
    single ≠ [] ∧ (∀ entry ∈ single, entry.key ≠ []) ∧
      ¬ ∃ r, writeAndOpen .decimal { level := 0, nanos := 1 } 1 single = .ok r ∧
        PointReads single r :=
  ⟨by decide, by decide, not_pointReads .decimal _ 1 (by decide) (by decide)⟩

/-- The file is written and opened, and the key is not found. -/
theorem get_single_eq_none :
    (writeAndOpen .decimal { level := 0, nanos := 1 } 1 single).map (fun r => r.get [107])
        = .ok (.ok none) ∧
      single.find? (fun entry => entry.key = [107]) ≠ none := by
  decide +kernel

end Hermes.Storage.SSTable
