import Hermes.Storage.TableFormat

/-!
# The iterator of a table

The iterator reads one block after the other and hands out its entries one by one.  On a
file that a writer has finished it yields what was added, in the same order, and ends.
The length of a block is kept in 32 bits with a sign, so that an entry which leaves no
room for the header of its block cannot be read back.
-/

namespace Hermes.Storage.SSTable

open Bloom List Memtable

structure SSTableIterator where
  reader : Reader
  /-- The next block. -/
  blockIndex : ℕ := 0
  /-- The entries of the current block. -/
  entries : List Entry := []
  /-- The next entry of the current block. -/
  entryIndex : ℕ := 0

/-- `Iterator`. -/
def Reader.iterator (r : Reader) : SSTableIterator :=
  { reader := r }

namespace SSTableIterator

/-- The loop of `Next`: read blocks until one has an entry that is left. -/
def nextFrom : (fuel : ℕ) → SSTableIterator → Except Fault (Option Entry) × SSTableIterator
  | 0, it => (.ok none, it)
  | fuel + 1, it =>
    match it.entries[it.entryIndex]? with
    | some entry => (.ok (some entry), { it with entryIndex := it.entryIndex + 1 })
    | none =>
      match it.reader.table.index[it.blockIndex]? with
      | none => (.ok none, it)
      | some indexEntry =>
        let it := { it with blockIndex := it.blockIndex + 1 }
        match it.reader.readBlock indexEntry.offset indexEntry.length with
        | .error fault => (.error fault, it)
        | .ok block =>
          nextFrom fuel { it with entries := decodeBlock block, entryIndex := 0 }

/-- `Next`.  Every round reads another block, or is the last one. -/
def next (it : SSTableIterator) : Except Fault (Option Entry) × SSTableIterator :=
  it.nextFrom (it.reader.table.index.length - it.blockIndex + 1)

/-- Calls of `Next` return some entries one after the other, and then that there are no
more. -/
def Yields : SSTableIterator → List Entry → Prop
  | it, [] => it.next.1 = .ok none
  | it, entry :: rest => it.next.1 = .ok (some entry) ∧ it.next.2.Yields rest

/-- What an iterator has still to hand out, when the blocks that are left hold some
data. -/
def remaining (it : SSTableIterator) (blocks : List Bytes) : List Entry :=
  it.entries.drop it.entryIndex ++ blocks.flatMap decodeBlock

variable {it : SSTableIterator} {blocks : List Bytes}

/-- The blocks that are left can be read. -/
def Reads (it : SSTableIterator) (blocks : List Bytes) : Prop :=
  (it.reader.table.index.drop it.blockIndex).mapM (fun entry =>
    it.reader.readBlock entry.offset entry.length) = .ok blocks

/-- A call of `Next` hands out the first of the entries that remain. -/
theorem nextFrom_spec {fuel : ℕ} (reads : it.Reads blocks) (enough : blocks.length < fuel) :
    match it.remaining blocks with
    | [] => (it.nextFrom fuel).1 = .ok none
    | entry :: rest => (it.nextFrom fuel).1 = .ok (some entry) ∧
      ∃ left, (it.nextFrom fuel).2.Reads left ∧ (it.nextFrom fuel).2.remaining left = rest := by
  induction fuel generalizing it blocks with
  | zero => nomatch enough
  | succ fuel ih =>
    rw [nextFrom]
    cases current : it.entries[it.entryIndex]? with
    | some entry =>
      have split : it.remaining blocks =
          entry :: { it with entryIndex := it.entryIndex + 1 }.remaining blocks := by
        obtain ⟨inside, rfl⟩ := List.getElem?_eq_some_iff.mp current
        rw [remaining, drop_eq_getElem_cons inside]
        rfl
      rw [split]
      exact ⟨rfl, blocks, reads, rfl⟩
    | none =>
      have drained : it.remaining blocks = blocks.flatMap decodeBlock := by
        rw [remaining, drop_eq_nil_of_le (getElem?_eq_none_iff.mp current)]
        rfl
      unfold Reads at reads
      cases place : it.reader.table.index[it.blockIndex]? with
      | none =>
        rw [drop_eq_nil_of_le (getElem?_eq_none_iff.mp place)] at reads
        cases reads
        rw [drained]
        rfl
      | some indexEntry =>
        obtain ⟨inside, rfl⟩ := List.getElem?_eq_some_iff.mp place
        rw [drop_eq_getElem_cons inside, mapM_cons] at reads
        obtain ⟨block, first, behind⟩ := bind_eq_ok.mp reads
        obtain ⟨others, readsOthers, same⟩ := bind_eq_ok.mp behind
        cases same
        rw [drained]
        dsimp only
        rw [first]
        exact @ih { it with blockIndex := it.blockIndex + 1, entries := decodeBlock block
                            entryIndex := 0 } others readsOthers
          (Nat.lt_of_succ_lt_succ enough)

theorem next_spec (reads : it.Reads blocks) :
    match it.remaining blocks with
    | [] => it.next.1 = .ok none
    | entry :: rest => it.next.1 = .ok (some entry) ∧
      ∃ left, it.next.2.Reads left ∧ it.next.2.remaining left = rest := by
  apply nextFrom_spec reads
  have length := (mapM_eq_ok.mp reads).length_eq
  rw [length_drop] at length
  omega

variable {entries : List Entry}

theorem yields_remaining (reads : it.Reads blocks) (left : it.remaining blocks = entries) :
    it.Yields entries := by
  have spec := next_spec reads
  rw [left] at spec
  induction entries generalizing it blocks with
  | nil => exact spec
  | cons entry rest ih =>
    obtain ⟨first, others, readsOthers, leftOthers⟩ := spec
    refine ⟨first, ih readsOthers leftOthers ?_⟩
    have spec := next_spec readsOthers
    rwa [leftOthers] at spec

theorem yields_of_iterate {r : Reader} (all : r.iterate = .ok entries) :
    r.iterator.Yields entries := by
  obtain ⟨blocks, reads, same⟩ := bind_eq_ok.mp all
  cases same
  exact yields_remaining reads rfl

end SSTableIterator

/-! ## Round trips -/

/-- Entries that are written with `Add` and `Finish` are yielded again in the same order, all
but their sequence numbers, and then the iterator ends: as long as the entries leave room
for the header of a block in its length, and the blocks can be counted. -/
theorem iterator_roundTrip (sizing : Sizing) (path : Path) {expectedKeys : ℕ}
    (positive : 1 ≤ expectedKeys) {entries : List Entry}
    (small : ∀ entry ∈ entries, 8 + (encodeEntry entry).length < 2 ^ 31) :
    ∃ w, entries.foldlM Writer.add (Writer.new sizing path expectedKeys) = .ok w ∧
      ∀ m file, w.finish = .ok (m, file) → m.index.length < 2 ^ 32 → ∀ name, ∃ table,
        Reader.loadMeta name file = .ok table ∧
          (Reader.iterator { file := file, table := table }).Yields (entries.map stored) := by
  obtain ⟨w, added, -⟩ := Writer.foldlM_add
    (w := Writer.new sizing path expectedKeys) (BloomFilter.fits_new sizing positive) entries
  refine ⟨w, added, ?_⟩
  intro m file finished few name
  obtain ⟨blocks, rfl, cut⟩ := Writer.cutInto_of_finish added finished small
  obtain ⟨table, loaded, same⟩ := cut.opens few name
  exact ⟨table, loaded, SSTableIterator.yields_of_iterate (cut.iterate_eq same)⟩

/-- Two entries in any order, the second one a deletion. -/
theorem iterator_roundTrip_two :
    ∃ w, [{ key := [2], value := [20], timestamp := 7 },
        { key := [1], value := [], timestamp := 8, deleted := true }].foldlM Writer.add
          (Writer.new .decimal { level := 0, nanos := 0 } 2) = .ok w ∧
      ∀ m file, w.finish = .ok (m, file) → m.index.length < 2 ^ 32 → ∀ name, ∃ table,
        Reader.loadMeta name file = .ok table ∧
          (Reader.iterator { file := file, table := table }).Yields
            ([{ key := [2], value := [20], timestamp := 7 },
              { key := [1], value := [], timestamp := 8, deleted := true }].map stored) :=
  iterator_roundTrip .decimal { level := 0, nanos := 0 } (by decide) (by decide)

theorem Writer.makeRoom_new (sizing : Sizing) (path : Path) (expectedKeys length : ℕ) :
    (new sizing path expectedKeys).makeRoom length = new sizing path expectedKeys := by
  have room : ¬ ((new sizing path expectedKeys).blockBuf.length + length > blockSize ∧
      (new sizing path expectedKeys).blockBuf ≠ []) := fun full => full.2 rfl
  unfold makeRoom
  rw [if_neg room]
  rfl

theorem Writer.flushBlock_cons {w : Writer} {key : Key} {keys : List Key}
    (some_bytes : w.blockBuf ≠ []) (first : w.blockKeys = key :: keys) :
    w.flushBlock.written = w.written ++ encodeBlock w.blockBuf ∧
      w.flushBlock.index = w.index ++ [{
        key := key, offset := w.blockOffset, length := int32 (8 + w.blockBuf.length) }] ∧
      w.flushBlock.filter = w.filter := by
  unfold flushBlock
  rw [if_neg some_bytes, first]
  exact ⟨rfl, rfl, rfl⟩

theorem exists_entry_of_length (n : ℕ) :
    ∃ e : Entry, e.key = [1] ∧ (encodeEntry e).length = n + 18 := by
  refine ⟨{ key := [1], value := replicate n 0, timestamp := 0 }, rfl, ?_⟩
  rw [length_encodeEntry, length_replicate]
  show 1 + n + 17 = n + 18
  omega

/-- Some entries are written into a file, which is finished and opened again. -/
def Reopened (entries : List Entry) (file : Bytes) (table : SSTableMeta) : Prop :=
  ∃ w m, entries.foldlM Writer.add (Writer.new .decimal { level := 0, nanos := 0 } 1) = .ok w ∧
    w.finish = .ok (m, file) ∧ Reader.loadMeta { level := 0, nanos := 0 } file = .ok table

/-- The file of a single entry whose block has 2^31 bytes: the length in its index is
negative. -/
theorem exists_oversized : ∃ e file table, 8 + (encodeEntry e).length = 2 ^ 31 ∧
    Reopened [e] file table ∧
      table.index = [{ key := [1], offset := 0, length := -2 ^ 31 }] := by
  obtain ⟨e, key, long⟩ := exists_entry_of_length (2 ^ 31 - 26)
  have size : 8 + (encodeEntry e).length = 2 ^ 31 := by omega
  obtain ⟨filter, took, fits⟩ := (BloomFilter.fits_new .decimal Nat.one_pos).add e.key
  have words : filter.bitset.length = 1 := BloomFilter.length_bitset_add took
  have some_bytes : encodeEntry e ≠ [] := by
    intro empty
    rw [empty] at size
    nomatch size
  have length : int32 (8 + (encodeEntry e).length) = -2 ^ 31 := by
    rw [size]
    decide
  obtain ⟨w, added, buffer, keys, offset, noIndex, nothing, filter_eq⟩ :
      ∃ w, (Writer.new .decimal { level := 0, nanos := 0 } 1).add e = .ok w ∧
        w.blockBuf = encodeEntry e ∧
        w.blockKeys = [e.key] ∧ w.blockOffset = 0 ∧ w.index = [] ∧ w.written = [] ∧
        w.filter = filter := by
    unfold Writer.add
    dsimp only
    rw [Writer.makeRoom_new]
    exact ⟨_, bind_eq_ok.mpr ⟨filter, took, rfl⟩, rfl, rfl, rfl, rfl, rfl, rfl⟩
  obtain ⟨written, index, filterKept⟩ := Writer.flushBlock_cons (buffer ▸ some_bytes) keys
  rw [nothing, nil_append, buffer] at written
  rw [noIndex, buffer, length, key, offset] at index
  rw [filter_eq] at filterKept
  have short : w.flushBlock.file.length < 2 ^ 63 := by
    rw [Writer.file, length_append, length_append, length_append,
      length_encodeFooter, BloomFilter.length_serialize, filterKept, words, written, index,
      length_encodeBlock, size]
    decide
  obtain ⟨_, entries, decoded, loaded⟩ := w.flushBlock.loadMeta_index short _
  rw [index] at decoded
  cases decoded
  exact ⟨e, _, _, size, ⟨w, _, bind_eq_ok.mpr ⟨w, added, rfl⟩, if_pos short, loaded⟩, rfl⟩

/-- Entries of a gigabyte are each in a block of their own. -/
theorem length_blocks {e : Entry} {n : ℕ} {blocks : List (List Entry)}
    (size : (encodeEntry e).length = 2 ^ 30) (all : blocks.flatten = replicate n e)
    (nonempty : ∀ block ∈ blocks, block ≠ []) (short : ∀ block ∈ blocks, Short block) :
    blocks.length = n := by
  have single : ∀ block ∈ blocks, block.length = 1 := by
    intro block mem
    have same : ∀ entry ∈ block, entry = e := fun entry inside =>
      eq_of_mem_replicate (all ▸ mem_flatten_of_mem mem inside)
    obtain ⟨first, rest, rfl⟩ := exists_cons_of_ne_nil (nonempty block mem)
    cases rest with
    | nil => rfl
    | cons second rest =>
      have length := short _ mem
      rw [Short, same first mem_cons_self, same second (mem_cons_of_mem _ mem_cons_self),
        blockData_cons, blockData_cons, length_append, length_append] at length
      omega
  have counted := congrArg length all
  rw [length_flatten, map_congr_left single, map_const', sum_replicate, smul_eq_mul, mul_one,
    length_replicate] at counted
  exact counted

/-- A file of 2^32 blocks: their number is read back as zero. -/
theorem exists_uncounted : ∃ (entries : List Entry) (file : Bytes) (table : SSTableMeta),
    entries.length = 2 ^ 32 ∧ (∀ entry ∈ entries, 8 + (encodeEntry entry).length < 2 ^ 31) ∧
      Reopened entries file table ∧ table.index = [] := by
  obtain ⟨e, key, size⟩ := exists_entry_of_length (2 ^ 30 - 18)
  obtain ⟨entries, entries_eq⟩ : ∃ entries, entries = replicate (2 ^ 32) e := ⟨_, rfl⟩
  have count : entries.length = 2 ^ 32 := entries_eq ▸ length_replicate
  have same : ∀ entry ∈ entries, entry = e := fun entry mem =>
    eq_of_mem_replicate (entries_eq ▸ mem)
  have small : ∀ entry ∈ entries, (encodeEntry entry).length ≤ 2 ^ 30 := fun entry mem => by
    rw [same entry mem]
    omega
  have fits : ∀ entry ∈ entries, 8 + (encodeEntry entry).length < 2 ^ 31 := fun entry mem => by
    have := small entry mem
    omega
  obtain ⟨w, added, -⟩ := Writer.foldlM_add
    (w := Writer.new .decimal { level := 0, nanos := 0 } 1)
    (BloomFilter.fits_new .decimal Nat.one_pos) entries
  have narrow : ∀ entry ∈ entries, entry.key.length + 16 ≤ 17 := fun entry mem => by
    rw [same entry mem, key]
    rfl
  have bits : Sizing.bits .decimal 1 / 8 < 2 ^ 20 := by decide +kernel
  have short : w.flushBlock.file.length < 2 ^ 63 := by
    have bound := length_file_le added small (by decide) narrow
    omega
  obtain ⟨blocks, flushed, all⟩ := Writer.exists_blocks added fits
  obtain ⟨_, index, decoded, loaded⟩ := w.flushBlock.loadMeta_index short { level := 0, nanos := 0 }
  rw [flushed.index, encodeIndex, length_indexFrom,
    length_blocks size (all.trans entries_eq) flushed.nonempty flushed.short] at decoded
  cases decoded
  exact ⟨entries, _, _, count, fits, ⟨w, _, added, if_pos short, loaded⟩, rfl⟩

/-- An entry of 2^31 - 8 bytes is written, but the iterator panics when it comes to it; and of
the entries of 2^32 blocks it yields none. -/
theorem iterator_oversized :
    (∃ (e : Entry) (file : Bytes) (table : SSTableMeta), (encodeEntry e).length < 2 ^ 31 ∧
      Reopened [e] file table ∧
      (Reader.iterator { file := file, table := table }).next.1 =
        .error (.panic .negativeLength)) ∧
    ∃ (entries : List Entry) (file : Bytes) (table : SSTableMeta),
      entries.length = 2 ^ 32 ∧ (∀ entry ∈ entries, 8 + (encodeEntry entry).length < 2 ^ 31) ∧
      Reopened entries file table ∧
      (Reader.iterator { file := file, table := table }).Yields [] := by
  constructor
  case right =>
    obtain ⟨entries, file, table, count, small, reopened, index⟩ := exists_uncounted
    refine ⟨entries, file, table, count, small, reopened, ?_⟩
    apply SSTableIterator.yields_of_iterate
    rw [Reader.iterate, index]
    rfl
  obtain ⟨e, file, table, size, reopened, index⟩ := exists_oversized
  refine ⟨e, file, table, by omega, reopened, ?_⟩
  have panics : Reader.readBlock { file := file, table := table } 0 (-2 ^ 31)
      = .error (.panic .negativeLength) := rfl
  unfold SSTableIterator.next
  rw [SSTableIterator.nextFrom]
  dsimp only [Reader.iterator, getElem?_nil]
  rw [index]
  dsimp only [getElem?_cons_zero]
  rw [panics]

end Hermes.Storage.SSTable
