import Hermes.Storage.TableReads

/-!
# Reading back what a table holds

A writer cuts its entries into blocks and notes in the index where each block is.  Whatever
way it cuts them, the iterator of a reader that opens the file yields the entries again, all but
their sequence numbers, as long as the lengths fit into their fields.
-/

namespace Hermes.Storage.SSTable

open Memtable Bloom List

/-! ## Blocks -/

/-- The entries of a block, one behind the other. -/
def blockData (entries : List Entry) : Bytes :=
  entries.flatMap encodeEntry

/-- A block in the file: checksum, length and data. -/
def encodeBlock (data : Bytes) : Bytes :=
  leBytes 4 (checksum data).toNat ++ (leBytes 4 data.length ++ data)

theorem length_encodeBlock (data : Bytes) : (encodeBlock data).length = 8 + data.length := by
  simp only [encodeBlock, length_append, length_leBytes]
  omega

theorem length_encodeEntry (e : Entry) :
    (encodeEntry e).length = e.key.length + e.value.length + 17 := by
  simp only [encodeEntry, length_append, length_leBytes, Clock.toBytes, length_beBytes,
    length_singleton]
  omega

variable {entries : List Entry}

theorem blockData_cons (e : Entry) (rest : List Entry) :
    blockData (e :: rest) = encodeEntry e ++ blockData rest :=
  flatMap_cons

theorem blockData_eq_nil_iff : blockData entries = [] ↔ entries = [] := by
  cases entries with
  | nil => exact ⟨fun _ => rfl, fun _ => rfl⟩
  | cons e rest =>
    have long := length_encodeEntry e
    refine ⟨fun empty => ?_, nofun⟩
    have short := congrArg length empty
    rw [blockData_cons, length_append, length_nil] at short
    omega

theorem takeField_append {field : Bytes} (rest : Bytes) (small : field.length < 2 ^ 32) :
    takeField (leBytes 4 field.length ++ (field ++ rest)) = some (field, rest) := by
  have length : leValue ((leBytes 4 field.length ++ (field ++ rest)).take 4) = field.length := by
    rw [take_left' (length_leBytes 4 _), leValue_leBytes (by omega)]
  unfold takeField
  rw [if_neg (by simp only [length_append, length_leBytes]; omega)]
  simp only [length, drop_left' (length_leBytes 4 _)]
  rw [if_neg (by rw [length_append]; omega), take_left' rfl, drop_left' rfl]

/-- The entries of a block are read back, whatever the fuel beyond one round for each. -/
theorem decodeBlockFrom_blockData {fuel : ℕ} (enough : entries.length ≤ fuel)
    (small : ∀ e ∈ entries, (encodeEntry e).length < 2 ^ 32) :
    decodeBlockFrom fuel (blockData entries) = entries.map stored := by
  induction entries generalizing fuel with
  | nil =>
    cases fuel <;> rfl
  | cons e rest ih =>
    obtain _ | fuel := fuel
    · nomatch enough
    have size := small e mem_cons_self
    rw [length_encodeEntry] at size
    have others := ih (Nat.le_of_succ_le_succ enough) fun e mem =>
      small e (mem_cons_of_mem _ mem)
    have split : blockData (e :: rest) = leBytes 4 e.key.length ++ (e.key ++
        (leBytes 4 e.value.length ++ (e.value ++ (Clock.toBytes e.timestamp ++
          ((if e.deleted then 1 else 0) :: blockData rest))))) := by
      simp only [blockData_cons, encodeEntry, append_assoc, singleton_append]
    have stamp : (Clock.toBytes e.timestamp).length = 8 := length_beBytes 8 _
    rw [split, decodeBlockFrom, takeField_append _ (by omega)]
    dsimp only
    rw [takeField_append _ (by omega)]
    dsimp only
    rw [take_left' stamp, drop_left' stamp, Clock.fromBytes_toBytes, drop_one,
      tail_cons, others]
    cases e with
    | mk key value timestamp deleted sequence => cases deleted <;> rfl

theorem decodeBlock_blockData (small : ∀ e ∈ entries, (encodeEntry e).length < 2 ^ 32) :
    decodeBlock (blockData entries) = entries.map stored := by
  apply decodeBlockFrom_blockData ?_ small
  induction entries with
  | nil => exact Nat.zero_le _
  | cons e rest ih =>
    have others := ih fun e mem => small e (mem_cons_of_mem _ mem)
    have long := length_encodeEntry e
    rw [blockData_cons, length_append, length_cons]
    omega

theorem int32_of_lt {n : ℕ} (small : n < 2 ^ 31) : int32 n = n := by
  rw [int32, signed, Nat.mod_eq_of_lt (by omega)]
  exact if_pos small

/-- A block is read from its place in the file. -/
theorem readBlock_append (table : SSTableMeta) (front data back : Bytes)
    (small : 8 + data.length < 2 ^ 31) :
    Reader.readBlock { file := front ++ (encodeBlock data ++ back), table := table }
      front.length (int32 (8 + data.length)) = .ok data := by
  have read : readAt (front ++ (encodeBlock data ++ back)) front.length
      (int32 (8 + data.length)) .blockUnreadable = .ok (encodeBlock data) := by
    rw [int32_of_lt small, ← length_encodeBlock]
    exact readAt_append front (encodeBlock data) back .blockUnreadable
  have crc : leValue ((encodeBlock data).take 4) = (checksum data).toNat := by
    rw [encodeBlock, take_left' (length_leBytes 4 _)]
    exact leValue_leBytes (checksum data).toNat_lt
  have behind : (encodeBlock data).drop 4 = leBytes 4 data.length ++ data :=
    drop_left' (length_leBytes 4 _)
  have dataLen : leValue (((encodeBlock data).drop 4).take 4) = data.length := by
    rw [behind, take_left' (length_leBytes 4 _), leValue_leBytes (by omega)]
  have stop : (8 + data.length) % 2 ^ 32 = (encodeBlock data).length := by
    rw [length_encodeBlock, Nat.mod_eq_of_lt (by omega)]
  refine bind_eq_ok.mpr ⟨encodeBlock data, read, ?_⟩
  simp only [crc, dataLen, stop, take_length]
  rw [if_neg (by omega), if_neg (by omega)]
  exact if_neg (not_not.mpr rfl)

/-! ## The index -/

/-- The index of some blocks that stand one behind the other from an offset on. -/
def indexFrom : (offset : ℕ) → List (List Entry) → List IndexEntry
  | _, [] => []
  | offset, block :: rest =>
    { key := (block.head?.map Entry.key).getD []
      offset := offset
      length := int32 (8 + (blockData block).length) } ::
      indexFrom (offset + (8 + (blockData block).length)) rest

/-- The bytes of some blocks. -/
def encodeBlocks (blocks : List (List Entry)) : Bytes :=
  blocks.flatMap fun block => encodeBlock (blockData block)

theorem encodeBlocks_cons (block : List Entry) (rest : List (List Entry)) :
    encodeBlocks (block :: rest) = encodeBlock (blockData block) ++ encodeBlocks rest :=
  flatMap_cons

theorem encodeBlocks_append (blocks others : List (List Entry)) :
    encodeBlocks (blocks ++ others) = encodeBlocks blocks ++ encodeBlocks others :=
  flatMap_append

theorem indexFrom_append (offset : ℕ) (blocks others : List (List Entry)) :
    indexFrom offset (blocks ++ others) =
      indexFrom offset blocks ++ indexFrom (offset + (encodeBlocks blocks).length) others := by
  induction blocks generalizing offset with
  | nil => rfl
  | cons block rest ih =>
    rw [cons_append, indexFrom, indexFrom, ih, cons_append, encodeBlocks_cons,
      length_append, length_encodeBlock, Nat.add_assoc offset (8 + _)]

/-- The entries of an index whose fields are large enough. -/
structure IndexEntry.Storable (entry : IndexEntry) : Prop where
  key : entry.key.length < 2 ^ 32
  offset : 0 ≤ entry.offset ∧ entry.offset < 2 ^ 63
  length : 0 ≤ entry.length ∧ entry.length < 2 ^ 31

variable {index : List IndexEntry}

theorem decodeIndexEntries_flatMap (storable : ∀ entry ∈ index, entry.Storable) :
    decodeIndexEntries index.length (index.flatMap encodeIndexEntry) = index := by
  induction index with
  | nil => rfl
  | cons entry rest ih =>
    have fits := storable entry mem_cons_self
    have split : (entry :: rest).flatMap encodeIndexEntry = leBytes 4 entry.key.length ++
        (entry.key ++ (leBytes 8 (entry.offset % 2 ^ 64).toNat ++
          (leBytes 4 (entry.length % 2 ^ 32).toNat ++ rest.flatMap encodeIndexEntry))) := by
      simp only [flatMap_cons, encodeIndexEntry, append_assoc]
    have offset : int64 (leValue (leBytes 8 (entry.offset % 2 ^ 64).toNat)) = entry.offset := by
      have := fits.offset
      rw [int64_leBytes (by omega)]
      omega
    have length : int32 (leValue (leBytes 4 (entry.length % 2 ^ 32).toNat)) = entry.length := by
      have := fits.length
      rw [leValue_leBytes (by omega), int32_of_lt (by omega)]
      omega
    rw [split, length_cons, decodeIndexEntries, takeField_append _ fits.key]
    dsimp only
    rw [if_neg (by simp only [length_append, length_leBytes]; omega),
      take_left' (length_leBytes 8 _), show 12 = 8 + 4 from rfl, ← drop_drop,
      drop_left' (length_leBytes 8 _), take_left' (length_leBytes 4 _),
      drop_left' (length_leBytes 4 _), offset, length,
      ih fun entry mem => storable entry (mem_cons_of_mem _ mem)]

theorem decodeIndex_encodeIndex (count : index.length < 2 ^ 32)
    (storable : ∀ entry ∈ index, entry.Storable) : decodeIndex (encodeIndex index) = .ok index := by
  unfold decodeIndex encodeIndex
  rw [if_neg (by rw [length_append, length_leBytes]; omega),
    take_left' (length_leBytes 4 _), drop_left' (length_leBytes 4 _),
    leValue_leBytes (by omega), decodeIndexEntries_flatMap storable]

/-! ## What a writer has written -/

/-- The block fits where its length is kept. -/
def Short (block : List Entry) : Prop :=
  8 + (blockData block).length < 2 ^ 31

/-- A writer has written some blocks, and has some entries in its buffer. -/
structure Writer.Holds (w : Writer) (blocks : List (List Entry)) (current : List Entry) : Prop where
  written : w.written = encodeBlocks blocks
  index : w.index = indexFrom 0 blocks
  buffer : w.blockBuf = blockData current
  keys : w.blockKeys = current.map Entry.key
  offset : current ≠ [] → w.blockOffset = w.written.length
  nonempty : ∀ block ∈ blocks, block ≠ []
  short : ∀ block ∈ blocks, Short block
  fits : current ≠ [] → Short current

variable {expectedKeys : ℕ} {sizing : Sizing} {path : Path}

namespace Writer

variable {w w' : Writer} {blocks : List (List Entry)} {current : List Entry}

theorem holds_new (sizing : Sizing) (path : Path) (expectedKeys : ℕ) :
    (new sizing path expectedKeys).Holds [] [] where
  written := rfl
  index := rfl
  buffer := rfl
  keys := rfl
  offset := fun absurd => (absurd rfl).elim
  nonempty := nofun
  short := nofun
  fits := fun absurd => (absurd rfl).elim

/-- Flushing the buffer makes it a block. -/
theorem Holds.flushBlock (holds : w.Holds blocks current) :
    w.flushBlock.Holds (if current = [] then blocks else blocks ++ [current]) [] := by
  unfold Writer.flushBlock
  by_cases empty : current = []
  · have buffer : w.blockBuf = [] := by
      rw [holds.buffer, empty]
      rfl
    rw [if_pos empty, if_pos buffer]
    exact empty ▸ holds
  · have buffer : w.blockBuf ≠ [] := by
      rw [holds.buffer]
      exact mt blockData_eq_nil_iff.mp empty
    rw [if_neg empty, if_neg buffer]
    obtain ⟨first, rest, rfl⟩ := exists_cons_of_ne_nil empty
    refine ⟨?_, ?_, rfl, rfl, fun absurd => (absurd rfl).elim, ?_, ?_,
      fun absurd => (absurd rfl).elim⟩
    · rw [encodeBlocks_append, ← holds.written, holds.buffer]
      simp [encodeBlocks, encodeBlock]
    · rw [indexFrom_append, ← holds.index, ← holds.written, holds.keys, holds.buffer,
        holds.offset empty, Nat.zero_add]
      rfl
    · rw [forall_mem_append, forall_mem_singleton]
      exact ⟨holds.nonempty, empty⟩
    · rw [forall_mem_append, forall_mem_singleton]
      exact ⟨holds.short, holds.fits empty⟩

theorem Holds.restart (holds : w.Holds blocks []) (offset : ℕ) :
    { w with blockOffset := offset, blockKeys := [] }.Holds blocks [] :=
  { holds with
    keys := rfl
    offset := fun absurd => (absurd rfl).elim }

theorem Holds.blockBuf_eq_nil_iff (holds : w.Holds blocks current) :
    w.blockBuf = [] ↔ current = [] := by
  rw [holds.buffer]
  exact blockData_eq_nil_iff

theorem Holds.makeRoom (holds : w.Holds blocks current) (length : ℕ) :
    ∃ blocks' current', (w.makeRoom length).Holds blocks' current' ∧
      blocks'.flatten ++ current' = blocks.flatten ++ current ∧
      (w.makeRoom length).blockOffset = (w.makeRoom length).written.length ∧
      (current' = [] ∨ (blockData current').length + length ≤ blockSize) := by
  unfold Writer.makeRoom
  by_cases full : w.blockBuf.length + length > blockSize ∧ w.blockBuf ≠ []
  · have some_entry : current ≠ [] := mt holds.blockBuf_eq_nil_iff.mpr full.2
    have flushed := holds.flushBlock
    rw [if_neg some_entry] at flushed
    rw [if_pos full, if_pos (flushed.blockBuf_eq_nil_iff.mpr rfl)]
    refine ⟨_, [], flushed.restart _, ?_, rfl, .inl rfl⟩
    simp
  · rw [if_neg full]
    by_cases empty : w.blockBuf = []
    · have nothing := holds.blockBuf_eq_nil_iff.mp empty
      subst nothing
      rw [if_pos empty]
      exact ⟨blocks, [], holds.restart _, rfl, rfl, .inl rfl⟩
    · rw [if_neg empty]
      refine ⟨blocks, current, holds, rfl, holds.offset ?_, .inr ?_⟩
      · exact mt holds.blockBuf_eq_nil_iff.mpr empty
      · rw [← holds.buffer]
        by_contra large
        exact full ⟨not_le.mp large, empty⟩

/-- Adding an entry puts it behind all others. -/
theorem Holds.add (holds : w.Holds blocks current) {entry : Entry}
    (small : 8 + (encodeEntry entry).length < 2 ^ 31) (added : w.add entry = .ok w') :
    ∃ blocks' current', w'.Holds blocks' current' ∧
      blocks'.flatten ++ current' = blocks.flatten ++ current ++ [entry] := by
  obtain ⟨filter, -, same⟩ := bind_eq_ok.mp added
  cases same
  obtain ⟨blocks', current', roomy, entries, offset, room⟩ :=
    holds.makeRoom (encodeEntry entry).length
  have data : blockData (current' ++ [entry]) = blockData current' ++ encodeEntry entry := by
    simp [blockData]
  refine ⟨blocks', current' ++ [entry], ⟨roomy.written, roomy.index, ?_, ?_, fun _ => offset,
    roomy.nonempty, roomy.short, fun _ => ?_⟩, ?_⟩
  · rw [data, ← roomy.buffer]
  · rw [map_append, ← roomy.keys]
    rfl
  · rw [Short, data, length_append]
    rcases room with rfl | room
    · exact lt_of_le_of_lt (by simp [blockData]) small
    · unfold blockSize at room
      omega
  · rw [← append_assoc, entries]

theorem Holds.foldlM_add (holds : w.Holds blocks current)
    (small : ∀ entry ∈ entries, 8 + (encodeEntry entry).length < 2 ^ 31)
    (added : entries.foldlM Writer.add w = .ok w') : ∃ blocks' current', w'.Holds blocks' current' ∧
      blocks'.flatten ++ current' = blocks.flatten ++ current ++ entries := by
  induction entries generalizing w blocks current with
  | nil =>
    cases added
    exact ⟨blocks, current, holds, (append_nil _).symm⟩
  | cons entry rest ih =>
    rw [foldlM_cons, bind_eq_ok] at added
    obtain ⟨w₁, first, added⟩ := added
    obtain ⟨blocks₁, current₁, holds₁, same₁⟩ := holds.add (small entry mem_cons_self) first
    obtain ⟨blocks', current', holds', same'⟩ :=
      ih holds₁ (fun entry mem => small entry (mem_cons_of_mem _ mem)) added
    refine ⟨blocks', current', holds', ?_⟩
    rw [same', same₁, append_assoc, singleton_append]

/-- When its last block is written, a writer has cut all entries into blocks. -/
theorem exists_blocks (added : entries.foldlM Writer.add (new sizing path expectedKeys) = .ok w)
    (small : ∀ entry ∈ entries, 8 + (encodeEntry entry).length < 2 ^ 31) :
    ∃ blocks, w.flushBlock.Holds blocks [] ∧ blocks.flatten = entries := by
  obtain ⟨blocks, current, holds, all⟩ :=
    (holds_new sizing path expectedKeys).foldlM_add small added
  rw [flatten_nil, nil_append, nil_append] at all
  refine ⟨_, holds.flushBlock, ?_⟩
  rw [← all]
  by_cases empty : current = []
  · rw [if_pos empty, empty, append_nil]
  · rw [if_neg empty]
    simp

end Writer

/-! ## The size of a file -/

section Size

variable {blocks : List (List Entry)} {limit : ℕ}

theorem length_blockData_le (small : ∀ entry ∈ entries, (encodeEntry entry).length ≤ limit) :
    (blockData entries).length ≤ entries.length * limit := by
  induction entries with
  | nil => exact Nat.zero_le _
  | cons entry rest ih =>
    have first := small entry mem_cons_self
    have others := ih fun entry mem => small entry (mem_cons_of_mem _ mem)
    rw [blockData_cons, length_append, length_cons, Nat.succ_mul]
    omega

section

variable (nonempty : ∀ block ∈ blocks, block ≠ [])
  (small : ∀ entry ∈ blocks.flatten, (encodeEntry entry).length ≤ limit)

include nonempty small

theorem length_encodeBlocks_le :
    (encodeBlocks blocks).length ≤ blocks.flatten.length * (limit + 8) := by
  induction blocks with
  | nil => exact Nat.zero_le _
  | cons block rest ih =>
    have others := ih (fun block mem => nonempty block (mem_cons_of_mem _ mem))
      fun entry mem => small entry (mem_append_right _ mem)
    have data := length_blockData_le fun entry mem =>
      small entry (mem_append_left rest.flatten mem)
    have header : 8 ≤ block.length * 8 :=
      Nat.le_mul_of_pos_left 8 (length_pos_iff.mpr (nonempty block mem_cons_self))
    rw [encodeBlocks_cons, length_append, length_encodeBlock, flatten_cons,
      length_append, Nat.add_mul, Nat.mul_add block.length]
    omega

omit small in
theorem length_index_le {width : ℕ}
    (narrow : ∀ entry ∈ blocks.flatten, entry.key.length + 16 ≤ width) (offset : ℕ) :
    ((indexFrom offset blocks).flatMap encodeIndexEntry).length
      ≤ blocks.flatten.length * width := by
  induction blocks generalizing offset with
  | nil => exact Nat.zero_le _
  | cons block rest ih =>
    obtain ⟨first, behind, rfl⟩ := exists_cons_of_ne_nil (nonempty block mem_cons_self)
    have others := ih (fun block mem => nonempty block (mem_cons_of_mem _ mem))
      (fun entry mem => narrow entry (mem_append_right _ mem))
      (offset + (8 + (blockData (first :: behind)).length))
    have key := narrow first mem_cons_self
    have one : width ≤ (first :: behind).length * width :=
      Nat.le_mul_of_pos_left width (Nat.succ_pos _)
    rw [indexFrom, flatMap_cons, length_append, flatten_cons,
      length_append, Nat.add_mul]
    simp only [encodeIndexEntry, length_append, length_leBytes, head?_cons,
      Option.map_some, Option.getD_some]
    omega

end

/-- The size of a file is bounded by the number of its entries, the longest of them, the longest
key and the bits of the filter. -/
theorem length_file_le {w : Writer} {width : ℕ}
    (added : entries.foldlM Writer.add (Writer.new sizing path expectedKeys) = .ok w)
    (small : ∀ entry ∈ entries, (encodeEntry entry).length ≤ limit) (fits : 8 + limit < 2 ^ 31)
    (narrow : ∀ entry ∈ entries, entry.key.length + 16 ≤ width) :
    w.flushBlock.file.length
      ≤ entries.length * (limit + 8) + entries.length * width + sizing.bits expectedKeys / 8
        + 92 := by
  obtain ⟨blocks, flushed, rfl⟩ := Writer.exists_blocks added fun entry mem => by
    have := small entry mem
    omega
  have words : w.flushBlock.filter.bitset.length = (sizing.bits expectedKeys + 63) / 64 := by
    rw [w.filter_flushBlock]
    refine (foldlM_induction (P := fun w => w.filter.bitset.length
      = (BloomFilter.new sizing expectedKeys).bitset.length) rfl ?_ added).trans ?_
    · intro w₁ entry w₂ kept _ round
      obtain ⟨filter, took, same⟩ := bind_eq_ok.mp round
      cases same
      rw [Writer.filter_makeRoom] at took
      exact (BloomFilter.length_bitset_add took).trans kept
    · show (replicate _ _).length = _
      rw [length_replicate]
      omega
  have written := length_encodeBlocks_le flushed.nonempty small
  have index := length_index_le flushed.nonempty narrow 0
  rw [Writer.file, length_append, length_append, length_append,
    length_encodeFooter, BloomFilter.length_serialize, flushed.written, flushed.index,
    encodeIndex, length_append, length_leBytes, footerSize]
  omega

end Size

/-! ## Reading it back -/

variable {blocks : List (List Entry)}

/-- The blocks of a file are read from the places that the index names. -/
theorem mapM_readBlock (table : SSTableMeta) (front back : Bytes)
    (short : ∀ block ∈ blocks, Short block) {file : Bytes}
    (file_eq : file = front ++ (encodeBlocks blocks ++ back)) :
    (indexFrom front.length blocks).mapM (fun entry =>
        Reader.readBlock { file := file, table := table } entry.offset entry.length)
      = .ok (blocks.map blockData) := by
  induction blocks generalizing front with
  | nil => rfl
  | cons block rest ih =>
    rw [encodeBlocks_cons, append_assoc] at file_eq
    have first := readBlock_append table front (blockData block) (encodeBlocks rest ++ back)
      (short block mem_cons_self)
    rw [← file_eq] at first
    have others := ih (front ++ encodeBlock (blockData block))
      (fun block mem => short block (mem_cons_of_mem _ mem))
      (by rw [file_eq, append_assoc])
    rw [length_append, length_encodeBlock] at others
    rw [indexFrom, mapM_cons, bind_eq_ok]
    exact ⟨_, first, bind_eq_ok.mpr ⟨_, others, rfl⟩⟩

/-- The index of short blocks fits into its fields. -/
theorem storable_of_mem_indexFrom {offset : ℕ} (short : ∀ block ∈ blocks, Short block)
    (small : offset + (encodeBlocks blocks).length < 2 ^ 63) {entry : IndexEntry}
    (mem : entry ∈ indexFrom offset blocks) : entry.Storable := by
  induction blocks generalizing offset with
  | nil => nomatch mem
  | cons block rest ih =>
    rw [encodeBlocks_cons, length_append, length_encodeBlock] at small
    have fits := short block mem_cons_self
    rcases mem_cons.mp mem with rfl | mem
    · refine ⟨?_, ⟨Int.natCast_nonneg _, by dsimp only; omega⟩, ?_⟩
      · cases block with
        | nil => exact Nat.two_pow_pos 32
        | cons e _ =>
          have long := length_encodeEntry e
          rw [Short, blockData_cons, length_append] at fits
          show e.key.length < 2 ^ 32
          omega
      · dsimp only
        rw [int32_of_lt fits]
        unfold Short at fits
        omega
    · refine ih (fun block mem => short block (mem_cons_of_mem _ mem)) ?_ mem
      omega

theorem length_indexFrom (offset : ℕ) (blocks : List (List Entry)) :
    (indexFrom offset blocks).length = blocks.length := by
  induction blocks generalizing offset with
  | nil => rfl
  | cons block rest ih => rw [indexFrom, length_cons, ih, length_cons]

theorem length_le_length_flatten (nonempty : ∀ block ∈ blocks, block ≠ []) :
    blocks.length ≤ blocks.flatten.length := by
  induction blocks with
  | nil => exact le_rfl
  | cons block rest ih =>
    have others := ih fun block mem => nonempty block (mem_cons_of_mem _ mem)
    have first := length_pos_iff.mpr (nonempty block mem_cons_self)
    rw [flatten_cons, length_append, length_cons]
    omega

/-- A finished file whose entries are cut into some blocks. -/
structure CutInto (m : SSTableMeta) (file : Bytes) (blocks : List (List Entry)) : Prop where
  nonempty : ∀ block ∈ blocks, block ≠ []
  short : ∀ block ∈ blocks, Short block
  index : m.index = indexFrom 0 blocks
  front : ∃ back, file = encodeBlocks blocks ++ back
  opens : m.index.length < 2 ^ 32 → ∀ name, ∃ table,
    Reader.loadMeta name file = .ok table ∧ table.index = m.index

variable {m table : SSTableMeta} {file : Bytes}

namespace CutInto

variable (cut : CutInto m file blocks)

include cut

theorem decodeBlock {block : List Entry} (mem : block ∈ blocks) :
    SSTable.decodeBlock (blockData block) = block.map stored := by
  apply decodeBlock_blockData
  intro entry inside
  obtain ⟨front, back, rfl⟩ := append_of_mem inside
  have fits := cut.short _ mem
  rw [Short, blockData, flatMap_append, flatMap_cons, length_append,
    length_append] at fits
  omega

variable (same : table.index = m.index)

include same

/-- The index leads to the data of the blocks. -/
theorem mapM_readBlock :
    table.index.mapM (fun entry =>
        Reader.readBlock { file := file, table := table } entry.offset entry.length)
      = .ok (blocks.map blockData) := by
  obtain ⟨back, file_eq⟩ := cut.front
  rw [same, cut.index]
  exact SSTable.mapM_readBlock table [] back cut.short file_eq

/-- The iterator yields the entries of the blocks. -/
theorem iterate_eq :
    Reader.iterate { file := file, table := table } = .ok (blocks.flatten.map stored) := by
  refine bind_eq_ok.mpr ⟨_, cut.mapM_readBlock same, ?_⟩
  rw [flatMap_map, map_flatten]
  exact congrArg Except.ok (flatMap_congr fun _ mem => cut.decodeBlock mem)

end CutInto

section

variable {w : Writer}
  (added : entries.foldlM Writer.add (Writer.new sizing path expectedKeys) = .ok w)
  (finished : w.finish = .ok (m, file))
  (small : ∀ entry ∈ entries, 8 + (encodeEntry entry).length < 2 ^ 31)

include added finished small

/-- A writer cuts what it is given into blocks. -/
theorem Writer.cutInto_of_finish : ∃ blocks, blocks.flatten = entries ∧ CutInto m file blocks := by
  obtain ⟨blocks, flushed, flatten⟩ := Writer.exists_blocks added small
  unfold Writer.finish at finished
  dsimp only at finished
  split at finished
  · rename_i size
    cases finished
    have length : (encodeBlocks blocks).length < 2 ^ 63 := by
      rw [← flushed.written]
      refine lt_of_le_of_lt ?_ size
      rw [Writer.file, length_append]
      exact Nat.le_add_right _ _
    refine ⟨blocks, flatten, flushed.nonempty, flushed.short, flushed.index, ?_, ?_⟩
    · rw [← flushed.written]
      exact ⟨_, rfl⟩
    · intro few name
      obtain ⟨filter, index, decoded, loaded⟩ := w.flushBlock.loadMeta_index size name
      rw [decodeIndex_encodeIndex few fun entry mem =>
        storable_of_mem_indexFrom flushed.short (by rw [Nat.zero_add]; exact length)
          (flushed.index ▸ mem)] at decoded
      cases decoded
      exact ⟨_, loaded, rfl⟩
  · nomatch finished

/-- A reader that opens a finished file yields the entries that were added, whatever the
blocks they were cut into. -/
theorem iterate_of_finish (count : entries.length < 2 ^ 32) (name : Path) :
    ∃ table, Reader.loadMeta name file = .ok table ∧
      Reader.iterate { file := file, table := table } = .ok (entries.map stored) := by
  obtain ⟨blocks, rfl, cut⟩ := Writer.cutInto_of_finish added finished small
  have few : m.index.length < 2 ^ 32 := by
    rw [cut.index, length_indexFrom]
    exact (length_le_length_flatten cut.nonempty).trans_lt count
  obtain ⟨table, loaded, same⟩ := cut.opens few name
  exact ⟨table, loaded, cut.iterate_eq same⟩

end

end Hermes.Storage.SSTable
