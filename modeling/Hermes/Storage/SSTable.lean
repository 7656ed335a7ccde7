import Hermes.Storage.Bloom
import Hermes.Storage.Memtable

/-!
# Sorted string tables

A table is a file: blocks of entries with a checksum each, an index of the blocks, the
filter of the keys and a footer that says where index and filter are.  A writer builds
the file entry by entry, a reader finds entries through the index.

Offsets and lengths are signed in the code; a number from a file is read as one.  A
file cannot grow beyond the largest offset, and memory is not limited.
-/

namespace Hermes.Storage

open Memtable Bloom List

namespace SSTable

def blockSize : ℕ := 4 * 1024

def footerSize : ℕ := 64

/-- The letters `HERMESDB`. -/
def magicNumber : ℕ := 0x4845524D45534442

/-- The name of a table file: its level and the clock reading when it was made. -/
structure Path where
  level : ℕ
  nanos : ℕ
  deriving DecidableEq, Repr

inductive TableError where
  | cannotOpen (path : Path)
  | footerUnreadable
  | invalidMagic (magic : ℕ)
  | bloomUnreadable
  | bloomTooShort
  | indexUnreadable
  | indexTooShort
  | blockUnreadable
  | blockCorruption (offset : ℤ)
  | fileTooLarge
  deriving DecidableEq, Repr

/-- How a call may fail: with an error that it returns, or with a panic. -/
inductive Fault where
  | error (cause : TableError)
  | panic (cause : Panic)
  deriving DecidableEq, Repr

/-- A panic of a callee. -/
def liftPanic {α : Type} (result : Except Panic α) : Except Fault α :=
  result.mapError .panic

/-- A number of `width` bits read as a signed one. -/
def signed (width n : ℕ) : ℤ :=
  if n % 2 ^ width < 2 ^ (width - 1) then (n % 2 ^ width : ℕ) else (n % 2 ^ width : ℕ) - 2 ^ width

def int64 (n : ℕ) : ℤ :=
  signed 64 n

def int32 (n : ℕ) : ℤ :=
  signed 32 n

/-- `sort.Search`: halve the range until the first index with the property is left. -/
def sortSearch (f : ℕ → Bool) : (fuel i j : ℕ) → ℕ
  | 0, i, _ => i
  | fuel + 1, i, j =>
    if i < j then
      let h := (i + j) / 2
      if f h then sortSearch f fuel i h else sortSearch f fuel (h + 1) j
    else i

/-- `File.ReadAt` into a buffer of the given length. -/
def readAt (file : Bytes) (offset : ℤ) (length : ℤ) (failed : TableError) :
    Except Fault Bytes :=
  if length < 0 then .error (.panic .negativeLength)
  else if offset < 0 then .error (.error failed)
  else if length = 0 then .ok []
  else if offset + length ≤ file.length then
    .ok ((file.drop offset.toNat).take length.toNat)
  else .error (.error failed)

structure IndexEntry where
  /-- The first key of the block. -/
  key : Key
  offset : ℤ
  length : ℤ
  deriving DecidableEq, Repr

structure SSTableMeta where
  path : Path
  minKey : Key := []
  maxKey : Key := []
  entryCount : ℕ := 0
  fileSize : ℕ := 0
  level : ℕ := 0
  filter : Option BloomFilter := none
  index : List IndexEntry := []
  deriving DecidableEq, Repr

namespace SSTableMeta

def mightContain (m : SSTableMeta) (key : Key) : Except Panic Bool :=
  if key < m.minKey ∨ m.maxKey < key then .ok false
  else
    match m.filter with
    | none => .ok true
    | some filter => filter.contains key

/-- The last block whose first key is not above the wanted one. -/
def findBlock (m : SSTableMeta) (key : Key) : Option IndexEntry :=
  let above := fun i => (m.index[i]?).any fun entry => key < entry.key
  match sortSearch above m.index.length 0 m.index.length with
  | 0 => none
  | idx + 1 => m.index[idx]?

end SSTableMeta

/-! ## Entries in a block -/

def encodeEntry (e : Entry) : Bytes :=
  leBytes 4 e.key.length ++ (e.key ++ (leBytes 4 e.value.length ++ (e.value ++
    (Clock.toBytes e.timestamp ++ [if e.deleted then 1 else 0]))))

/-- The bytes of a field with its length in front, and what follows it. -/
def takeField (data : Bytes) : Option (Bytes × Bytes) :=
  if data.length < 4 then none
  else
    let length := leValue (data.take 4)
    let data := data.drop 4
    if data.length < length then none else some (data.take length, data.drop length)

/-- `decodeBlock`: entries as long as they are complete; the byte that marks a deletion
may be missing.  Every round takes at least sixteen bytes. -/
def decodeBlockFrom : (fuel : ℕ) → Bytes → List Entry
  | 0, _ => []
  | fuel + 1, data =>
    match takeField data with
    | none => []
    | some (key, data) =>
      match takeField data with
      | none => []
      | some (value, data) =>
        if data.length < 8 then []
        else
          let rest := data.drop 8
          { key := key
            value := value
            timestamp := Clock.fromBytes (data.take 8)
            deleted := rest.head? = some 1 } :: decodeBlockFrom fuel (rest.drop 1)

def decodeBlock (data : Bytes) : List Entry :=
  decodeBlockFrom data.length data

def searchBlock (data : Bytes) (key : Key) : Option Entry :=
  (decodeBlock data).find? fun e => e.key = key

/-! ## Index and footer -/

def encodeIndexEntry (entry : IndexEntry) : Bytes :=
  leBytes 4 entry.key.length ++ (entry.key ++
    (leBytes 8 (entry.offset % 2 ^ 64).toNat ++ leBytes 4 (entry.length % 2 ^ 32).toNat))

/-- `writeIndex`. -/
def encodeIndex (index : List IndexEntry) : Bytes :=
  leBytes 4 index.length ++ index.flatMap encodeIndexEntry

/-- The loop of `decodeIndex` stops early if bytes are missing. -/
def decodeIndexEntries : (count : ℕ) → Bytes → List IndexEntry
  | 0, _ => []
  | count + 1, data =>
    match takeField data with
    | none => []
    | some (key, data) =>
      if data.length < 12 then []
      else
        { key := key
          offset := int64 (leValue (data.take 8))
          length := int32 (leValue ((data.drop 8).take 4)) } ::
          decodeIndexEntries count (data.drop 12)

def decodeIndex (data : Bytes) : Except Fault (List IndexEntry) :=
  if data.length < 4 then .error (.error .indexTooShort)
  else .ok (decodeIndexEntries (leValue (data.take 4)) (data.drop 4))

/-- `writeFooter`.  The first twelve bytes of the smallest key are kept; the place for
the greatest key has no bytes, so that only its length is. -/
def encodeFooter (indexOffset indexLen bloomOffset bloomLen : ℕ) (minKey maxKey : Key) : Bytes :=
  leBytes 8 indexOffset ++ (leBytes 8 indexLen ++ (leBytes 8 bloomOffset ++
    (leBytes 8 bloomLen ++ (leBytes 4 (min 12 minKey.length) ++
      ((minKey.take 12).rightpad 12 0 ++ (leBytes 4 (min 12 maxKey.length) ++
        (List.replicate 4 0 ++ leBytes 8 magicNumber)))))))

/-! ## Writing a table -/

structure Writer where
  /-- The name of the file. -/
  path : Path
  /-- What has been written to the file; its length is the offset of the next byte. -/
  written : Bytes := []
  blockBuf : Bytes := []
  blockOffset : ℕ := 0
  blockKeys : List Key := []
  index : List IndexEntry := []
  filter : BloomFilter
  entryCount : ℕ := 0
  minKey : Key := []
  maxKey : Key := []
  deriving DecidableEq, Repr

namespace Writer

/-- `NewWriter`. -/
def new (sizing : Sizing) (path : Path) (expectedKeys : ℕ) : Writer :=
  { path := path, filter := BloomFilter.new sizing expectedKeys }

def flushBlock (w : Writer) : Writer :=
  if w.blockBuf = [] then w
  else
    { w with
      written := w.written ++ (leBytes 4 (checksum w.blockBuf).toNat ++
        (leBytes 4 w.blockBuf.length ++ w.blockBuf))
      index :=
        match w.blockKeys with
        | [] => w.index
        | key :: _ =>
          w.index ++ [{
            key := key
            offset := w.blockOffset
            length := int32 (8 + w.blockBuf.length) }]
      blockBuf := []
      blockKeys := [] }

/-- The first half of `Add`: close a block that the new bytes do not fit into, and note
where a new one starts. -/
def makeRoom (w : Writer) (length : ℕ) : Writer :=
  let w := if w.blockBuf.length + length > blockSize ∧ w.blockBuf ≠ [] then w.flushBlock else w
  if w.blockBuf = [] then { w with blockOffset := w.written.length, blockKeys := [] } else w

/-- `Add`.  An empty smallest key counts as not set yet. -/
def add (w : Writer) (entry : Entry) : Except Panic Writer := do
  let encoded := encodeEntry entry
  let w := w.makeRoom encoded.length
  let filter ← w.filter.add entry.key
  return { w with
    blockBuf := w.blockBuf ++ encoded
    blockKeys := w.blockKeys ++ [entry.key]
    filter := filter
    entryCount := w.entryCount + 1
    minKey := if w.minKey = [] ∨ entry.key < w.minKey then entry.key else w.minKey
    maxKey := if w.maxKey < entry.key then entry.key else w.maxKey }

/-- The whole file, once all blocks are written. -/
def file (w : Writer) : Bytes :=
  let index := encodeIndex w.index
  let bloom := w.filter.serialize
  w.written ++ (index ++ (bloom ++ encodeFooter w.written.length index.length
    (w.written.length + index.length) bloom.length w.minKey w.maxKey))

/-- `Finish`. -/
def finish (w : Writer) : Except Fault (SSTableMeta × Bytes) :=
  let w := w.flushBlock
  if w.file.length < 2 ^ 63 then
    .ok ({ path := w.path
           minKey := w.minKey
           maxKey := w.maxKey
           entryCount := w.entryCount
           fileSize := w.file.length
           filter := some w.filter
           index := w.index }, w.file)
  else .error (.error .fileTooLarge)

end Writer

/-! ## Reading a table -/

structure Reader where
  file : Bytes
  table : SSTableMeta
  deriving DecidableEq, Repr

namespace Reader

/-- `loadMeta`.  The key range of the table is not read back: both ends stay empty. -/
def loadMeta (path : Path) (file : Bytes) : Except Fault SSTableMeta := do
  let footer ← readAt file (file.length - footerSize) footerSize .footerUnreadable
  let magic := leValue (footer.drop (footerSize - 8))
  if magic ≠ magicNumber then throw (.error (.invalidMagic magic))
  let indexOffset := int64 (leValue (footer.take 8))
  let indexLen := int64 (leValue ((footer.drop 8).take 8))
  let bloomOffset := int64 (leValue ((footer.drop 16).take 8))
  let bloomLen := int64 (leValue ((footer.drop 24).take 8))
  let bloomData ← readAt file bloomOffset bloomLen .bloomUnreadable
  match BloomFilter.deserialize bloomData with
  | none => throw (.error .bloomTooShort)
  | some filter =>
    let indexData ← readAt file indexOffset indexLen .indexUnreadable
    let index ← decodeIndex indexData
    return { path := path, fileSize := file.length, filter := some filter, index := index }

def readBlock (r : Reader) (offset length : ℤ) : Except Fault Bytes := do
  let buf ← readAt r.file offset length .blockUnreadable
  if buf.length < 8 then throw (.panic .sliceOutOfRange)
  let storedCRC := leValue (buf.take 4)
  let dataLen := leValue ((buf.drop 4).take 4)
  -- the end of the data is computed with 32 bits
  let stop := (8 + dataLen) % 2 ^ 32
  if stop < 8 ∨ buf.length < stop then throw (.panic .sliceOutOfRange)
  let data := (buf.take stop).drop 8
  if (checksum data).toNat ≠ storedCRC then throw (.error (.blockCorruption offset))
  return data

/-- `Reader.Get`. -/
def get (r : Reader) (key : Key) : Except Fault (Option Entry) := do
  if ← liftPanic (r.table.mightContain key) then
    match r.table.findBlock key with
    | none => return none
    | some block =>
      if block.offset < 0 then return none
      return searchBlock (← r.readBlock block.offset block.length) key
  else return none

/-- What the iterator of a reader yields until it ends. -/
def iterate (r : Reader) : Except Fault (List Entry) := do
  let blocks ← r.table.index.mapM fun entry => r.readBlock entry.offset entry.length
  return blocks.flatMap decodeBlock

end Reader

/-! ## Opening a written table -/

theorem readAt_append (front middle back : Bytes) (failed : TableError) :
    readAt (front ++ (middle ++ back)) front.length middle.length failed = .ok middle := by
  unfold readAt
  rw [if_neg (by omega), if_neg (by omega)]
  by_cases empty : (middle.length : ℤ) = 0
  · rw [if_pos empty]
    have nil : middle = [] := eq_nil_of_length_eq_zero (by omega)
    rw [nil]
  · have inside : (front.length : ℤ) + middle.length ≤ (front ++ (middle ++ back)).length := by
      simp only [length_append]
      omega
    rw [if_neg empty, if_pos inside, Int.toNat_natCast, Int.toNat_natCast,
      drop_left' rfl, take_left' rfl]

theorem int64_leBytes {n : ℕ} (small : n < 2 ^ 63) : int64 (leValue (leBytes 8 n)) = n := by
  rw [leValue_leBytes (by omega), int64, signed, Nat.mod_eq_of_lt (by omega)]
  exact if_pos small

section Footer

variable (indexOffset indexLen bloomOffset bloomLen : ℕ) (minKey maxKey : Key)

@[simp]
theorem length_encodeFooter :
    (encodeFooter indexOffset indexLen bloomOffset bloomLen minKey maxKey).length = footerSize := by
  simp only [encodeFooter, length_append, length_leBytes, length_rightpad,
    length_take, length_replicate, footerSize]
  omega

theorem footer_magic :
    (encodeFooter indexOffset indexLen bloomOffset bloomLen minKey maxKey).drop (footerSize - 8)
      = leBytes 8 magicNumber := by
  unfold encodeFooter
  simp only [← append_assoc]
  apply drop_left'
  simp only [length_append, length_leBytes, length_rightpad, length_take,
    length_replicate, footerSize]
  omega

end Footer

variable {file : Bytes}

/-- A file that ends as a writer lets it end can be opened, and the index is the one that was
written; the key range stays unknown. -/
theorem loadMeta_parts (path : Path) {written index bloom : Bytes} (minKey maxKey : Key)
    (file_eq : file = written ++ (index ++ (bloom ++ encodeFooter written.length index.length
      (written.length + index.length) bloom.length minKey maxKey)))
    (size : file.length < 2 ^ 63) (indexLong : 4 ≤ index.length) (bloomLong : 16 ≤ bloom.length) :
    ∃ filter entries, decodeIndex index = .ok entries ∧ Reader.loadMeta path file = .ok
      { path := path, fileSize := file.length, filter := some filter, index := entries } := by
  set footer := encodeFooter written.length index.length (written.length + index.length)
    bloom.length minKey maxKey with footer_eq
  have footerLength : footer.length = footerSize := length_encodeFooter _ _ _ _ _ _
  have total : file.length = written.length + index.length + bloom.length + 64 := by
    rw [file_eq]
    simp only [length_append, footerLength, footerSize]
    omega
  have footerRead : readAt file (file.length - footerSize) footerSize .footerUnreadable
      = .ok footer := by
    have read := readAt_append (written ++ (index ++ bloom)) footer [] .footerUnreadable
    have assoc : written ++ (index ++ bloom) ++ (footer ++ []) = file := by
      rw [file_eq]
      simp only [append_nil, append_assoc]
    have front : ((written ++ (index ++ bloom)).length : ℤ) = file.length - footerSize := by
      simp only [length_append, footerSize]
      omega
    rw [assoc, front, footerLength] at read
    exact read
  have bloomRead : readAt file (written.length + index.length : ℕ) bloom.length
      .bloomUnreadable = .ok bloom := by
    have read := readAt_append (written ++ index) bloom footer .bloomUnreadable
    rw [length_append, append_assoc, ← file_eq] at read
    exact read
  have indexRead : readAt file written.length index.length .indexUnreadable = .ok index := by
    rw [file_eq]
    exact readAt_append written index (bloom ++ footer) .indexUnreadable
  have magic : leValue (footer.drop (footerSize - 8)) = magicNumber := by
    rw [footer_magic]
    exact leValue_leBytes (by unfold magicNumber; omega)
  have indexAt : int64 (leValue (footer.take 8)) = written.length := by
    exact int64_leBytes (by omega)
  have indexLen : int64 (leValue ((footer.drop 8).take 8)) = index.length := by
    exact int64_leBytes (by omega)
  have bloomAt : int64 (leValue ((footer.drop 16).take 8))
      = (written.length + index.length : ℕ) := by
    exact int64_leBytes (by omega)
  have bloomLen : int64 (leValue ((footer.drop 24).take 8)) = bloom.length := by
    exact int64_leBytes (by omega)
  have deserialized : ∃ filter, BloomFilter.deserialize bloom = some filter := by
    unfold BloomFilter.deserialize
    rw [if_neg (not_lt.mpr bloomLong)]
    exact ⟨_, rfl⟩
  have decoded : ∃ entries, decodeIndex index = .ok entries := by
    unfold decodeIndex
    rw [if_neg (not_lt.mpr indexLong)]
    exact ⟨_, rfl⟩
  obtain ⟨filter, deserialized⟩ := deserialized
  obtain ⟨entries, decoded⟩ := decoded
  refine ⟨filter, entries, decoded, bind_eq_ok.mpr ⟨footer, footerRead, ?_⟩⟩
  simp only [magic, indexAt, indexLen, bloomAt, bloomLen, bloomRead, indexRead, deserialized,
    decoded, bind, Except.bind]
  rfl

variable {w : Writer}

namespace Writer

/-- A reader finds the index in every file that a writer finishes. -/
theorem loadMeta_index (w : Writer) (size : w.file.length < 2 ^ 63) (path : Path) :
    ∃ filter entries, decodeIndex (encodeIndex w.index) = .ok entries ∧
      Reader.loadMeta path w.file = .ok
        { path := path, fileSize := w.file.length, filter := some filter, index := entries } := by
  apply loadMeta_parts path w.minKey w.maxKey rfl size
  · rw [encodeIndex, length_append, length_leBytes]
    omega
  · rw [w.filter.length_serialize]
    exact Nat.le_add_right 16 _

@[simp]
theorem filter_flushBlock (w : Writer) : w.flushBlock.filter = w.filter := by
  unfold flushBlock
  split <;> rfl

@[simp]
theorem path_flushBlock (w : Writer) : w.flushBlock.path = w.path := by
  unfold flushBlock
  split <;> rfl

@[simp]
theorem minKey_flushBlock (w : Writer) : w.flushBlock.minKey = w.minKey := by
  unfold flushBlock
  split <;> rfl

@[simp]
theorem filter_makeRoom (w : Writer) (length : ℕ) : (w.makeRoom length).filter = w.filter := by
  unfold makeRoom
  dsimp only
  split <;> split <;> simp

@[simp]
theorem path_makeRoom (w : Writer) (length : ℕ) : (w.makeRoom length).path = w.path := by
  unfold makeRoom
  dsimp only
  split <;> split <;> simp

@[simp]
theorem minKey_makeRoom (w : Writer) (length : ℕ) : (w.makeRoom length).minKey = w.minKey := by
  unfold makeRoom
  dsimp only
  split <;> split <;> simp

theorem add_spec (fits : w.filter.Fits) (entry : Entry) :
    ∃ w', w.add entry = .ok w' ∧ w'.filter.Fits ∧ w'.path = w.path ∧
      w'.minKey = if w.minKey = [] ∨ entry.key < w.minKey then entry.key else w.minKey := by
  obtain ⟨filter, added, fits'⟩ := fits.add entry.key
  refine ⟨_, bind_eq_ok.mpr ⟨filter, ?_, rfl⟩, fits', path_makeRoom w _, ?_⟩
  · rw [filter_makeRoom]
    exact added
  · rw [minKey_makeRoom]

/-- So does it take any number of them, and if they all have keys, then the smallest
key is not empty. -/
theorem foldlM_add (fits : w.filter.Fits) (entries : List Entry) :
    ∃ w', entries.foldlM add w = .ok w' ∧ w'.filter.Fits ∧ w'.path = w.path ∧
      ((∀ entry ∈ entries, entry.key ≠ []) → w.minKey ≠ [] ∨ entries ≠ [] → w'.minKey ≠ []) := by
  induction entries generalizing w with
  | nil =>
    refine ⟨w, rfl, fits, rfl, ?_⟩
    rintro - (known | some)
    · exact known
    · exact absurd rfl some
  | cons entry rest ih =>
    obtain ⟨w₁, added, fits₁, path₁, minKey₁⟩ := add_spec fits entry
    obtain ⟨w', run, fits', path', known⟩ := ih fits₁
    refine ⟨w', ?_, fits', path'.trans path₁, ?_⟩
    · rw [foldlM_cons, bind_eq_ok]
      exact ⟨w₁, added, run⟩
    · intro keys _
      apply known fun entry mem => keys entry (mem_cons_of_mem _ mem)
      left
      rw [minKey₁]
      split
      · exact keys entry mem_cons_self
      · rename_i other
        exact fun empty => other (.inl empty)

/-- The first entry that is added to a writer made for no keys panics. -/
theorem foldlM_add_new_zero (sizing : Sizing) (path : Path) {entries : List Entry}
    (some_entry : entries ≠ []) :
    entries.foldlM add (new sizing path 0) = .error .divideByZero := by
  obtain ⟨first, rest, rfl⟩ := exists_cons_of_ne_nil some_entry
  have failed : (new sizing path 0).add first = .error .divideByZero := by
    unfold add
    dsimp only
    rw [filter_makeRoom, new, BloomFilter.add_new_zero]
    rfl
  rw [foldlM_cons, failed]
  rfl

end Writer

/-- What an engine needs of a table that it has listed: the file can be opened, and the
filter in memory can be asked. -/
structure Finished (m : SSTableMeta) (file : Bytes) : Prop where
  opens : ∀ path, ∃ filter entries, Reader.loadMeta path file = .ok
    { path := path, fileSize := file.length, filter := some filter, index := entries }
  filter : ∃ filter, m.filter = some filter ∧ filter.Fits

variable {m : SSTableMeta}

theorem Writer.finished (fits : w.filter.Fits) (finish : w.finish = .ok (m, file)) :
    Finished m file ∧ m.path = w.path ∧ m.minKey = w.minKey := by
  unfold Writer.finish at finish
  dsimp only at finish
  split at finish
  · rename_i size
    cases finish
    refine ⟨⟨fun path => ?_, w.flushBlock.filter, rfl, ?_⟩, w.path_flushBlock,
      w.minKey_flushBlock⟩
    · obtain ⟨filter, entries, -, loaded⟩ := Writer.loadMeta_index _ size path
      exact ⟨filter, entries, loaded⟩
    · rw [filter_flushBlock]
      exact fits
  · nomatch finish

/-- A reader that knows no key range finds no key but the empty one. -/
theorem Reader.get_eq_none {r : Reader} (range : r.table.maxKey = []) {key : Key}
    (named : key ≠ []) : r.get key = .ok none := by
  have outside : r.table.mightContain key = .ok false := by
    unfold SSTableMeta.mightContain
    rw [range]
    apply if_pos
    right
    cases key with
    | nil => exact absurd rfl named
    | cons b rest => exact nil_lt_cons b rest
  unfold Reader.get
  rw [outside]
  rfl

theorem SSTableMeta.mightContain_nil (known : m.minKey ≠ []) : m.mightContain [] = .ok false := by
  apply if_pos
  left
  cases first : m.minKey with
  | nil => exact absurd first known
  | cons b rest => exact nil_lt_cons b rest

theorem Finished.mightContain (finished : Finished m file) (key : Key) :
    ∃ b, m.mightContain key = .ok b := by
  obtain ⟨filter, same, fits⟩ := finished.filter
  unfold SSTableMeta.mightContain
  rw [same]
  split
  · exact ⟨false, rfl⟩
  · exact fits.contains key

end SSTable

end Hermes.Storage
