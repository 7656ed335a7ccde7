import Hermes.Data.Overlay
import Hermes.Storage.TableIterator

/-!
# Looking keys up through the index

The index of a table has the first key of every block.  A lookup finds the last block whose
first key is not above the wanted key by halving, and searches that block only.  In a table
whose keys increase this finds what a search of all blocks finds.
-/

namespace Hermes.Storage.SSTable

open Bloom List Memtable Option

/-! ## Halving -/

variable {f : ℕ → Bool}

/-- Where a property holds from some index on, the search finds that index. -/
theorem sortSearch_spec {n : ℕ} (rises : ∀ a b, a ≤ b → b < n → f a → f b) {fuel i j : ℕ}
    (enough : j - i ≤ fuel) (ordered : i ≤ j) (bounded : j ≤ n) (below : ∀ a < i, f a = false)
    (above : ∀ a, j ≤ a → a < n → f a) :
    sortSearch f fuel i j ≤ n ∧ (∀ a < sortSearch f fuel i j, f a = false) ∧
      ∀ a, sortSearch f fuel i j ≤ a → a < n → f a := by
  induction fuel generalizing i j with
  | zero =>
    obtain rfl : i = j := by omega
    exact ⟨bounded, below, above⟩
  | succ fuel ih =>
    rw [sortSearch]
    by_cases inside : i < j
    · rw [if_pos inside]
      by_cases holds : f ((i + j) / 2) = true
      · rw [if_pos holds]
        refine ih (by omega) (by omega) (by omega) below ?_
        intro a from_half within
        exact rises _ a from_half within holds
      · rw [if_neg holds]
        refine ih (by omega) (by omega) (by omega) ?_ above
        intro a to_half
        by_contra other
        exact holds (rises a _ (by omega) (by omega) (by simpa using other))
    · rw [if_neg inside]
      obtain rfl : i = j := by omega
      exact ⟨bounded, below, above⟩

/-! ## Two ways to look a key up -/

namespace Reader

/-- Search only the block that `FindBlock` selects. -/
def searchIndexed (r : Reader) (key : Key) : Except Fault (Option Entry) :=
  match r.table.findBlock key with
  | none => .ok none
  | some block => do return searchBlock (← r.readBlock block.offset block.length) key

/-- Search all blocks, one after the other. -/
def searchAll (r : Reader) (key : Key) : Except Fault (Option Entry) :=
  r.table.index.findSomeM? fun block => do
    return searchBlock (← r.readBlock block.offset block.length) key

end Reader

/-- What a table keeps of the entry of a key. -/
def findKey (entries : List Entry) (key : Key) : Option Entry :=
  (entries.find? fun entry => entry.key = key).map stored

theorem findKey_append (entries others : List Entry) (key : Key) :
    findKey (entries ++ others) key = (findKey entries key).or (findKey others key) := by
  rw [findKey, find?_append, map_or]
  rfl

theorem findKey_eq_none {entries : List Entry} {key : Key}
    (absent : ∀ entry ∈ entries, entry.key ≠ key) : findKey entries key = none := by
  have nothing : (entries.find? fun entry => entry.key = key) = none := by
    apply find?_eq_none.mpr
    intro entry mem
    simpa using absent entry mem
  rw [findKey, nothing]
  rfl

section Blocks

variable {m table : SSTableMeta} {file : Bytes} {blocks : List (List Entry)}

variable {block : List Entry}

/-- Searching the data of a block. -/
theorem CutInto.searchBlock_eq (cut : CutInto m file blocks)
    (mem : block ∈ blocks) (key : Key) : searchBlock (blockData block) key = findKey block key := by
  rw [searchBlock, cut.decodeBlock mem, find?_map]
  rfl

theorem findKey_flatten (blocks : List (List Entry)) (key : Key) :
    findKey blocks.flatten key = blocks.findSome? fun block => findKey block key := by
  induction blocks with
  | nil => rfl
  | cons block rest ih =>
    rw [flatten_cons, findKey_append, findSome?_cons, ih]
    cases findKey block key <;> rfl

theorem CutInto.searchAll_eq (cut : CutInto m file blocks) (same : table.index = m.index)
    (key : Key) :
    Reader.searchAll { file := file, table := table } key = .ok (findKey blocks.flatten key) := by
  have searched := findSomeM?_of_mapM (cut.mapM_readBlock same) fun data => searchBlock data key
  rw [findSome?_map] at searched
  rw [findKey_flatten, ← Overlay.findSome?_congr fun block mem => cut.searchBlock_eq mem key]
  exact searched

/-! ## The block that the index selects -/

/-- The first key of a block, as the index has it. -/
def firstKey (block : List Entry) : Key :=
  (block.head?.map Entry.key).getD []

theorem map_key_indexFrom (offset : ℕ) (blocks : List (List Entry)) :
    (indexFrom offset blocks).map IndexEntry.key = blocks.map firstKey := by
  induction blocks generalizing offset with
  | nil => rfl
  | cons block rest ih =>
    rw [indexFrom, map_cons, ih]
    rfl

theorem CutInto.readBlock_eq {front back : List (List Entry)}
    (cut : CutInto m file (front ++ block :: back)) (same : table.index = m.index) :
    ∃ entry, table.index[front.length]? = some entry ∧
      Reader.readBlock { file := file, table := table } entry.offset entry.length
        = .ok (blockData block) := by
  obtain ⟨rest, file_eq⟩ := cut.front
  rw [encodeBlocks_append, encodeBlocks_cons, append_assoc, append_assoc] at file_eq
  have short := cut.short block mem_append_cons_self
  have read := readBlock_append table (encodeBlocks front) (blockData block)
    (encodeBlocks back ++ rest) short
  rw [← file_eq] at read
  have place : (indexFrom 0 (front ++ block :: back))[front.length]? = some
      { key := firstKey block
        offset := (encodeBlocks front).length
        length := int32 (8 + (blockData block).length) } := by
    rw [indexFrom_append, getElem?_append_right (length_indexFrom 0 front).le,
      length_indexFrom, Nat.sub_self, Nat.zero_add]
    rfl
  rw [← cut.index, ← same] at place
  exact ⟨_, place, read⟩

/-- The keys of the entries increase from block to block. -/
structure Increasing (blocks : List (List Entry)) : Prop where
  nonempty : ∀ block ∈ blocks, block ≠ []
  within : ∀ block ∈ blocks, block.Pairwise fun a b => a.key < b.key
  across : blocks.Pairwise fun b b' => ∀ e ∈ b, ∀ e' ∈ b', e.key < e'.key

section

variable (increasing : Increasing blocks)

include increasing

theorem Increasing.not_lt_firstKey (mem : block ∈ blocks) {entry : Entry} (inside : entry ∈ block) :
    ¬ entry.key < firstKey block := by
  obtain ⟨first, rest, rfl⟩ := exists_cons_of_ne_nil (increasing.nonempty block mem)
  rcases mem_cons.mp inside with rfl | later
  · exact Std.lt_irrefl
  · have above := (pairwise_cons.mp (increasing.within _ mem)).1 entry later
    exact fun below => Std.lt_irrefl (Std.lt_trans above below)

theorem Increasing.firstKey_mem (mem : block ∈ blocks) :
    ∃ entry ∈ block, entry.key = firstKey block := by
  obtain ⟨first, rest, rfl⟩ := exists_cons_of_ne_nil (increasing.nonempty block mem)
  exact ⟨first, mem_cons_self, rfl⟩

/-- The first keys increase, so those above a key come last. -/
theorem Increasing.above_rises (key : Key) {a b : ℕ} (le : a ≤ b) (bounded : b < blocks.length)
    (above : (blocks[a]?).any fun block => key < firstKey block) :
    (blocks[b]?).any fun block => key < firstKey block := by
  rcases eq_or_lt_of_le le with rfl | lt
  · exact above
  · rw [getElem?_eq_getElem (by omega), any_some, decide_eq_true_eq] at above ⊢
    obtain ⟨e, inA, eq⟩ := increasing.firstKey_mem (getElem_mem (lt_trans lt bounded))
    obtain ⟨e', inB, eq'⟩ := increasing.firstKey_mem (getElem_mem bounded)
    have across := pairwise_iff_getElem.mp increasing.across a b _ bounded lt e inA e' inB
    rw [eq, eq'] at across
    exact Std.lt_trans above across

/-- What `FindBlock` selects: the last block whose first key is not above the wanted one. -/
theorem findBlock_cases (index : table.index = indexFrom 0 blocks) (key : Key) :
    (table.findBlock key = none ∧ ∀ block ∈ blocks, key < firstKey block) ∨
      ∃ front block back, blocks = front ++ block :: back ∧
        table.findBlock key = table.index[front.length]? ∧ ¬ key < firstKey block ∧
        ∀ later ∈ back, key < firstKey later := by
  have above_eq :
      (fun i => (table.index[i]?).any fun entry : IndexEntry => decide (key < entry.key))
      = fun i : ℕ => (blocks[i]?).any fun block => decide (key < firstKey block) := by
    funext i
    have keys := congrArg (fun l => (l[i]?).any fun k => decide (key < k))
      (map_key_indexFrom 0 blocks)
    simpa only [getElem?_map, Option.any_map, ← index] using keys
  have length_eq : table.index.length = blocks.length := by rw [index, length_indexFrom]
  obtain ⟨bounded, below, above⟩ := sortSearch_spec
    (fun a b le bounded => increasing.above_rises key le bounded) (Nat.sub_le blocks.length 0)
    (Nat.zero_le _) le_rfl (fun a lt => absurd lt (Nat.not_lt_zero a))
    fun _ le lt => absurd lt (not_lt.mpr le)
  unfold SSTableMeta.findBlock
  dsimp only
  rw [above_eq, length_eq]
  generalize sortSearch _ blocks.length 0 blocks.length = position at bounded below above ⊢
  have later {i : ℕ} (le : position ≤ i) (lt : i < blocks.length) : key < firstKey blocks[i] := by
    have holds := above i le lt
    rwa [getElem?_eq_getElem lt, any_some, decide_eq_true_eq] at holds
  cases position with
  | zero =>
    refine .inl ⟨rfl, fun block mem => ?_⟩
    obtain ⟨i, lt, rfl⟩ := getElem_of_mem mem
    exact later (Nat.zero_le i) lt
  | succ idx =>
    refine .inr ⟨blocks.take idx, blocks[idx], blocks.drop (idx + 1), ?_, ?_, ?_, ?_⟩
    · rw [getElem_cons_drop, take_append_drop]
    · rw [length_take, min_eq_left (by omega)]
    · have fails := below idx (Nat.lt_succ_self idx)
      rwa [getElem?_eq_getElem (by omega), any_some, decide_eq_false_iff_not]
        at fails
    · intro block mem
      obtain ⟨i, lt, rfl⟩ := getElem_of_mem mem
      rw [getElem_drop]
      exact later (Nat.le_add_right _ _) _

theorem Increasing.key_ne_of_lt {key : Key} (mem : block ∈ blocks) (lt : key < firstKey block) :
    ∀ entry ∈ block, entry.key ≠ key := by
  rintro entry inside rfl
  exact increasing.not_lt_firstKey mem inside lt

end

theorem CutInto.searchIndexed_eq (cut : CutInto m file blocks) (same : table.index = m.index)
    (increasing : Increasing blocks) (key : Key) :
    Reader.searchIndexed { file := file, table := table } key
      = .ok (findKey blocks.flatten key) := by
  unfold Reader.searchIndexed
  rcases findBlock_cases increasing (same.trans cut.index) key with
    ⟨none, above⟩ | ⟨front, block, back, rfl, selected, notAbove, above⟩
  · rw [none, findKey_eq_none]
    intro entry mem
    obtain ⟨block, inBlocks, inside⟩ := mem_flatten.mp mem
    exact increasing.key_ne_of_lt inBlocks (above block inBlocks) entry inside
  · have inBlocks : block ∈ front ++ block :: back :=
      mem_append_cons_self
    have before : findKey front.flatten key = none := by
      apply findKey_eq_none
      rintro entry mem rfl
      obtain ⟨earlier, inFront, inside⟩ := mem_flatten.mp mem
      obtain ⟨first, isFirst, first_eq⟩ := increasing.firstKey_mem inBlocks
      have lt := (pairwise_append.mp increasing.across).2.2 earlier inFront block
        mem_cons_self entry inside first isFirst
      rw [first_eq] at lt
      exact notAbove lt
    have behind : findKey back.flatten key = none := by
      apply findKey_eq_none
      intro entry mem
      obtain ⟨later, inBack, inside⟩ := mem_flatten.mp mem
      exact increasing.key_ne_of_lt (mem_append_right _ (mem_cons_of_mem _ inBack))
        (above later inBack) entry inside
    obtain ⟨entry, place, read⟩ := cut.readBlock_eq same
    have selected_eq : table.findBlock key = some entry := selected.trans place
    rw [selected_eq]
    show (do return searchBlock (← Reader.readBlock _ entry.offset entry.length) key) = _
    rw [read, flatten_append, findKey_append, before, flatten_cons, findKey_append,
      behind, or_none, ← cut.searchBlock_eq inBlocks key]
    rfl

end Blocks

/-- In a table that a writer made of entries with increasing keys, a lookup through the index
and a search of all blocks find the same: what was added under the key.  The blocks must not
be too long for their length in the index. -/
theorem lookup_eq_scan {sizing : Sizing} {path : Path} {expectedKeys : ℕ} {entries : List Entry}
    {w : Writer} (added : entries.foldlM Writer.add (Writer.new sizing path expectedKeys) = .ok w)
    {m : SSTableMeta} {file : Bytes} (finished : w.finish = .ok (m, file))
    (small : ∀ entry ∈ entries, 8 + (encodeEntry entry).length < 2 ^ 31)
    (increasing : entries.Pairwise fun a b => a.key < b.key)
    {table : SSTableMeta} (same : table.index = m.index) (key : Key) :
    Reader.searchIndexed { file := file, table := table } key
        = Reader.searchAll { file := file, table := table } key ∧
      Reader.searchAll { file := file, table := table } key = .ok (findKey entries key) := by
  obtain ⟨blocks, rfl, cut⟩ := Writer.cutInto_of_finish added finished small
  have scanned := cut.searchAll_eq same key
  obtain ⟨within, across⟩ := pairwise_flatten.mp increasing
  have looked := cut.searchIndexed_eq same ⟨cut.nonempty, within, across⟩ key
  exact ⟨looked.trans scanned.symm, scanned⟩

/-- Two entries, the second one a deletion. -/
theorem lookup_eq_scan_two :
    ∃ w m file,
      [{ key := [1], value := [20], timestamp := 7 },
        { key := [2], value := [], timestamp := 8, deleted := true }].foldlM Writer.add
          (Writer.new .decimal { level := 0, nanos := 0 } 2) = .ok w ∧
      w.finish = .ok (m, file) ∧
      Reader.searchIndexed { file := file, table := m } [2]
        = Reader.searchAll { file := file, table := m } [2] ∧
      Reader.searchAll { file := file, table := m } [2]
        = .ok (some { key := [2], value := [], timestamp := 8, deleted := true }) := by
  obtain ⟨w, added, m, file, finished, -⟩ : ∃ w,
      [{ key := [1], value := [20], timestamp := 7 },
        { key := [2], value := [], timestamp := 8, deleted := true }].foldlM Writer.add
          (Writer.new .decimal { level := 0, nanos := 0 } 2) = .ok w ∧
      ∃ m file, w.finish = .ok (m, file) ∧ True := by decide +kernel
  exact ⟨w, m, file, added, finished,
    lookup_eq_scan added finished (by decide) (by decide) rfl [2]⟩

/-- Where a single entry makes a block of 2^31 bytes, a lookup of a key below it finds nothing,
but a search of all blocks panics. -/
theorem lookup_oversized :
    ∃ (e : Entry) (w : Writer) (m : SSTableMeta) (file : Bytes) (table : SSTableMeta),
      [e].foldlM Writer.add (Writer.new .decimal { level := 0, nanos := 0 } 1) = .ok w ∧
      w.finish = .ok (m, file) ∧ Reader.loadMeta { level := 0, nanos := 0 } file = .ok table ∧
      Reader.searchIndexed { file := file, table := table } [] = .ok none ∧
      Reader.searchAll { file := file, table := table } [] = .error (.panic .negativeLength) := by
  obtain ⟨e, file, table, -, ⟨w, m, added, finished, loaded⟩, index⟩ := exists_oversized
  refine ⟨e, w, m, file, table, added, finished, loaded, ?_, ?_⟩
  · have none : table.findBlock [] = none := by
      unfold SSTableMeta.findBlock
      rw [index]
      rfl
    unfold Reader.searchIndexed
    rw [none]
  · unfold Reader.searchAll
    rw [index]
    rfl

end Hermes.Storage.SSTable
