import Hermes.Data.Overlay
import Hermes.Storage.LastWrite
import Hermes.Storage.TableIndex

/-!
# Range reads

`Scan` lists the keys of a range with their values.  It collects entries from the tables on
disk, the deepest level first, and from the active memtable, and lets later entries replace
earlier ones.  `Get` asks the immutable memtables too, and in a deeper level only one table.
The two agree if the active memtable covers the immutable ones, if the range has an end or no
table is passed by for the lack of one, and if no two tables of a deeper level overlap.

Point reads of the tables on disk do not work.  To compare the two ways through the sources,
the reads of a single table are parameters here.
-/

namespace Hermes.Storage

open List Memtable Option Overlay SSTable

/-- What a loop over the iterator of a reader sees: the entries until the iterator ends or
fails. -/
def SSTable.Reader.yieldFrom (r : Reader) : List IndexEntry → Except Panic (List Entry)
  | [] => .ok []
  | entry :: rest =>
    match r.readBlock entry.offset entry.length with
    | .error (.panic p) => .error p
    | .error (.error _) => .ok []
    | .ok block => do return decodeBlock block ++ (← r.yieldFrom rest)

/-- The keys that a scan asks for; an empty end means that there is none. -/
def InRange (startKey endKey key : Key) : Prop :=
  ¬ key < startKey ∧ (endKey = [] ∨ key < endKey)
  deriving Decidable

/-- A scan passes a table by whose keys it takes to be out of its range. -/
def SSTable.SSTableMeta.PassedBy (m : SSTableMeta) (startKey endKey : Key) : Prop :=
  m.maxKey < startKey ∨ endKey < m.minKey
  deriving Decidable

variable {contents : SSTableMeta → List Entry}
  {read : SSTableMeta → Key → Except Fault (Option Entry)}
  {yields : SSTableMeta → Except Panic (List Entry)} {e : Engine}

namespace Engine

/-- What a scan sees of a table; a table that cannot be opened is left out. -/
def yieldOf (files : Files) (m : SSTableMeta) : Except Panic (List Entry) :=
  match openReader files m.path with
  | .error (.panic p) => .error p
  | .error (.error _) => .ok []
  | .ok reader => reader.yieldFrom reader.table.index

/-- A scan with the given reads of single tables. -/
def scanWith (yields : SSTableMeta → Except Panic (List Entry)) (e : Engine)
    (startKey endKey : Key) : Except Panic (List Entry) := do
  let results ← e.levels.reverse.flatten.foldlM
    (fun results m =>
      if m.PassedBy startKey endKey then .ok results
      else do
        let entries ← yields m
        return overlay Entry.key results
          (entries.filter fun entry => InRange startKey endKey entry.key))
    ∅
  let results := overlay Entry.key results (e.memTable.list.scan startKey endKey)
  return listing Entry.key results fun entry => ¬ entry.deleted

/-- `Scan`. -/
def scan (e : Engine) (files : Files) (startKey endKey : Key) : Except Panic (List Entry) :=
  e.scanWith (yieldOf files) startKey endKey

/-- The table of a deeper level that a read asks. -/
def searched (tables : List SSTableMeta) (key : Key) : Option SSTableMeta :=
  let reaches := fun i => (tables[i]?).any fun m => ¬ m.maxKey < key
  match tables[sortSearch reaches tables.length 0 tables.length]? with
  | none => none
  | some m => if key < m.minKey ∨ m.maxKey < key then none else some m

/-- The tables that a read asks, in this order, until one has the key. -/
def asked (e : Engine) (key : Key) : List SSTableMeta :=
  match e.levels with
  | [] => []
  | level0 :: deeper => level0.reverse ++ deeper.filterMap fun tables => searched tables key

/-- `Get` with the given reads of single tables. -/
def getWith (read : SSTableMeta → Key → Except Fault (Option Entry)) (e : Engine) (key : Key) :
    Except EngineFault (Option Bytes) :=
  if e.closed then .error .engineClosed
  else
    match lookup e.memory key with
    | some entry => .ok entry.visible
    | none =>
      match (e.asked key).findSomeM? fun m => read m key with
      | .error fault => .error (.table fault)
      | .ok entry => .ok (entry.bind Entry.visible)

/-! ## The reads of the engine -/

theorem readFromTables_eq (files : Files) (key : Key) (tables : List SSTableMeta) :
    readFromTables files key tables = tables.findSomeM? fun m => readFromSSTable files m key := by
  induction tables with
  | nil => rfl
  | cons m rest ih =>
    rw [readFromTables, findSomeM?_cons, ih]
    cases readFromSSTable files m key with
    | error fault => rfl
    | ok entry => cases entry <;> rfl

theorem readFromLevel_eq (files : Files) (key : Key) (tables : List SSTableMeta) :
    readFromLevel files tables key =
      match searched tables key with
      | none => .ok none
      | some m => readFromSSTable files m key := by
  unfold readFromLevel searched
  dsimp only
  cases tables[sortSearch (fun i => (tables[i]?).any fun m => ¬ m.maxKey < key)
      tables.length 0 tables.length]? with
  | none => rfl
  | some m =>
    dsimp only
    by_cases outside : key < m.minKey ∨ m.maxKey < key
    · rw [if_pos outside, if_pos outside]
    · rw [if_neg outside, if_neg outside]

theorem readFromLevels_eq (files : Files) (key : Key) (levels : List (List SSTableMeta)) :
    readFromLevels files key levels =
      (levels.filterMap fun tables => searched tables key).findSomeM? fun m =>
        readFromSSTable files m key := by
  induction levels with
  | nil => rfl
  | cons tables rest ih =>
    rw [readFromLevels, ih, filterMap_cons, readFromLevel_eq]
    cases searched tables key with
    | none => rfl
    | some m =>
      dsimp only
      rw [findSomeM?_cons]
      cases readFromSSTable files m key with
      | error fault => rfl
      | ok entry => cases entry <;> rfl

theorem get_eq_getWith (e : Engine) (files : Files) (key : Key) :
    e.get files key = e.getWith (readFromSSTable files) key := by
  have disk : e.readFromDisk files key =
      (e.asked key).findSomeM? fun m => readFromSSTable files m key := by
    unfold readFromDisk asked
    cases e.levels with
    | nil => rfl
    | cons level0 deeper =>
      dsimp only
      rw [findSomeM?_append, readFromTables_eq, readFromLevels_eq]
      cases level0.reverse.findSomeM? fun m => readFromSSTable files m key with
      | error fault => rfl
      | ok entry => cases entry <;> rfl
  unfold get getAtTimestamp getWith
  simp only [disk]
  rfl

/-! ## What the two ways find -/

/-- The entry of a key in the first of several tables that has one. -/
def newest (contents : SSTableMeta → List Entry) (tables : List SSTableMeta) (key : Key) :
    Option Entry :=
  tables.findSome? fun m => (contents m).find? fun entry => entry.key = key

/-- The tables that a scan reads; of those with the same key the first one counts. -/
def scanned (e : Engine) (startKey endKey : Key) : List SSTableMeta :=
  e.levels.reverse.flatten.reverse.filter fun m => ¬ m.PassedBy startKey endKey

/-- The reads of single tables are right: every table has its entries, with different keys, a
point read finds the entry of its key and the iterator yields them all. -/
structure ReadsCorrect (contents : SSTableMeta → List Entry)
    (read : SSTableMeta → Key → Except Fault (Option Entry))
    (yields : SSTableMeta → Except Panic (List Entry)) (e : Engine) : Prop where
  distinct : ∀ m ∈ e.levels.flatten, ((contents m).map Entry.key).Nodup
  read : ∀ m ∈ e.levels.flatten, ∀ key,
    read m key = .ok ((contents m).find? fun entry => entry.key = key)
  yields : ∀ m ∈ e.levels.flatten, yields m = .ok (contents m)

variable {tables : List SSTableMeta} {m : SSTableMeta}

theorem mem_of_searched {key : Key} (found : searched tables key = some m) : m ∈ tables := by
  unfold searched at found
  dsimp only at found
  split at found
  · nomatch found
  · rename_i at_index
    split at found
    · nomatch found
    · cases found
      exact mem_of_getElem? at_index

theorem mem_of_asked {key : Key} (mem : m ∈ e.asked key) : m ∈ e.levels.flatten := by
  unfold asked at mem
  cases levels : e.levels with
  | nil =>
    rw [levels] at mem
    nomatch mem
  | cons level0 deeper =>
    rw [levels] at mem
    rcases mem_append.mp mem with here | below
    · exact mem_append_left _ (mem_reverse.mp here)
    · obtain ⟨tables, listed, found⟩ := mem_filterMap.mp below
      exact mem_append_right _ (mem_flatten_of_mem listed (mem_of_searched found))

/-- The entries that a scan comes across, in this order. -/
def collected (contents : SSTableMeta → List Entry) (e : Engine) (startKey endKey : Key) :
    List Entry :=
  ((e.levels.reverse.flatten.filter fun m => ¬ m.PassedBy startKey endKey).flatMap fun m =>
    (contents m).filter fun entry => InRange startKey endKey entry.key)
    ++ e.memTable.list.scan startKey endKey

theorem mem_of_mem_reverse (mem : m ∈ e.levels.reverse.flatten) : m ∈ e.levels.flatten := by
  obtain ⟨tables, level, inside⟩ := mem_flatten.mp mem
  exact mem_flatten_of_mem (mem_reverse.mp level) inside

variable {startKey endKey key : Key}

theorem inRange_of_mem_collected {entry : Entry}
    (mem : entry ∈ e.collected contents startKey endKey) : InRange startKey endKey entry.key := by
  rcases mem_append.mp mem with onDisk | inMemory
  · obtain ⟨m, -, kept⟩ := mem_flatMap.mp onDisk
    exact of_decide_eq_true (mem_filter.mp kept).2
  · exact (SkipList.mem_scan.mp inMemory).2

section

variable (correct : ReadsCorrect contents read yields e)

include correct

theorem ReadsCorrect.getWith_eq (key : Key) :
    e.getWith read key = if e.closed then .error .engineClosed
      else .ok (((lookup e.memory key).or (newest contents (e.asked key) key)).bind
        Entry.visible) := by
  have disk : ((e.asked key).findSomeM? fun m => read m key)
      = .ok (newest contents (e.asked key) key) :=
    findSomeM?_eq_ok fun m mem => correct.read m (mem_of_asked mem) key
  unfold getWith
  rw [disk]
  cases lookup e.memory key <;> rfl

theorem ReadsCorrect.foldlM_eq (results : AList fun _ : Key => Entry)
    (listed : ∀ m ∈ tables, m ∈ e.levels.flatten) :
    tables.foldlM
      (fun results m =>
        if m.PassedBy startKey endKey then .ok results
        else do
          let entries ← yields m
          return overlay Entry.key results
            (entries.filter fun entry => InRange startKey endKey entry.key))
      results
    = .ok (overlay Entry.key results
        ((tables.filter fun m => ¬ m.PassedBy startKey endKey).flatMap fun m =>
          (contents m).filter fun entry => InRange startKey endKey entry.key)) := by
  induction tables generalizing results with
  | nil => rfl
  | cons m rest ih =>
    have later := fun m mem => listed m (mem_cons_of_mem _ mem)
    rw [foldlM_cons, filter_cons]
    by_cases passed : m.PassedBy startKey endKey
    · rw [if_pos passed, if_neg (by simpa using passed)]
      exact ih results later
    · rw [if_neg passed, if_pos (by simpa using passed), correct.yields m (listed m (by simp)),
        flatMap_cons, overlay_append]
      exact ih _ later

theorem ReadsCorrect.scanWith_eq (startKey endKey : Key) :
    e.scanWith yields startKey endKey = .ok
      (listing Entry.key (overlay Entry.key ∅ (e.collected contents startKey endKey))
        fun entry => ¬ entry.deleted) := by
  unfold scanWith
  rw [correct.foldlM_eq ∅ fun _ => mem_of_mem_reverse, collected, overlay_append]
  rfl

/-- What a scan finds under a key of its range: the entry of the active memtable, or else of
the tables that it reads. -/
theorem ReadsCorrect.lookup_collected (inside : InRange startKey endKey key) :
    (overlay Entry.key ∅ (e.collected contents startKey endKey)).lookup key
      = (e.memTable.list.get key).or (newest contents (e.scanned startKey endKey) key) := by
  have memory : ((e.memTable.list.scan startKey endKey).reverse.find? fun entry => entry.key = key)
      = e.memTable.list.get key := by
    have distinct : ((e.memTable.list.scan startKey endKey).map Entry.key).Nodup := by
      refine (pairwise_map.mpr (SkipList.pairwise_scan startKey endKey)).imp ?_
      rintro a b below rfl
      exact Std.lt_irrefl below
    rw [find?_reverse distinct]
    apply ext
    intro entry
    rw [find?_eq_some_iff distinct, SkipList.mem_scan]
    constructor
    · rintro ⟨⟨found, -⟩, rfl⟩
      exact found
    · intro found
      have same := SkipList.key_of_get found
      subst same
      exact ⟨⟨found, inside⟩, rfl⟩
  have table : ∀ m ∈ e.scanned startKey endKey,
      ((((contents m).filter fun entry => InRange startKey endKey entry.key).reverse).find?
        fun entry => entry.key = key) = (contents m).find? fun entry => entry.key = key := by
    intro m mem
    have listed := mem_of_mem_reverse (mem_reverse.mp (mem_of_mem_filter mem))
    rw [find?_reverse ((correct.distinct m listed).sublist (filter_sublist.map _)),
      find?_filter]
    congr 1
    funext entry
    by_cases same : entry.key = key
    · simp [same, inside]
    · simp [same]
  rw [lookup_overlay, AList.lookup_empty, or_none, collected, reverse_append,
    find?_append, memory, reverse_flatMap, find?_flatMap, ← filter_reverse]
  exact congrArg _ (findSome?_congr table)

theorem ReadsCorrect.exists_mem_listing {value : Bytes} :
    (∃ entry ∈ listing Entry.key (overlay Entry.key ∅ (e.collected contents startKey endKey))
        (fun entry => ¬ entry.deleted), entry.key = key ∧ entry.value = value) ↔
      InRange startKey endKey key ∧
        ((e.memTable.list.get key).or (newest contents (e.scanned startKey endKey) key)).bind
          Entry.visible = some value := by
  have keyed : Keyed Entry.key (overlay Entry.key ∅ (e.collected contents startKey endKey)) :=
    keyed_overlay _
  simp only [mem_listing keyed, decide_eq_true_eq]
  constructor
  · rintro ⟨entry, ⟨found, kept⟩, rfl, rfl⟩
    have inside : InRange startKey endKey entry.key := by
      rw [lookup_overlay, AList.lookup_empty, or_none] at found
      exact inRange_of_mem_collected (mem_reverse.mp (mem_of_find?_eq_some found))
    rw [correct.lookup_collected inside] at found
    rw [found]
    exact ⟨inside, Entry.visible_eq_some_iff.mpr ⟨kept, rfl⟩⟩
  · rintro ⟨inside, shown⟩
    obtain ⟨entry, found, visible⟩ := bind_eq_some_iff.mp shown
    rw [← correct.lookup_collected inside] at found
    have same : entry.key = key := keyed key entry found
    subst same
    obtain ⟨kept, rfl⟩ := Entry.visible_eq_some_iff.mp visible
    exact ⟨entry, ⟨found, kept⟩, rfl, rfl⟩

end

end Engine

/-! ## Agreement -/

/-- A list of entries is in order, has no key twice and shows exactly the values that a read
returns for the keys of the range. -/
structure ScanAgrees (get : Key → Except EngineFault (Option Bytes)) (startKey endKey : Key)
    (entries : List Entry) : Prop where
  sorted : (entries.map Entry.key).Pairwise (· < ·)
  shows : ∀ key value, (∃ entry ∈ entries, entry.key = key ∧ entry.value = value) ↔
    InRange startKey endKey key ∧ get key = .ok (some value)

/-- How the sources are arranged so that a scan of a range and `Get` see the same. -/
structure Engine.Arranged (contents : SSTableMeta → List Entry) (e : Engine)
    (startKey endKey : Key) : Prop where
  opened : e.closed = false
  /-- Scans pass the immutable memtables over. -/
  covered : ∀ table ∈ e.immutable, ∀ entry ∈ table.list.all,
    InRange startKey endKey entry.key → e.memTable.list.get entry.key ≠ none
  /-- Every table is above an empty end, but one that begins with the empty key. -/
  ends : endKey = [] → ∀ m ∈ e.levels.flatten, m.minKey = []
  bounds : ∀ m ∈ e.levels.flatten, m.minKey ≤ m.maxKey ∧
    ∀ entry ∈ contents m, m.minKey ≤ entry.key ∧ entry.key ≤ m.maxKey
  apart : ∀ tables ∈ e.levels.tail, tables.Pairwise fun m m' => m.maxKey < m'.minKey

namespace Engine

theorem newest_append (tables others : List SSTableMeta) (key : Key) :
    newest contents (tables ++ others) key =
      (newest contents tables key).or (newest contents others key) :=
  findSome?_append

/-- A table that has a key is the one that the search in its level finds. -/
theorem searched_eq (bounds : ∀ m ∈ tables, m.minKey ≤ m.maxKey)
    (apart : tables.Pairwise fun m m' => m.maxKey < m'.minKey) (mem : m ∈ tables)
    (above : m.minKey ≤ key) (below : key ≤ m.maxKey) : searched tables key = some m := by
  have rises : ∀ a b, a ≤ b → b < tables.length →
      ((tables[a]?).any fun m => ¬ m.maxKey < key) →
        (tables[b]?).any fun m => ¬ m.maxKey < key := by
    intro a b le inside reaches
    rcases eq_or_lt_of_le le with rfl | lt
    · exact reaches
    · rw [getElem?_eq_getElem (lt.trans inside), any_some, decide_eq_true_eq] at reaches
      rw [getElem?_eq_getElem inside, any_some, decide_eq_true_eq]
      have next := pairwise_iff_getElem.mp apart a b (lt.trans inside) inside lt
      have grows := Std.lt_of_lt_of_le next (bounds _ (getElem_mem inside))
      exact Std.le_trans reaches (Std.le_of_lt grows)
  obtain ⟨-, before, behind⟩ := sortSearch_spec rises (Nat.sub_le tables.length 0)
    (Nat.zero_le _) le_rfl (fun a lt => absurd lt (Nat.not_lt_zero a))
    fun _ le lt => absurd lt (not_lt.mpr le)
  obtain ⟨j, inside, rfl⟩ := getElem_of_mem mem
  unfold searched
  dsimp only
  generalize sortSearch (fun i => (tables[i]?).any fun m => ¬ m.maxKey < key)
    tables.length 0 tables.length = i at before behind ⊢
  -- the search stops at the table, and not before it
  have stops : i ≤ j := by
    by_contra beyond
    have misses := before j (by omega)
    rw [getElem?_eq_getElem inside, any_some, decide_eq_false_iff_not, not_not] at misses
    exact Std.not_lt.mpr below misses
  have reaches := behind i le_rfl (stops.trans_lt inside)
  rw [getElem?_eq_getElem (stops.trans_lt inside), any_some, decide_eq_true_eq] at reaches
  obtain rfl : i = j := by
    rcases eq_or_lt_of_le stops with same | lt
    · exact same
    · have next := pairwise_iff_getElem.mp apart i j (lt.trans inside) inside lt
      exact absurd (Std.lt_of_le_of_lt reaches next) (Std.not_lt.mpr above)
  rw [getElem?_eq_getElem inside]
  exact if_neg (not_or.mpr ⟨Std.not_lt.mpr above, Std.not_lt.mpr below⟩)

section

variable (arranged : e.Arranged contents startKey endKey)

include arranged

/-- A table that has a key of the range is not passed by. -/
theorem Arranged.find?_of_passedBy (inside : InRange startKey endKey key)
    (mem : m ∈ e.levels.flatten) (passed : m.PassedBy startKey endKey) :
    (contents m).find? (fun entry => entry.key = key) = none := by
  obtain ⟨from_start, to_end⟩ := inside
  rw [find?_eq_none]
  intro entry held
  rw [decide_eq_true_eq]
  rintro rfl
  obtain ⟨above, below⟩ := (arranged.bounds m mem).2 entry held
  rcases passed with before | behind
  · exact from_start (Std.lt_of_le_of_lt below before)
  · rcases to_end with none | ended
    · rw [arranged.ends none m mem, none] at behind
      exact Std.lt_irrefl behind
    · exact Std.lt_irrefl (Std.lt_trans ended (Std.lt_of_lt_of_le behind above))

theorem Arranged.newest_scanned (inside : InRange startKey endKey key) :
    newest contents (e.scanned startKey endKey) key =
      newest contents e.levels.reverse.flatten.reverse key := by
  unfold newest scanned
  rw [← head?_filterMap, ← head?_filterMap, filterMap_filter]
  congr 1
  refine filterMap_congr fun m mem => ?_
  split
  · rfl
  · rename_i passed
    have passed : m.PassedBy startKey endKey := by simpa using passed
    exact (arranged.find?_of_passedBy inside (mem_of_mem_reverse (mem_reverse.mp mem)) passed).symm

/-- Where the tables of a level do not overlap, the one that is searched tells as much as all
of them. -/
theorem Arranged.newest_searched (level : tables ∈ e.levels.tail) (key : Key) :
    newest contents (searched tables key).toList key = newest contents tables.reverse key := by
  have listed : ∀ m ∈ tables, m ∈ e.levels.flatten :=
    fun m mem => mem_flatten_of_mem (mem_of_mem_tail level) mem
  cases found : newest contents tables.reverse key with
  | none =>
    have nothing := findSome?_eq_none_iff.mp found
    refine findSome?_eq_none_iff.mpr fun m mem => nothing m (mem_reverse.mpr ?_)
    exact mem_of_searched (Option.mem_toList.mp mem)
  | some entry =>
    obtain ⟨m, mem, holds⟩ := exists_of_findSome?_eq_some found
    have mem := mem_reverse.mp mem
    have same : entry.key = key := of_decide_eq_true (find?_eq_some_iff_append.mp holds).1
    obtain ⟨above, below⟩ := (arranged.bounds m (listed m mem)).2 entry (mem_of_find?_eq_some holds)
    rw [searched_eq (fun m mem => (arranged.bounds m (listed m mem)).1)
      (arranged.apart tables level) mem (same ▸ above) (same ▸ below)]
    exact findSome?_singleton.trans holds

theorem Arranged.newest_asked (key : Key) :
    newest contents (e.asked key) key = newest contents e.levels.reverse.flatten.reverse key := by
  have deeper : ∀ levels : List (List SSTableMeta), (∀ tables ∈ levels, tables ∈ e.levels.tail) →
      newest contents (levels.filterMap fun tables => searched tables key) key =
        newest contents levels.reverse.flatten.reverse key := by
    intro levels below
    induction levels with
    | nil => rfl
    | cons tables rest ih =>
      have first := arranged.newest_searched (below tables mem_cons_self) key
      rw [reverse_cons, flatten_append, flatten_singleton, reverse_append, newest_append,
        ← ih fun tables mem => below tables (mem_cons_of_mem _ mem), ← first, ← newest_append]
      rw [filterMap_cons]
      cases searched tables key <;> rfl
  unfold asked
  cases levels : e.levels with
  | nil => rfl
  | cons level0 rest =>
    rw [newest_append, deeper rest (by rw [levels]; exact fun _ mem => mem), reverse_cons,
      flatten_append, flatten_singleton, reverse_append, newest_append]

/-- The immutable memtables have no key of the range that the active one does not have. -/
theorem Arranged.lookup_memory (inside : InRange startKey endKey key) :
    lookup e.memory key = e.memTable.list.get key := by
  rw [memory, lookup_cons]
  cases active : e.memTable.list.get key with
  | some entry => rfl
  | none =>
    rw [none_or, lookup, findSome?_eq_none_iff]
    intro table mem
    cases found : table.list.get key with
    | none => rfl
    | some entry =>
      have same := SkipList.key_of_get found
      subst same
      have held := arranged.covered table (mem_reverse.mp mem) entry (SkipList.mem_all.mpr found)
      exact absurd active (held inside)

end

/-- A table with the keys from `first` to `last`. -/
def tableFrom (level : ℕ) (first last : Key) : SSTableMeta :=
  { path := { level := level, nanos := 1 }, minKey := first, maxKey := last }

def entriesOf (m : SSTableMeta) : List Entry :=
  [{ key := m.minKey, value := [49], timestamp := 1 },
    { key := m.maxKey, value := [50], timestamp := 2 }]

/-- An engine with three tables, and with a newer value of `k` in an immutable memtable and a
still newer one in the active memtable. -/
def overTables : Engine :=
  { config := {}
    memTable := { id := 1, list := SkipList.put {} [] [107] [52] 4 4 }
    immutable := [{ id := 0, list := SkipList.put {} [] [107] [51] 3 3 }]
    levels := [tableFrom 0 [97] [107]] :: [tableFrom 1 [97] [98], tableFrom 1 [99] [108]] ::
      List.replicate 5 [] }

end Engine

end Hermes.Storage
