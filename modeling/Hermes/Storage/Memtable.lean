import Hermes.Clock.Hlc
import Hermes.Data.SkipList

/-!
# The memtable

Writes go into a skip list in memory.  Keys are strings of bytes, compared byte by
byte; a deletion is kept as an entry of its own.
-/

namespace Hermes.Storage.Memtable

open List
open Clock (HLCTimestamp)

/-- A Go string used as a key. -/
abbrev Key := Bytes

structure Entry where
  key : Key
  value : Bytes
  /-- The timestamp of the hybrid clock. -/
  timestamp : HLCTimestamp
  deleted : Bool := false
  /-- The sequence number in the write-ahead log. -/
  sequence : ℕ := 0
  deriving DecidableEq, Repr

/-- What a reader sees of an entry. -/
def Entry.visible (entry : Entry) : Option Bytes :=
  if entry.deleted then none else some entry.value

variable {entry : Entry}

theorem Entry.visible_eq_some_iff {value : Bytes} :
    entry.visible = some value ↔ ¬ entry.deleted ∧ entry.value = value := by
  unfold Entry.visible
  cases entry.deleted <;> simp

def maxLevel : ℕ := 12

/-- `randomLevel`: the level rises as long as the drawn numbers are below the
probability of a quarter, which the coins tell. -/
def randomLevel (coins : List Bool) : ℕ :=
  min maxLevel (1 + (coins.takeWhile id).length)

theorem randomLevel_pos (coins : List Bool) : 0 < randomLevel coins := by
  unfold randomLevel maxLevel
  omega

theorem ordered_nil : Tower.Ordered Entry.key [] :=
  .nil

theorem high_nil : ∀ t ∈ ([] : List (Tower Entry)), 0 < t.height :=
  List.forall_mem_nil _

structure SkipList where
  list : Hermes.SkipList Entry.key := { ordered := ordered_nil, high := high_nil }
  length : ℕ := 0
  /-- The approximate memory in use, which only new keys add to. -/
  size : ℕ := 0

namespace SkipList

variable (sl : SkipList) (coins : List Bool)

/-- Replace the entry of a key or link a new node. -/
def set (entry : Entry) : SkipList :=
  let list := sl.list.set entry (randomLevel coins) (randomLevel_pos coins)
  match sl.list.get entry.key with
  | some _ => { sl with list := list }
  | none =>
    { list := list
      length := sl.length + 1
      size := sl.size + (entry.key.length + entry.value.length + 64) }

def put (key : Key) (value : Bytes) (ts : HLCTimestamp) (seq : ℕ) : SkipList :=
  sl.set coins { key := key, value := value, timestamp := ts, sequence := seq }

/-- `Get`. -/
def get (key : Key) : Option Entry :=
  sl.list.get key

/-- `Delete` marks a node that is there; otherwise it puts an empty value first and
then marks the node it finds. -/
def delete (key : Key) (ts : HLCTimestamp) (seq : ℕ) : SkipList :=
  match sl.get key with
  | some _ =>
    sl.set coins { key := key, value := [], timestamp := ts, sequence := seq, deleted := true }
  | none =>
    let sl := sl.put coins key [] ts seq
    match sl.get key with
    | some entry => sl.set coins { entry with deleted := true, value := [] }
    | none => sl

def getAtTimestamp (key : Key) (readTS : HLCTimestamp) : Option Entry :=
  match sl.get key with
  | none => none
  | some entry => if entry.timestamp > readTS then none else some entry

/-- `Scan`; an empty end means that there is none. -/
def scan (startKey endKey : Key) : List Entry :=
  ((sl.list.seek startKey).map Tower.item).takeWhile fun entry =>
    endKey = [] ∨ entry.key < endKey

def all : List Entry :=
  sl.scan [] []

variable {sl coins}

theorem get_set (entry : Entry) (key : Key) :
    (sl.set coins entry).get key = if key = entry.key then some entry else sl.get key := by
  have list : (sl.set coins entry).list
      = sl.list.set entry (randomLevel coins) (randomLevel_pos coins) := by
    unfold set
    cases sl.list.get entry.key <;> rfl
  rw [get, list, Hermes.SkipList.get_set]
  rfl

theorem get_put (key : Key) (value : Bytes) (ts : HLCTimestamp) (seq : ℕ) (k : Key) :
    (sl.put coins key value ts seq).get k =
      if k = key then some { key := key, value := value, timestamp := ts, sequence := seq }
      else sl.get k :=
  get_set _ k

/-- A deletion leaves a tombstone, whether or not the key was there. -/
theorem get_delete (key : Key) (ts : HLCTimestamp) (seq : ℕ) (k : Key) :
    (sl.delete coins key ts seq).get k =
      if k = key then
        some { key := key, value := [], timestamp := ts, sequence := seq, deleted := true }
      else sl.get k := by
  unfold delete
  cases sl.get key with
  | some _ => exact get_set _ k
  | none =>
    dsimp only
    rw [get_put, if_pos rfl]
    rw [get_set]
    by_cases same : k = key
    · rw [if_pos same, if_pos same]
    · rw [if_neg same, if_neg same, get_put, if_neg same]

/-- `Len` is zero only where nothing is found. -/
def Counted (sl : SkipList) : Prop :=
  sl.length = 0 → ∀ key, sl.get key = none

theorem counted_empty : Counted {} :=
  fun _ _ => rfl

theorem Counted.set (counted : sl.Counted) (entry : Entry) : (sl.set coins entry).Counted := by
  unfold SkipList.set
  cases found : sl.list.get entry.key with
  | none => exact nofun
  | some old =>
    intro zero
    have absent := counted zero entry.key
    rw [get, found] at absent
    nomatch absent

theorem Counted.put (counted : sl.Counted) (key : Key) (value : Bytes) (ts : HLCTimestamp)
    (seq : ℕ) : (sl.put coins key value ts seq).Counted :=
  counted.set _

theorem Counted.delete (counted : sl.Counted) (key : Key) (ts : HLCTimestamp) (seq : ℕ) :
    (sl.delete coins key ts seq).Counted := by
  unfold SkipList.delete
  cases sl.get key with
  | some _ => exact counted.set _
  | none =>
    dsimp only
    split
    · exact (counted.put key [] ts seq).set _
    · exact counted.put key [] ts seq

theorem key_of_get {key : Key} (found : sl.get key = some entry) : entry.key = key :=
  (Hermes.SkipList.get_eq_some_iff.mp found).2

theorem pairwise_seek (startKey : Key) :
    ((sl.list.seek startKey).map Tower.item).Pairwise fun a b => a.key < b.key :=
  pairwise_map.mpr (Hermes.SkipList.ordered_seek sl.list startKey)

/-- A scan lists the entries in the order of their keys. -/
theorem pairwise_scan (startKey endKey : Key) :
    (sl.scan startKey endKey).Pairwise fun a b => a.key < b.key :=
  (pairwise_seek startKey).sublist (takeWhile_sublist _)

/-- A scan yields the entries that `Get` finds for the keys in its range. -/
theorem mem_scan {startKey endKey : Key} :
    entry ∈ sl.scan startKey endKey ↔ sl.get entry.key = some entry ∧
      ¬ entry.key < startKey ∧ (endKey = [] ∨ entry.key < endKey) := by
  have behind : entry ∈ (sl.list.seek startKey).map Tower.item ↔
      sl.get entry.key = some entry ∧ ¬ entry.key < startKey := by
    rw [get, Hermes.SkipList.get_eq_some_iff, and_iff_left rfl, Hermes.SkipList.items,
      mem_map, mem_map]
    constructor
    · rintro ⟨t, mem, rfl⟩
      obtain ⟨node, notLower⟩ := Hermes.SkipList.mem_seek.mp mem
      exact ⟨⟨t, node, rfl⟩, notLower⟩
    · rintro ⟨⟨t, node, rfl⟩, notLower⟩
      exact ⟨t, Hermes.SkipList.mem_seek.mpr ⟨node, notLower⟩, rfl⟩
  have ordered : ((sl.list.seek startKey).map Tower.item).Pairwise fun a b => a.key < b.key :=
    pairwise_seek startKey
  rw [← and_assoc, ← behind, scan]
  generalize (sl.list.seek startKey).map Tower.item = entries at ordered
  -- the first key beyond the end has only such keys behind it
  induction entries with
  | nil => simp
  | cons first rest ih =>
    obtain ⟨later, ordered⟩ := pairwise_cons.mp ordered
    rw [takeWhile_cons, mem_cons]
    by_cases inside : endKey = [] ∨ first.key < endKey
    · rw [if_pos (decide_eq_true inside), mem_cons, or_and_right]
      exact or_congr ⟨fun same => ⟨same, same ▸ inside⟩, And.left⟩ (ih ordered)
    · rw [if_neg (by simpa using inside)]
      refine iff_of_false not_mem_nil ?_
      rintro ⟨rfl | mem, within⟩
      · exact inside within
      · exact inside (within.imp_right fun below => Std.lt_trans (later entry mem) below)

/-- The entries of a memtable are those that `Get` finds. -/
theorem mem_all : entry ∈ sl.all ↔ sl.get entry.key = some entry := by
  rw [all, mem_scan]
  exact and_iff_left ⟨not_lt_nil _, .inl rfl⟩

theorem Counted.all_eq_nil (counted : sl.Counted) (zero : sl.length = 0) : sl.all = [] := by
  rw [eq_nil_iff_forall_not_mem]
  intro entry mem
  have found := mem_all.mp mem
  rw [counted zero] at found
  nomatch found

end SkipList

end Hermes.Storage.Memtable
