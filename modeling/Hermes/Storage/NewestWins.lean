import Hermes.Data.Overlay
import Hermes.Storage.Compaction

/-!
# The merge keeps the newest entries

A compaction merges the entries of several tables.  Of the entries of a key it keeps the
one with the highest timestamp, and of several such ones the one that it meets first.
-/

namespace Hermes.Storage

open Memtable Overlay List

variable {entry : Entry} {tables : List (List Entry)}

namespace Engine

/-- An entry that is newer than those of its key before it, and not older than those
behind it. -/
def FirstNewest (entries : List Entry) (entry : Entry) : Prop :=
  ∃ front back, entries = front ++ entry :: back ∧
    (∀ other ∈ front, other.key = entry.key → other.timestamp < entry.timestamp) ∧
    ∀ other ∈ back, other.key = entry.key → other.timestamp ≤ entry.timestamp

variable {entries : List Entry}

theorem FirstNewest.concat {last : Entry} (first : FirstNewest entries entry)
    (notNewer : last.key = entry.key → last.timestamp ≤ entry.timestamp) :
    FirstNewest (entries ++ [last]) entry := by
  obtain ⟨front, back, rfl, before, behind⟩ := first
  refine ⟨front, back ++ [last], by rw [append_assoc, cons_append], before, ?_⟩
  rw [forall_mem_append, forall_mem_singleton]
  exact ⟨behind, notNewer⟩

/-- No entry of a key is newer than the first newest one. -/
theorem FirstNewest.le {other : Entry} (first : FirstNewest entries entry) (mem : other ∈ entries)
    (same : other.key = entry.key) : other.timestamp ≤ entry.timestamp := by
  obtain ⟨front, back, rfl, before, behind⟩ := first
  rcases mem_append.mp mem with early | late
  · exact Int64.le_of_lt (before other early same)
  · rcases mem_cons.mp late with rfl | later
    · exact Int64.le_refl _
    · exact behind other later same

theorem lookup_keepNewer (seen : AList fun _ : Key => Entry) (entry : Entry) (key : Key) :
    (keepNewer seen entry).lookup key =
      if key = entry.key ∧ ∀ old ∈ seen.lookup key, old.timestamp < entry.timestamp then some entry
      else seen.lookup key := by
  unfold keepNewer
  by_cases same : key = entry.key
  · subst same
    cases found : seen.lookup entry.key with
    | none => simp
    | some old =>
      dsimp only
      split
      · rename_i newer
        rw [Merge.lookup_insert_ite, if_pos rfl, if_pos]
        refine ⟨rfl, ?_⟩
        rintro _ ⟨⟩
        exact newer
      · rename_i notNewer
        rw [found, if_neg]
        exact fun both => notNewer (both.2 old rfl)
  · rw [if_neg fun both => same both.1]
    split
    · rw [Merge.lookup_insert_ite, if_neg same]
    · split
      · rw [Merge.lookup_insert_ite, if_neg same]
      · rfl

/-- The merge knows the first newest entry of every key. -/
theorem firstNewest_of_lookup {key : Key}
    (found : (entries.foldl keepNewer ∅).lookup key = some entry) :
    entry.key = key ∧ FirstNewest entries entry := by
  induction entries using reverseRecOn generalizing entry with
  | nil => nomatch found
  | append_singleton entries last ih =>
    rw [foldl_append, foldl_cons, foldl_nil, lookup_keepNewer] at found
    split at found
    · rename_i replaced
      cases found
      obtain ⟨rfl, older⟩ := replaced
      refine ⟨rfl, entries, [], rfl, ?_, nofun⟩
      intro other mem same
      -- the merge knows an entry of the key, which is the newest so far
      have known : last.key ∈ entries.foldl keepNewer ∅ :=
        mem_foldl_keepNewer.mpr (.inr (mem_map.mpr ⟨other, mem, same⟩))
      obtain ⟨old, foundOld⟩ := Option.isSome_iff_exists.mp (AList.lookup_isSome.mpr known)
      obtain ⟨sameOld, first⟩ := ih foundOld
      exact Int64.lt_of_le_of_lt (first.le mem (same.trans sameOld.symm)) (older old foundOld)
    · rename_i kept
      obtain ⟨rfl, first⟩ := ih found
      refine ⟨rfl, first.concat ?_⟩
      intro same
      rw [← Int64.not_lt]
      intro newer
      apply kept
      refine ⟨same.symm, ?_⟩
      intro old foundOld
      cases found.symm.trans foundOld
      exact newer

/-- The merge as a listing of what its rounds have kept. -/
theorem kWayMerge_eq_listing (tables : List (List Entry)) :
    kWayMerge tables = listing Entry.key (tables.flatten.foldl keepNewer ∅) fun _ => true := by
  rw [kWayMerge_eq, listing, filter_true]

theorem keyed_foldl_keepNewer (entries : List Entry) :
    Keyed Entry.key (entries.foldl keepNewer ∅) :=
  fun _ _ found => (firstNewest_of_lookup found).1

theorem mem_kWayMerge :
    entry ∈ kWayMerge tables ↔
      (tables.flatten.foldl keepNewer ∅).lookup entry.key = some entry := by
  rw [kWayMerge_eq_listing, mem_listing (keyed_foldl_keepNewer _), and_iff_left rfl]

end Engine

/-- The entry of its key that a merge is to choose: no table has a newer one, and no
earlier table has one that is as new. -/
def EarliestNewest (tables : List (List Entry)) (entry : Entry) : Prop :=
  ∃ i table, tables[i]? = some table ∧ entry ∈ table ∧
    ∀ (j : ℕ) (t : List Entry) (other : Entry), tables[j]? = some t → other ∈ t →
      other.key = entry.key →
        other.timestamp ≤ entry.timestamp ∧ (other.timestamp = entry.timestamp → i ≤ j)

theorem exists_split_of_flatten {α : Type*} {lists : List (List α)} {front back : List α} {a : α}
    (split : lists.flatten = front ++ a :: back) :
    ∃ before l rest after, lists = before ++ (l ++ a :: rest) :: after ∧
      front = before.flatten ++ l := by
  induction lists generalizing front with
  | nil => exact absurd split.symm (append_ne_nil_of_right_ne_nil _ (cons_ne_nil _ _))
  | cons first others ih =>
    rw [flatten_cons, append_eq_append_iff] at split
    rcases split with ⟨more, rfl, inOthers⟩ | ⟨more, rfl, inFirst⟩
    · obtain ⟨before, l, rest, after, rfl, rfl⟩ := ih inOthers
      exact ⟨first :: before, l, rest, after, rfl, (append_assoc _ _ _).symm⟩
    · cases more with
      | nil =>
        obtain ⟨before, l, rest, after, rfl, nothing⟩ := @ih [] inFirst.symm
        refine ⟨front :: before, l, rest, after, by rw [append_nil]; rfl, ?_⟩
        rw [flatten_cons, append_assoc, ← nothing, append_nil]
      | cons b rest =>
        cases inFirst
        exact ⟨[], front, rest, others, rfl, rfl⟩

theorem Engine.FirstNewest.earliestNewest (first : FirstNewest tables.flatten entry) :
    EarliestNewest tables entry := by
  have newest := fun other => @first.le _ _ other
  obtain ⟨front, back, split, before, -⟩ := first
  obtain ⟨earlier, l, rest, later, rfl, rfl⟩ := exists_split_of_flatten split
  refine ⟨earlier.length, l ++ entry :: rest, ?_, ?_, ?_⟩
  · rw [getElem?_append_right le_rfl, Nat.sub_self]
    rfl
  · exact mem_append_cons_self
  · intro j t other at_j mem same
    have inFlatten : other ∈ (earlier ++ (l ++ entry :: rest) :: later).flatten :=
      mem_flatten.mpr ⟨t, mem_of_getElem? at_j, mem⟩
    refine ⟨newest other inFlatten same, ?_⟩
    intro tie
    by_contra below
    -- an entry of an earlier table is older
    rw [getElem?_append_left (Nat.lt_of_not_le below)] at at_j
    have inFront : other ∈ earlier.flatten ++ l :=
      mem_append_left _ (mem_flatten.mpr ⟨t, mem_of_getElem? at_j, mem⟩)
    have older := before other inFront same
    rw [tie] at older
    exact Int64.lt_irrefl older

open Engine in
/-- The merge is in the order of the keys, has every key of the tables once and no other
one, and has for each key the entry with the greatest timestamp, the one of the earliest
table on a tie.  The tables need not even be in order themselves. -/
theorem kWayMerge_newest (tables : List (List Entry)) :
    ((kWayMerge tables).Pairwise fun a b => a.key < b.key) ∧
      (∀ key, (∃ table ∈ tables, ∃ entry ∈ table, entry.key = key) ↔
        ∃ entry ∈ kWayMerge tables, entry.key = key) ∧
      ∀ entry ∈ kWayMerge tables, EarliestNewest tables entry := by
  refine ⟨?_, ?_, ?_⟩
  · rw [kWayMerge_eq_listing]
    exact pairwise_map.mp (pairwise_listing (keyed_foldl_keepNewer _))
  · intro key
    constructor
    · rintro ⟨table, inTables, entry, inTable, rfl⟩
      have known : entry.key ∈ tables.flatten.foldl keepNewer ∅ := by
        apply mem_foldl_keepNewer.mpr
        exact .inr (mem_map_of_mem (mem_flatten.mpr ⟨table, inTables, inTable⟩))
      obtain ⟨kept, found⟩ := Option.isSome_iff_exists.mp (AList.lookup_isSome.mpr known)
      have same := keyed_foldl_keepNewer _ _ _ found
      exact ⟨kept, mem_kWayMerge.mpr (same ▸ found), same⟩
    · rintro ⟨entry, mem, rfl⟩
      obtain ⟨front, back, split, -⟩ := (firstNewest_of_lookup (mem_kWayMerge.mp mem)).2
      have inFlatten : entry ∈ tables.flatten := by
        rw [split]
        exact mem_append_cons_self
      obtain ⟨table, inTables, inTable⟩ := mem_flatten.mp inFlatten
      exact ⟨table, inTables, entry, inTable, rfl⟩
  · intro entry mem
    exact (firstNewest_of_lookup (mem_kWayMerge.mp mem)).2.earliestNewest

end Hermes.Storage
