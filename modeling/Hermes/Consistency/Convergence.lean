import Hermes.Consistency.Crdt

/-!
# Merging replicated data types is a join

The maps of the counters and of the set are joined entry by entry, and a register is
ranked by the time of its value and its writer.  Replicas that have merged the same
states hold equal states.
-/

namespace Hermes.Consistency

open Function (update update_eq_self_iff)
open Merge Option UInt64

/-! ## Counters -/

namespace GCounter

/-- The counts as natural numbers. -/
abbrev rank (c : GCounter) : NodeID → WithBot ℕ :=
  shown UInt64.toNat c.counts

theorem shown_mergeEntry (counts : Counts) (entry : (_ : NodeID) × UInt64) :
    shown UInt64.toNat (mergeEntry counts entry) = update (shown UInt64.toNat counts) entry.1
      (shown UInt64.toNat counts entry.1 ⊔ entry.2.toNat) := by
  unfold mergeEntry
  split
  · rename_i absent
    have nothing : shown UInt64.toNat counts entry.1 = ⊥ := by
      rw [shown, absent]
      rfl
    rw [shown_insert, nothing]
    rfl
  · rename_i existing present
    have old : shown UInt64.toNat counts entry.1 = existing.toNat := by
      rw [shown, present]
      rfl
    split
    · rename_i more
      rw [shown_insert, old]
      exact congrArg _ (sup_eq_right.mpr (WithBot.coe_le_coe.mpr more.le)).symm
    · rename_i notMore
      rw [gt_iff_lt, lt_iff_toNat_lt, not_lt] at notMore
      refine (update_eq_self_iff.mpr ?_).symm
      rw [old]
      exact sup_eq_left.mpr (WithBot.coe_le_coe.mpr notMore)

theorem rank_merge (a b : GCounter) : (a.merge b).rank = a.rank ⊔ b.rank :=
  shown_foldl shown_mergeEntry a.counts b.counts

theorem state_eq_iff {a b : GCounter} : a.state = b.state ↔ a.rank = b.rank := by
  have injective : Function.Injective UInt64.toNat := fun _ _ => UInt64.toNat_inj.mp
  rw [shown_eq_shown_iff]
  simp only [funext_iff, (map_injective injective).eq_iff, state]

end GCounter

namespace PNCounter

def rank (c : PNCounter) : (NodeID → WithBot ℕ) × (NodeID → WithBot ℕ) :=
  (c.positive.rank, c.negative.rank)

theorem rank_merge (a b : PNCounter) : (a.merge b).rank = a.rank ⊔ b.rank :=
  Prod.ext (GCounter.rank_merge _ _) (GCounter.rank_merge _ _)

theorem state_eq_iff {a b : PNCounter} : a.state = b.state ↔ a.rank = b.rank := by
  simp only [state, rank, Prod.mk.injEq, GCounter.state_eq_iff]

end PNCounter

/-! ## Registers -/

namespace LWWRegister

variable {V : Type*}

/-- Registers are ranked by time, then by writer. -/
def rank (r : LWWRegister V) : ℤ ×ₗ String :=
  toLex (r.timestamp.toInt, r.writerID)

variable {a b : LWWRegister V}

theorem rank_eq_iff : a.rank = b.rank ↔ a.timestamp = b.timestamp ∧ a.writerID = b.writerID := by
  simp [rank, Int64.toInt_inj]

/-- `Merge` takes over the other register exactly if that one has the higher rank. -/
theorem state_merge (r other : LWWRegister V) :
    (r.merge other).state = if r.rank < other.rank then other.state else r.state := by
  have above : r.rank < other.rank ↔ other.timestamp > r.timestamp ∨
      other.timestamp = r.timestamp ∧ other.writerID > r.writerID := by
    unfold rank
    rw [Prod.Lex.toLex_lt_toLex, gt_iff_lt, Int64.lt_iff_toInt_lt, Int64.toInt_inj,
      eq_comm]
  unfold merge
  by_cases later : other.timestamp > r.timestamp
  · rw [if_pos later, if_pos (above.mpr (.inl later))]
    rfl
  · rw [if_neg later]
    by_cases tie : other.timestamp = r.timestamp ∧ other.writerID > r.writerID
    · rw [if_pos tie, if_pos (above.mpr (.inr tie))]
      simp only [state, tie.1]
    · rw [if_neg tie, if_neg fun higher => (above.mp higher).elim later tie]

theorem rank_eq_of_state_eq (same : a.state = b.state) : a.rank = b.rank := by
  simp only [state, Prod.mk.injEq] at same
  exact rank_eq_iff.mpr same.2

theorem rank_merge (a b : LWWRegister V) : (a.merge b).rank = a.rank ⊔ b.rank := by
  have merged := state_merge a b
  by_cases higher : a.rank < b.rank
  · rw [if_pos higher] at merged
    rw [rank_eq_of_state_eq merged, sup_eq_right.mpr higher.le]
  · rw [if_neg higher] at merged
    rw [rank_eq_of_state_eq merged, sup_eq_left.mpr (not_lt.mp higher)]

variable {registers : Set (LWWRegister V)}

theorem exists_state_eq {r : LWWRegister V}
    (merged : Merged merge registers r) : ∃ one ∈ registers, one.state = r.state := by
  induction merged with
  | own r => exact ⟨r, rfl, rfl⟩
  | @merge A B a b _ _ left right =>
    rw [state_merge]
    split
    · obtain ⟨one, mem, same⟩ := right
      exact ⟨one, .inr mem, same⟩
    · obtain ⟨one, mem, same⟩ := left
      exact ⟨one, .inl mem, same⟩

theorem state_eq_of_rank_eq (consistent : Consistent registers)
    (inA : a ∈ registers) (inB : b ∈ registers) (same : a.rank = b.rank) : a.state = b.state := by
  obtain ⟨timestamp, writerID⟩ := rank_eq_iff.mp same
  simp only [state, consistent a inA b inB timestamp writerID, timestamp, writerID]

theorem isJoin (consistent : Consistent registers) : IsJoin merge state registers := by
  apply IsJoin.of_rank rank_merge fun _ _ => rank_eq_of_state_eq
  intro A B a b left right inA inB same
  obtain ⟨one, memA, one_eq⟩ := exists_state_eq left
  obtain ⟨other, memB, other_eq⟩ := exists_state_eq right
  rw [← one_eq, ← other_eq]
  apply state_eq_of_rank_eq consistent (inA memA) (inB memB)
  rw [rank_eq_of_state_eq one_eq, rank_eq_of_state_eq other_eq, same]

end LWWRegister

/-! ## Sets -/

namespace ORSet

/-- The tags of all elements, where a removed tag is above one that is not. -/
abbrev rank (s : ORSet) : String → WithBot (UInt64 → WithBot Bool) :=
  shown (shown id) s.elements

theorem shown_mergeTag (tags : Tags) (entry : (_ : UInt64) × Bool) :
    shown id (mergeTag tags entry) =
      update (shown id tags) entry.1 (shown id tags entry.1 ⊔ (entry.2 : Bool)) := by
  unfold mergeTag
  split
  · rename_i existing present
    rw [shown_insert, shown.eq_def id tags, present]
    rfl
  · rename_i absent
    have nothing : shown id tags entry.1 = ⊥ := by
      rw [shown, absent]
      rfl
    rw [shown_insert, nothing]
    rfl

theorem shown_mergeElement (elements : AList fun _ : String => Tags)
    (entry : (_ : String) × Tags) :
    shown (shown id) (mergeElement elements entry) = update (shown (shown id) elements) entry.1
      (shown (shown id) elements entry.1 ⊔ (shown id entry.2 : UInt64 → WithBot Bool)) := by
  unfold mergeElement
  rw [shown_insert, shown_foldl shown_mergeTag, shown.eq_def (shown id) elements]
  cases present : elements.lookup entry.1 with
  | none =>
    have empty : shown id (∅ : Tags) = ⊥ := rfl
    rw [getD_none, empty, bot_sup_eq]
    exact congrArg _ (bot_sup_eq _).symm
  | some tags => rfl

theorem rank_merge (a b : ORSet) : (a.merge b).rank = a.rank ⊔ b.rank :=
  shown_foldl shown_mergeElement a.elements b.elements

theorem state_eq_iff {a b : ORSet} : a.state = b.state ↔ a.rank = b.rank := by
  have tags : ∀ s t : Tags,
      (fun tag => s.lookup tag) = (fun tag => t.lookup tag) ↔ shown id s = shown id t := by
    intro s t
    simp only [shown_eq_shown_iff, map_id_fun, id_eq]
  rw [shown_eq_shown_iff]
  simp only [funext_iff (f := a.state), funext_iff (f := fun k => (a.elements.lookup k).map _),
    state]
  apply forall_congr'
  intro element
  cases a.elements.lookup element <;> cases b.elements.lookup element <;> simp [tags]

end ORSet

/-! ## Joins -/

/-- `Merge` is a join: of all states of the counters and of the set, and of registers where
a writer has not written two values at one time. -/
theorem isJoin_merge {V : Type*} {registers : Set (LWWRegister V)}
    (consistent : LWWRegister.Consistent registers) :
    IsJoin GCounter.merge GCounter.state Set.univ ∧
      IsJoin PNCounter.merge PNCounter.state Set.univ ∧
      IsJoin ORSet.merge ORSet.state Set.univ ∧
      IsJoin LWWRegister.merge LWWRegister.state registers := by
  refine ⟨?_, ?_, ?_, LWWRegister.isJoin consistent⟩
  · apply IsJoin.of_rank GCounter.rank_merge fun _ _ => GCounter.state_eq_iff.mp
    exact fun _ _ _ _ => GCounter.state_eq_iff.mpr
  · apply IsJoin.of_rank PNCounter.rank_merge fun _ _ => PNCounter.state_eq_iff.mp
    exact fun _ _ _ _ => PNCounter.state_eq_iff.mpr
  · apply IsJoin.of_rank ORSet.rank_merge fun _ _ => ORSet.state_eq_iff.mp
    exact fun _ _ _ _ => ORSet.state_eq_iff.mpr

/-- Two replicas write a register at the same time: in whichever order they merge, both
hold the value of the greater writer. -/
theorem isJoin_merge_tie :
    let a : LWWRegister ℕ := (LWWRegister.new "a").set (some 1) 5
    let b : LWWRegister ℕ := (LWWRegister.new "b").set (some 2) 5
    LWWRegister.Consistent {a, b} ∧ (a.merge b).state = (b.merge a).state ∧
      (a.merge b).state = (some 2, 5, "b") := by
  intro a b
  have consistent : LWWRegister.Consistent {a, b} := by
    rintro _ (rfl | rfl) _ (rfl | rfl) _ writer
    · rfl
    · exact absurd writer (by decide)
    · exact absurd writer (by decide)
    · rfl
  refine ⟨consistent, ?_, by decide⟩
  exact (isJoin_merge consistent).2.2.2.comm a (.inl rfl) b (.inr rfl)

end Hermes.Consistency
