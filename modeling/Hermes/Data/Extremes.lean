import Mathlib

/-!
# Extremes of lists in parts

The least of the minima of some lists is the minimum of all, unless an empty list brings in a
default of its own; the same goes for the greatest of the maxima if it begins with the default.
-/

namespace Hermes.Extremes

open List

variable {K : Type*} [LinearOrder K] {d a v : K} {l : List K} {parts : List (List K)}

theorem min?_getD_of_mem {x : K} (mem : x ∈ l) : l.min?.getD d ∈ l ∧ l.min?.getD d ≤ x := by
  obtain ⟨m, least⟩ := Option.isSome_iff_exists.mp (isSome_min?_of_mem mem)
  rw [least]
  rw [min?_eq_some_iff] at least
  exact ⟨least.1, least.2 x mem⟩

theorem max?_getD_of_mem {x : K} (mem : x ∈ l) : l.max?.getD d ∈ l ∧ x ≤ l.max?.getD d :=
  min?_getD_of_mem (K := Kᵒᵈ) mem

theorem min?_congr {l' : List K} (perm : l.Perm l') : l.min? = l'.min? := by
  cases least : l'.min? with
  | none =>
    rw [min?_eq_none_iff] at least ⊢
    exact (least ▸ perm).eq_nil
  | some m =>
    rw [min?_eq_some_iff] at least ⊢
    simpa only [perm.mem_iff] using least

theorem max?_congr {l' : List K} (perm : l.Perm l') : l.max? = l'.max? :=
  min?_congr (K := Kᵒᵈ) perm

/-- The least of the minima is right if the minimum is at most the default or every part has
an element. -/
theorem min?_parts_eq_iff (least : (parts.map fun part => part.min?.getD d).min? = some a)
    (whole : parts.flatten.min? = some v) :
    a = v ↔ (∃ x ∈ parts.flatten, x ≤ d) ∨ ∀ part ∈ parts, part ≠ [] := by
  rw [min?_eq_some_iff, mem_map, forall_mem_map] at least
  rw [min?_eq_some_iff] at whole
  obtain ⟨⟨part, mem, rfl⟩, below⟩ := least
  obtain ⟨inWhole, lower⟩ := whole
  constructor
  · intro same
    by_cases full : ∀ part ∈ parts, part ≠ []
    · exact .inr full
    · push Not at full
      obtain ⟨_, inParts, rfl⟩ := full
      exact .inl ⟨v, inWhole, same ▸ below [] inParts⟩
  · intro condition
    apply le_antisymm
    · obtain ⟨part', inParts, inPart⟩ := mem_flatten.mp inWhole
      exact (below part' inParts).trans (min?_getD_of_mem inPart).2
    · cases part with
      | nil =>
        rcases condition with ⟨x, inWhole', le⟩ | full
        · exact (lower x inWhole').trans le
        · exact absurd rfl (full [] mem)
      | cons x rest =>
        exact lower _ (mem_flatten_of_mem mem (min?_getD_of_mem mem_cons_self).1)

theorem max?_parts_eq_iff (greatest : (d :: parts.map fun part => part.max?.getD d).max? = some a)
    (whole : parts.flatten.max? = some v) : a = v ↔ ∃ x ∈ parts.flatten, d ≤ x := by
  rw [max?_eq_some_iff, mem_cons, mem_map, forall_mem_cons,
    forall_mem_map] at greatest
  rw [max?_eq_some_iff] at whole
  obtain ⟨inMaxima, fromDefault, above⟩ := greatest
  obtain ⟨inWhole, upper⟩ := whole
  constructor
  · intro same
    exact ⟨v, inWhole, same ▸ fromDefault⟩
  · rintro ⟨x, inWhole', le⟩
    have default_le := le.trans (upper x inWhole')
    apply le_antisymm
    · rcases inMaxima with rfl | ⟨part, mem, rfl⟩
      · exact default_le
      · cases part with
        | nil => exact default_le
        | cons y rest =>
          exact upper _ (mem_flatten_of_mem mem (max?_getD_of_mem mem_cons_self).1)
    · obtain ⟨part, inParts, inPart⟩ := mem_flatten.mp inWhole
      exact (max?_getD_of_mem inPart).2.trans (above part inParts)

theorem min?_parts_iff {minima : List K}
    (perm : minima.Perm (parts.map fun part => part.min?.getD d))
    (least : minima ≠ [] → minima.min? = some a) :
    (∀ v, parts.flatten.min? = some v → a = v) ↔ parts.flatten = [] ∨
      (∃ x ∈ parts.flatten, x ≤ d) ∨ ∀ part ∈ parts, part ≠ [] := by
  cases whole : parts.flatten.min? with
  | none =>
    rw [min?_eq_none_iff] at whole
    simp [whole]
  | some v =>
    have nonempty : parts.flatten ≠ [] := isSome_min?_iff.mp (by rw [whole]; rfl)
    have some_part : minima ≠ [] := by
      rintro rfl
      rw [map_eq_nil_iff.mp perm.nil_eq.symm] at nonempty
      exact nonempty rfl
    have least := least some_part
    rw [min?_congr perm] at least
    rw [or_iff_right nonempty, ← min?_parts_eq_iff least whole]
    simp

theorem max?_parts_iff {maxima : List K}
    (perm : maxima.Perm (parts.map fun part => part.max?.getD d))
    (greatest : (d :: maxima).max? = some a) :
    (∀ v, parts.flatten.max? = some v → a = v) ↔ parts.flatten = [] ∨
      ∃ x ∈ parts.flatten, d ≤ x := by
  cases whole : parts.flatten.max? with
  | none =>
    rw [max?_eq_none_iff] at whole
    simp [whole]
  | some v =>
    have nonempty : parts.flatten ≠ [] := isSome_max?_iff.mp (by rw [whole]; rfl)
    rw [max?_congr (perm.cons d)] at greatest
    rw [or_iff_right nonempty, ← max?_parts_eq_iff greatest whole]
    simp

end Hermes.Extremes
