import Hermes.Data.ByteOrder

/-!
# Prefix scans

A scan for a prefix is a scan of the range from the prefix to the least string above all that
begin with it.  There is none if all bytes of the prefix are the greatest one.
-/

namespace Hermes.Server

open List
open scoped ByteOrder

/-- The loop of `prefixEnd`, over the bytes from the last one on. -/
def incremented : Bytes → Option Bytes
  | [] => none
  | b :: before => if b < 0xff then some (before.reverse ++ [b + 1]) else incremented before

def prefixEnd (p : Bytes) : Bytes :=
  if p = [] then []
  else
    match incremented p.reverse with
    | some bytes => bytes
    | none => p ++ [0]

/-- The range that `handleScan` passes on for the parameters of a request. -/
def scanRange (p start stop : Bytes) : Bytes × Bytes :=
  if p ≠ [] then (p, prefixEnd p) else (start, stop)

/-- Whether a key is in a range, which an empty end leaves open. -/
def Scanned (range : Bytes × Bytes) (k : Bytes) : Prop :=
  range.1 ≤ k ∧ (range.2 = [] ∨ k < range.2)

variable {p k stop : Bytes}

theorem incremented_append (l : Bytes) (a : UInt8) :
    incremented (l ++ [a]) =
      match incremented l with
      | some bytes => some (a :: bytes)
      | none => if a < 0xff then some [a + 1] else none := by
  induction l with
  | nil => rfl
  | cons b before ih =>
    rw [cons_append, incremented, incremented, ih]
    split
    · simp
    · rfl

/-- Only the greatest byte is not incremented, and nothing is above it. -/
theorem incremented_eq_none (none_less : incremented p.reverse = none) :
    (∀ b ∈ p, b = 0xff) ∧ ∀ k, p <+: k ↔ p ≤ k := by
  induction p with
  | nil => simp
  | cons a rest ih =>
    rw [reverse_cons, incremented_append] at none_less
    split at none_less
    · nomatch none_less
    · rename_i none_less'
      obtain ⟨all, isPrefix⟩ := ih none_less'
      have greatest : a = 0xff := by grind
      refine ⟨forall_mem_cons.mpr ⟨greatest, all⟩, fun k => ?_⟩
      cases k with
      | nil => simp
      | cons c k =>
        have above : ¬ a < c := by grind
        rw [cons_prefix_cons, cons_le_cons_iff, isPrefix, or_iff_right above]

/-- The range ends right above the strings with the prefix. -/
theorem incremented_eq_some (found : incremented p.reverse = some stop) :
    (∃ b ∈ p, b ≠ 0xff) ∧ stop ≠ [] ∧ ∀ k, p <+: k ↔ p ≤ k ∧ k < stop := by
  induction p generalizing stop with
  | nil => nomatch found
  | cons a rest ih =>
    rw [reverse_cons, incremented_append] at found
    split at found
    · rename_i stop' found'
      obtain ⟨⟨b, mem, other⟩, -, within⟩ := ih found'
      cases found
      refine ⟨⟨b, mem_cons_of_mem a mem, other⟩, cons_ne_nil _ _, fun k => ?_⟩
      cases k with
      | nil => simp
      | cons c k =>
        rw [cons_prefix_cons, cons_le_cons_iff, cons_lt_cons_iff, within]
        grind
    · rename_i none_less
      split at found
      · rename_i less
        cases found
        refine ⟨⟨a, mem_cons_self, by grind⟩, cons_ne_nil _ _, fun k => ?_⟩
        cases k with
        | nil => simp
        | cons c k =>
          have least : c < a + 1 ↔ c ≤ a := by grind
          rw [cons_prefix_cons, cons_le_cons_iff, cons_lt_cons_iff,
            (incremented_eq_none none_less).2, least]
          grind [not_lt_nil]
      · nomatch found

/-- The range of a prefix scan is that of the keys with the prefix exactly if some byte of the
prefix can be incremented. -/
theorem scanRange_exact_iff (nonempty : p ≠ []) (start stop : Bytes) :
    (∀ k, p <+: k ↔ Scanned (scanRange p start stop) k) ↔ ∃ b ∈ p, b ≠ 0xff := by
  simp only [Scanned, scanRange, if_pos nonempty, prefixEnd, if_neg nonempty]
  split
  · rename_i bytes found
    obtain ⟨less, bounded, within⟩ := incremented_eq_some found
    simp only [bounded, false_or, within, less]
    tauto
  · rename_i none_less
    obtain ⟨all, -⟩ := incremented_eq_none none_less
    refine iff_of_false (fun exact_range => ?_) (by simpa using all)
    -- the prefix with a further byte comes after the end of the range
    have scanned := ((exact_range (p ++ [1])).mp (prefix_append p [1])).2
    simp only [append_ne_nil_of_right_ne_nil p (cons_ne_nil 0 []), false_or] at scanned
    exact absurd scanned (lt_asymm (append_left_lt (by decide)))

/-- The keys with a prefix that ends in the greatest byte. -/
theorem scanRange_exact_carry :
    scanRange [97, 0xff] [] [] = ([97, 0xff], [98]) ∧
      ∀ k, [97, 0xff] <+: k ↔ Scanned (scanRange [97, 0xff] [] []) k :=
  ⟨by decide, (scanRange_exact_iff (by decide) [] []).mpr ⟨97, by decide, by decide⟩⟩

/-- A key with the prefix that the scan leaves out. -/
theorem scanRange_inexact :
    [0xff] <+: ([0xff, 1] : Bytes) ∧ ¬ Scanned (scanRange [0xff] [] []) [0xff, 1] := by
  refine ⟨by decide, ?_⟩
  rintro ⟨-, scanned⟩
  exact absurd scanned (by decide)

end Hermes.Server
