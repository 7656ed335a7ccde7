import Hermes.Clock.Messages

/-!
# The safe point of the garbage collector

Versions below the safe point may be removed.  The safe point should stay below what
active transactions read and below what the retention period protects.  It is the
minimum of the read timestamps, which are timestamps of the hybrid clock, and of a
time in nanoseconds.
-/

namespace Hermes.Storage

open Clock (HLCTimestamp pack)

/-! ## Times -/

/-- A point of time, in nanoseconds since the epoch. -/
abbrev Time := ℤ

/-- `UnixNano`, which is cut to 64 bits. -/
def Time.unixNano (t : Time) : Int64 :=
  .ofInt t

def Time.unixMilli (t : Time) : Int64 :=
  .ofInt (t / 1000000)

/-- `Add` of a duration. -/
def Time.add (t : Time) (duration : Int64) : Time :=
  t + duration.toInt

/-- The first timestamp that the hybrid clock has for a time. -/
def Time.hlc (t : Time) : HLCTimestamp :=
  pack t.unixMilli 0

/-! ## Active transactions -/

structure ActiveTransactionTracker where
  readTimestamps : AList fun _ : UInt64 => Int64 := ∅

namespace ActiveTransactionTracker

variable (t : ActiveTransactionTracker)

def register (txnID : UInt64) (readTS : Int64) : ActiveTransactionTracker :=
  { readTimestamps := t.readTimestamps.insert txnID readTS }

def unregister (txnID : UInt64) : ActiveTransactionTracker :=
  { readTimestamps := t.readTimestamps.erase txnID }

/-- The read timestamps of the active transactions. -/
def active : List Int64 :=
  t.readTimestamps.entries.map Sigma.snd

/-- `SafePoint` at a time. -/
def safePoint (now : Time) (retention : Int64) : Int64 :=
  t.active.foldl (fun safePoint readTS => if readTS - 1 < safePoint then readTS - 1 else safePoint)
    (now.add (-retention)).unixNano

/-- The loop keeps the least of what it starts with and what it meets. -/
theorem foldl_le_iff {readTimestamps : List Int64} {first bound : Int64} :
    readTimestamps.foldl
        (fun safePoint readTS => if readTS - 1 < safePoint then readTS - 1 else safePoint) first
        ≤ bound ↔
      first ≤ bound ∨ ∃ readTS ∈ readTimestamps, readTS - 1 ≤ bound := by
  induction readTimestamps generalizing first with
  | nil => simp
  | cons readTS rest ih =>
    have least : (if readTS - 1 < first then readTS - 1 else first) ≤ bound ↔
        first ≤ bound ∨ readTS - 1 ≤ bound := by
      simp only [Int64.lt_iff_toInt_lt, Int64.le_iff_toInt_le]
      split <;> omega
    rw [List.foldl_cons, ih, least, List.exists_mem_cons_iff, or_assoc]

variable {now : Time} {retention : Int64}

theorem safePoint_le_iff {bound : Int64} :
    t.safePoint now retention ≤ bound ↔
      (now.add (-retention)).unixNano ≤ bound ∨ ∃ readTS ∈ t.active, readTS - 1 ≤ bound :=
  foldl_le_iff

/-- The safe point protects the active transactions unless one reads at the least number
of all, which has no number before it. -/
theorem safePoint_le_active_iff :
    (∀ readTS ∈ t.active, t.safePoint now retention ≤ readTS) ↔
      (Int64.minValue ∈ t.active → (now.add (-retention)).unixNano = Int64.minValue ∨
        Int64.minValue + 1 ∈ t.active) := by
  have least : ∀ x : Int64, x ≤ Int64.minValue ↔ x = Int64.minValue := by
    intro x
    rw [Int64.le_iff_toInt_le, ← Int64.toInt_inj]
    have := x.le_toInt
    have value : Int64.minValue.toInt = -2 ^ 63 := by decide
    omega
  have before : ∀ x : Int64, x - 1 = Int64.minValue ↔ x = Int64.minValue + 1 := by
    intro x
    constructor
    · intro same
      rw [← same, Int64.sub_add_cancel]
    · intro same
      rw [same, Int64.add_sub_cancel]
  constructor
  · intro protects lowest
    have reached := (t.safePoint_le_iff).mp (protects _ lowest)
    simp only [least, before] at reached
    rcases reached with base | ⟨readTS, mem, rfl⟩
    · exact .inl base
    · exact .inr mem
  · intro exception readTS mem
    rw [safePoint_le_iff]
    by_cases lowest : readTS = Int64.minValue
    · subst lowest
      rcases exception mem with base | other
      · exact .inl ((least _).mpr base)
      · exact .inr ⟨_, other, by decide⟩
    · right
      refine ⟨readTS, mem, ?_⟩
      rw [Int64.le_iff_toInt_le, Int64.toInt_sub, Int.bmod_def]
      rw [← Int64.toInt_inj] at lowest
      have := readTS.le_toInt
      have value : Int64.minValue.toInt = -2 ^ 63 := by decide
      have one : (1 : Int64).toInt = 1 := by decide
      omega

/-- The safe point protects the active transactions and what the retention period covers
exactly if it does not come from the nanoseconds, or these happen not to exceed the
timestamp of the hybrid clock, and no transaction reads at the least number of all. -/
theorem safePoint_protects_iff (now : Time) (retention : Int64) :
    ((∀ readTS ∈ t.active, t.safePoint now retention ≤ readTS) ∧
        t.safePoint now retention ≤ (now.add (-retention)).hlc) ↔
      ((now.add (-retention)).unixNano ≤ (now.add (-retention)).hlc ∨
          ∃ readTS ∈ t.active, readTS - 1 ≤ (now.add (-retention)).hlc) ∧
        (Int64.minValue ∈ t.active → (now.add (-retention)).unixNano = Int64.minValue ∨
          Int64.minValue + 1 ∈ t.active) := by
  rw [safePoint_le_active_iff, safePoint_le_iff, and_comm]

/-- In November 2023, with a retention period of an hour and no transaction that is still
active: what the last hour has written is below the safe point. -/
theorem safePoint_not_protects :
    let now : Time := 1700000000 * 10 ^ 9
    let retention : Int64 := 3600 * 10 ^ 9
    let t := (({} : ActiveTransactionTracker).register 7 (now.hlc)).unregister 7
    t.active = [] ∧ (now.add (-retention)).hlc < t.safePoint now retention ∧
      now.hlc < t.safePoint now retention := by
  decide +kernel

end ActiveTransactionTracker

end Hermes.Storage
