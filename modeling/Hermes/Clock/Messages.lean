import Hermes.Clock.Monotonicity

/-!
# The clock and the messages it sees

A message brings the clock of its sender.  The clock that takes it in should be later
than the message afterwards; the sixteen bits of the counter and the forty-eight bits
that are left for the milliseconds decide whether it is.  How far messages can drive a
clock is bounded by the physical clock: a message that is too far ahead is refused.
-/

namespace Hermes.Clock

open List

/-! ## Timestamps as numbers -/

/-- A packed timestamp as a number.  The milliseconds are cut to forty-eight bits. -/
theorem toInt_pack_bmod (l : Int64) (c : UInt16) :
    (pack l c).toInt = l.toInt.bmod (2 ^ 48) * 2 ^ 16 + c.toNat := by
  have counter := c.toNat_lt
  have bits : (pack l c).toBitVec.toNat = l.toBitVec.toNat % 2 ^ 48 * 2 ^ 16 + c.toNat := by
    have shift : (16 : Int64).toBitVec.smod 64 = 16#64 := by decide
    have cut : l.toBitVec.toNat <<< 16 % 2 ^ 64 = (l.toBitVec.toNat % 2 ^ 48) <<< 16 := by
      omega
    unfold pack
    show (l.toBitVec.toNat <<< 16 % 2 ^ 64 ||| c.toUInt64.toNat) = _
    rw [cut, UInt16.toNat_toUInt64, ← Nat.shiftLeft_add_eq_or_of_lt counter, Nat.shiftLeft_eq]
  rw [← Int64.toInt_toBitVec, ← Int64.toInt_toBitVec, BitVec.toInt_eq_toNat_bmod,
    BitVec.toInt_eq_toNat_bmod]
  simp only [Int.bmod_def]
  omega

/-- A timestamp as a number, from its two parts. -/
theorem toInt_unpack (ts : HLCTimestamp) :
    ts.toInt = (unpack ts).1.toInt * 2 ^ 16 + (unpack ts).2.toNat := by
  have physical := toInt_unpack_fst ts
  have logical : ((unpack ts).2.toNat : ℤ) = ts.toInt % 65536 := by
    have low : (unpack ts).2.toNat = ts.toBitVec.toNat % 65536 := by
      show (ts.toBitVec.toNat &&& 65535) % 2 ^ 16 = _
      rw [show 65535 = 2 ^ 16 - 1 from rfl, Nat.and_two_pow_sub_one_eq_mod]
      omega
    rw [← Int64.toInt_toBitVec, BitVec.toInt_eq_toNat_cond]
    split <;> omega
  omega

/-- The milliseconds of a timestamp survive being cut. -/
theorem bmod_unpack (ts : HLCTimestamp) :
    (unpack ts).1.toInt.bmod (2 ^ 48) = (unpack ts).1.toInt := by
  have value := toInt_unpack ts
  have := (unpack ts).2.toNat_lt
  have := ts.le_toInt
  have := ts.toInt_lt
  rw [Int.bmod_def]
  omega

/-- A packed timestamp is later if its milliseconds are, once they are cut, or if its
counter is. -/
theorem lt_pack_iff (ts : HLCTimestamp) (l : Int64) (c : UInt16) :
    ts < pack l c ↔ (unpack ts).1.toInt < l.toInt.bmod (2 ^ 48) ∨
      (unpack ts).1.toInt = l.toInt.bmod (2 ^ 48) ∧ (unpack ts).2.toNat < c.toNat := by
  rw [Int64.lt_iff_toInt_lt, toInt_pack_bmod, toInt_unpack]
  have := (unpack ts).2.toNat_lt
  have := c.toNat_lt
  omega

/-! ## Causality -/

/-- What has to hold for the clock to be later than a message that it takes in.  If
neither clock is ahead of the message, the counter that is incremented has room.
Otherwise the clock that is ahead still is when its milliseconds are cut to forty-eight
bits, or it has the higher counter then. -/
def CountsOn (h : HLC) (ptMs : Int64) (msgTS : HLCTimestamp) : Prop :=
  let (msgL, msgC) := unpack msgTS
  let ahead := max h.l.toInt ptMs.toInt
  if ahead ≤ msgL.toInt then
    msgC.toNat < logicalMax ∧ (h.l = msgL → h.c.toNat < logicalMax)
  else
    msgL.toInt < ahead.bmod (2 ^ 48) ∨
      msgL.toInt = ahead.bmod (2 ^ 48) ∧ ptMs ≤ h.l ∧ msgC ≤ h.c ∧ h.c.toNat < logicalMax

namespace HLC

variable {msgTS ts : HLCTimestamp} {ptMs : Int64}

section

variable {h h' : HLC} (updated : h.update ptMs msgTS = .ok (h', ts))

include updated

/-- The counter that a successful `Update` leaves. -/
theorem update_counter :
    h'.maxSkewAllowed = h.maxSkewAllowed ∧
      h'.c = if h'.l = h.l ∧ h'.l = (unpack msgTS).1 then
          (if (unpack msgTS).2 > h.c then (unpack msgTS).2 else h.c) + 1
        else if h'.l = h.l then h.c + 1 else if h'.l = (unpack msgTS).1 then (unpack msgTS).2 + 1
        else 0 := by
  unfold update at updated
  dsimp only at updated
  split at updated
  · nomatch updated
  · cases updated
    exact ⟨rfl, rfl⟩

/-- A successful `Update` returns a later timestamp than that of the message exactly if
the counter and the milliseconds have room. -/
theorem lt_update_iff : msgTS < ts ↔ CountsOn h ptMs msgTS := by
  obtain ⟨-, rfl, latest, -⟩ := update_eq_ok updated
  have counter := (update_counter updated).2
  have cut := bmod_unpack msgTS
  rw [lt_pack_iff]
  unfold CountsOn
  dsimp only
  generalize (unpack msgTS).1 = msgL at *
  generalize (unpack msgTS).2 = msgC at *
  split
  · -- the clock moves to the millisecond of the message and counts from there
    have moved : h'.l = msgL := by
      rw [← Int64.toInt_inj]
      omega
    rw [moved] at counter ⊢
    rw [cut]
    have room : msgC.toNat < h'.c.toNat ↔
        msgC.toNat < logicalMax ∧ (h.l = msgL → h.c.toNat < logicalMax) := by
      rw [counter]
      by_cases same : h.l = msgL
      · rw [if_pos ⟨same.symm, rfl⟩, toNat_succ]
        simp only [UInt16.lt_iff_toNat_lt, same, forall_const]
        split <;> split <;> omega
      · rw [if_neg fun both => same both.1.symm, if_neg fun back => same back.symm, if_pos rfl,
          toNat_succ]
        simp only [same, false_imp_iff, and_true]
        split <;> omega
    rw [room]
    simp only [Int.lt_irrefl, false_or, true_and]
  · have moved : h'.l.toInt = max h.l.toInt ptMs.toInt := by omega
    have other : h'.l ≠ msgL := by
      rintro rfl
      omega
    have stays : h'.l = h.l ↔ ptMs ≤ h.l := by
      rw [← Int64.toInt_inj, Int64.le_iff_toInt_le]
      omega
    rw [moved]
    apply or_congr_right
    apply and_congr_right
    intro _
    rw [counter, if_neg fun both => other both.2, ← stays]
    split
    · rename_i behind
      rw [toNat_succ, UInt16.le_iff_toNat_le]
      simp only [behind, true_and]
      split <;> omega
    · rename_i physical
      simp only [physical, false_and, iff_false]
      exact Nat.not_lt_zero _

end

end HLC

/-- `Update` returns a later timestamp than that of the message exactly if it refuses the
message or the counter and the milliseconds have room. -/
theorem update_later_iff (h : HLC) (ptMs : Int64) (msgTS : HLCTimestamp) :
    (∀ h' ts, h.update ptMs msgTS = .ok (h', ts) → msgTS < ts) ↔
      ptMs + h.maxSkewAllowed < (unpack msgTS).1 ∨ CountsOn h ptMs msgTS := by
  cases result : h.update ptMs msgTS with
  | error cause =>
    refine iff_of_true ?_ (.inl (HLC.update_eq_error result))
    intro _ _ impossible
    nomatch impossible
  | ok pair =>
    obtain ⟨h', ts⟩ := pair
    have accepted := (HLC.update_eq_ok result).1
    rw [or_iff_right accepted, ← HLC.lt_update_iff result]
    constructor
    · intro later
      exact later h' ts rfl
    · intro later _ _ same
      cases same
      exact later

/-- A new clock takes in the message of a clock that has reached the end of its counter:
the timestamp it returns has the millisecond of the message and the counter zero. -/
theorem update_not_later :
    ({} : HLC).update 1000 (pack 1000 65535) = .ok ({ l := 1000, c := 0 }, pack 1000 0) ∧
      pack 1000 0 < pack 1000 65535 := by
  decide

/-! ## Drift -/

/-- The largest reading of the physical clock, of those that are not negative. -/
def largestReading (calls : List Call) : ℤ :=
  calls.foldl (fun largest call => max largest call.ptMs.toInt) 0

theorem largestReading_concat (calls : List Call) (call : Call) :
    largestReading (calls ++ [call]) = max (largestReading calls) call.ptMs.toInt := by
  unfold largestReading
  rw [foldl_append]
  rfl

namespace History

/-- A message that is not refused is at most the skew ahead of the physical clock. -/
theorem unpack_le {ptMs msgL : Int64} (physical : 0 ≤ ptMs)
    (accepted : ¬ ptMs + maxClockSkew < msgL) : msgL.toInt ≤ ptMs.toInt + 500 := by
  have skew : maxClockSkew.toInt = 500 := by decide
  rw [Int64.lt_iff_toInt_lt, Int64.toInt_add, Int.bmod_def] at accepted
  rw [Int64.le_iff_toInt_le] at physical
  have zero : (0 : Int64).toInt = 0 := by decide
  omega

/-- What a call does to the milliseconds: it may move them forward, to the physical
clock or at most the skew ahead of it. -/
theorem drift_step {s : History} (skew : s.hlc.maxSkewAllowed = maxClockSkew) {call : Call}
    (physical : 0 ≤ call.ptMs) :
    (s.step call).hlc.maxSkewAllowed = maxClockSkew ∧ s.hlc.l ≤ (s.step call).hlc.l ∧
      (s.step call).hlc.l.toInt ≤ max s.hlc.l.toInt (call.ptMs.toInt + 500) := by
  rw [Int64.le_iff_toInt_le]
  cases call with
  | now ptMs =>
    unfold step
    dsimp only [Call.ptMs]
    rw [HLC.now_eq]
    split
    · rename_i ahead
      rw [Int64.lt_iff_toInt_lt] at ahead
      exact ⟨skew, by dsimp only; omega, by dsimp only; omega⟩
    · exact ⟨skew, Int.le_refl _, by dsimp only; omega⟩
  | update ptMs msgTS =>
    unfold step
    dsimp only [Call.ptMs]
    cases result : s.hlc.update ptMs msgTS with
    | error cause => exact ⟨skew, Int.le_refl _, by dsimp only; omega⟩
    | ok pair =>
      obtain ⟨accepted, -, latest, -⟩ := HLC.update_eq_ok result
      rw [skew] at accepted
      have near : (unpack msgTS).1.toInt ≤ ptMs.toInt + 500 := unpack_le physical accepted
      refine ⟨(HLC.update_counter result).1.trans skew, ?_, ?_⟩
      · dsimp only
        omega
      · dsimp only
        omega

variable {calls : List Call}

theorem skew_run (readings : ∀ call ∈ calls, 0 ≤ call.ptMs) :
    (run calls).hlc.maxSkewAllowed = maxClockSkew := by
  induction calls using reverseRecOn with
  | nil => rfl
  | append_singleton calls call ih =>
    rw [run_concat]
    apply And.left
    apply drift_step
    · exact ih fun call mem => readings call (mem_append_left _ mem)
    · exact readings call mem_concat_self

/-- A clock is at most the skew ahead of the largest reading of the physical clock. -/
theorem drift_run (readings : ∀ call ∈ calls, 0 ≤ call.ptMs) :
    (run calls).hlc.l.toInt ≤ largestReading calls + 500 := by
  induction calls using reverseRecOn with
  | nil => decide
  | append_singleton calls call ih =>
    have earlier : ∀ call ∈ calls, 0 ≤ call.ptMs :=
      fun call mem => readings call (mem_append_left _ mem)
    have now := readings call mem_concat_self
    obtain ⟨-, -, bound⟩ := drift_step (skew_run earlier) now
    have before := ih earlier
    rw [run_concat, largestReading_concat]
    omega

end History

open History in
/-- Whatever the messages are and however the physical clock jumps: the milliseconds of a
clock never decrease, they are at most the skew ahead of the largest reading so far, and a
message that is refused changes nothing. -/
theorem drift_bounded (calls : List Call) (call : Call)
    (readings : ∀ called ∈ calls ++ [call], 0 ≤ called.ptMs) :
    (run calls).hlc.l ≤ (run (calls ++ [call])).hlc.l ∧
      (run (calls ++ [call])).hlc.l.toInt ≤ largestReading (calls ++ [call]) + 500 ∧
      ∀ ptMs msgTS cause, call = .update ptMs msgTS →
        (run calls).hlc.update ptMs msgTS = .error cause →
          (run (calls ++ [call])).hlc = (run calls).hlc := by
  refine ⟨?_, drift_run readings, ?_⟩
  · rw [run_concat]
    apply And.left
    apply And.right
    apply drift_step
    · exact skew_run fun called mem => readings called (mem_append_left _ mem)
    · exact readings call mem_concat_self
  · rintro ptMs msgTS cause rfl refused
    rw [run_concat, step, refused]

/-- A message that is exactly as far ahead as allowed, and one that is refused. -/
theorem drift_bounded_refused :
    (∀ called ∈ [.now 1000, .update 900 (pack 1400 7)] ++ [.update 800 (pack 1301 0)],
        0 ≤ Call.ptMs called) ∧
      (History.run ([.now 1000, .update 900 (pack 1400 7)] ++
        [.update 800 (pack 1301 0)])).hlc.l.toInt ≤ 1500 :=
  ⟨by decide, (drift_bounded [.now 1000, .update 900 (pack 1400 7)] (.update 800 (pack 1301 0))
    (by decide)).2.1⟩

end Hermes.Clock
