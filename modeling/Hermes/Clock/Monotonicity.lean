import Hermes.Clock.Hlc
import Hermes.Data.Runs

/-!
# Timestamps of one clock

The timestamps that a clock hands out increase as long as its counter has room: the
counter has sixteen bits, and the check for its overflow compares it with a number that
it cannot exceed, so that it starts again at zero within the same millisecond.
-/

namespace Hermes.Clock

open List

/-! ## Packing -/

/-- The milliseconds that leave room for the counter. -/
def InRange (physicalMs : Int64) : Prop :=
  0 ≤ physicalMs.toInt ∧ physicalMs.toInt < 2 ^ 47
  deriving Decidable

variable {l : Int64}

theorem InRange.toNat_toBitVec (range : InRange l) : (l.toBitVec.toNat : ℤ) = l.toInt := by
  have nonneg := range.1
  rw [← Int64.toInt_toBitVec, BitVec.toInt_eq_toNat_cond] at nonneg ⊢
  split at nonneg <;> split <;> omega

/-- A packed timestamp as a number. -/
theorem toInt_pack (range : InRange l) (c : UInt16) :
    (pack l c).toInt = l.toInt * 2 ^ 16 + c.toNat := by
  have physical := range.toNat_toBitVec
  have below : l.toBitVec.toNat < 2 ^ 47 := by
    have := range.2
    omega
  have counter := c.toNat_lt
  have bits : (pack l c).toBitVec.toNat = l.toBitVec.toNat * 2 ^ 16 + c.toNat := by
    have fits : l.toBitVec.toNat <<< 16 < 2 ^ 64 := by
      omega
    show (l.toBitVec.toNat <<< 16 % 2 ^ 64 ||| c.toUInt64.toNat) = _
    rw [Nat.mod_eq_of_lt fits, UInt16.toNat_toUInt64, ← Nat.shiftLeft_add_eq_or_of_lt counter,
      Nat.shiftLeft_eq]
  rw [← Int64.toInt_toBitVec, BitVec.toInt_eq_toNat_of_lt (by omega)]
  omega

/-- A later millisecond, or the same one with a higher counter, is a later timestamp. -/
theorem pack_lt_pack {l' : Int64} (range : InRange l) (range' : InRange l') {c c' : UInt16} :
    pack l c < pack l' c' ↔ l.toInt < l'.toInt ∨ l = l' ∧ c.toNat < c'.toNat := by
  rw [Int64.lt_iff_toInt_lt, toInt_pack range, toInt_pack range', ← Int64.toInt_inj]
  have := c.toNat_lt
  have := c'.toNat_lt
  omega

example : pack (2 ^ 47) 0 < pack 1 0 := by decide

theorem toInt_unpack_fst (ts : HLCTimestamp) : (unpack ts).1.toInt = ts.toInt / 65536 := by
  unfold unpack
  rw [← Int64.toInt_toBitVec, Int64.toBitVec_shiftRight, BitVec.toInt_sshiftRight',
    Int.shiftRight_eq_div_pow]
  rfl

/-- The milliseconds of a timestamp leave room for the counter unless they are
negative. -/
theorem unpack_lt (ts : HLCTimestamp) : (unpack ts).1.toInt < 2 ^ 47 := by
  have := ts.toInt_lt
  rw [toInt_unpack_fst]
  omega

theorem toNat_succ (c : UInt16) :
    (c + 1).toNat = if c.toNat < logicalMax then c.toNat + 1 else 0 := by
  have := c.toNat_lt
  show (c.toNat + 1) % 65536 = if c.toNat < 65535 then c.toNat + 1 else 0
  split <;> omega

/-! ## Calls -/

/-- A call of the clock, with the reading of the physical clock that it meets. -/
inductive Call where
  | now (ptMs : Int64)
  | update (ptMs : Int64) (msgTS : HLCTimestamp)
  deriving DecidableEq, Repr

def Call.ptMs : Call → Int64
  | .now ptMs => ptMs
  | .update ptMs _ => ptMs

/-- A clock and the timestamps that it has returned. -/
structure History where
  hlc : HLC := {}
  returned : List HLCTimestamp := []
  deriving DecidableEq, Repr

namespace History

def step (s : History) : Call → History
  | .now ptMs =>
    let (h, ts) := s.hlc.now ptMs
    { hlc := h, returned := s.returned ++ [ts] }
  | .update ptMs msgTS =>
    match s.hlc.update ptMs msgTS with
    | .error _ => s
    | .ok (h, ts) => { hlc := h, returned := s.returned ++ [ts] }

/-- The calls of a new clock. -/
def run (calls : List Call) : History :=
  calls.foldl step {}

/-- The counter can be incremented if it has to be.  It has to be if neither the
physical clock nor the message is ahead of the clock. -/
def Room (s : History) : Call → Prop
  | .now ptMs => s.returned = [] ∨ s.hlc.l < ptMs ∨ s.hlc.c.toNat < logicalMax
  | .update ptMs msgTS =>
    s.returned = [] ∨ ptMs + s.hlc.maxSkewAllowed < (unpack msgTS).1 ∨
      s.hlc.l < ptMs ∨ s.hlc.l < (unpack msgTS).1 ∨
      s.hlc.c.toNat < logicalMax ∧
        ((unpack msgTS).1 = s.hlc.l → (unpack msgTS).2.toNat < logicalMax)

/-- The clock is in range and shows the timestamp that it has returned last. -/
structure OK (s : History) : Prop where
  range : InRange s.hlc.l
  last : ∀ ts ∈ s.returned.getLast?, ts = pack s.hlc.l s.hlc.c

end History

/-! ## What a call does -/

namespace HLC

/-- The later of two readings, as the code computes it. -/
theorem toInt_later (a b : Int64) : (if a > b then a else b).toInt = max a.toInt b.toInt := by
  simp only [Int64.lt_iff_toInt_lt]
  split <;> omega

/-- `Now` moves to the physical clock if that is ahead, and counts otherwise. -/
theorem now_eq (h : HLC) (ptMs : Int64) :
    h.now ptMs = if h.l < ptMs then ({ h with l := ptMs, c := 0 }, pack ptMs 0)
      else ({ h with c := h.c + 1 }, pack h.l (h.c + 1)) := by
  have chosen := toInt_later h.l ptMs
  have bounded : ¬ (h.c + 1).toNat > logicalMax := by
    have := (h.c + 1).toNat_lt
    unfold logicalMax
    omega
  unfold now
  simp only [Int64.lt_iff_toInt_lt (x := h.l)]
  by_cases ahead : h.l.toInt < ptMs.toInt
  · have moved : (if h.l > ptMs then h.l else ptMs) = ptMs := by
      rw [← Int64.toInt_inj]
      omega
    have other : ptMs ≠ h.l := by
      rintro rfl
      omega
    rw [moved, if_neg other, if_pos ahead]
  · have stays : (if h.l > ptMs then h.l else ptMs) = h.l := by
      rw [← Int64.toInt_inj]
      omega
    rw [stays, if_pos rfl, if_neg bounded, if_neg ahead]

/-- A successful `Update` moves to the latest of the clock, the physical clock and the
message.  If that is the clock itself it counts, from the counter of the message if the
message has the same millisecond and a higher counter. -/
theorem update_eq_ok {h h' : HLC} {ptMs : Int64} {msgTS ts : HLCTimestamp}
    (updated : h.update ptMs msgTS = .ok (h', ts)) :
    ¬ ptMs + h.maxSkewAllowed < (unpack msgTS).1 ∧ ts = pack h'.l h'.c ∧
      h'.l.toInt = max (unpack msgTS).1.toInt (max h.l.toInt ptMs.toInt) ∧
      (h'.l = h.l → ∃ counter : UInt16, h'.c = counter + 1 ∧
        counter.toNat = if (unpack msgTS).1 = h.l then max (unpack msgTS).2.toNat h.c.toNat
          else h.c.toNat) := by
  unfold update at updated
  dsimp only at updated
  split at updated
  · nomatch updated
  · rename_i accepted
    cases updated
    refine ⟨accepted, rfl, ?_, ?_⟩
    · rw [toInt_later, toInt_later]
    · dsimp only
      intro stays
      rw [stays]
      by_cases same : (unpack msgTS).1 = h.l
      · rw [if_pos ⟨rfl, same.symm⟩]
        refine ⟨_, rfl, ?_⟩
        simp only [UInt16.lt_iff_toNat_lt]
        split <;> omega
      · rw [if_neg (fun both => same both.2.symm), if_pos rfl, if_neg same]
        exact ⟨_, rfl, rfl⟩

/-- `Update` refuses only what is too far ahead. -/
theorem update_eq_error {h : HLC} {ptMs : Int64} {msgTS : HLCTimestamp} {cause : TooFarInFuture}
    (refused : h.update ptMs msgTS = .error cause) :
    ptMs + h.maxSkewAllowed < (unpack msgTS).1 := by
  unfold update at refused
  dsimp only at refused
  split at refused
  · assumption
  · nomatch refused

end HLC

namespace History

/-- Within one millisecond the timestamp increases if the counter can be incremented. -/
theorem pack_lt_pack_succ (range : InRange l) {c counter : UInt16}
    (above : c.toNat ≤ counter.toNat) :
    pack l c < pack l (counter + 1) ↔ counter.toNat < logicalMax := by
  rw [pack_lt_pack range range, toNat_succ]
  simp only [true_and]
  split <;> omega

section

variable {s : History} {call : Call} (ok : s.OK) (range : InRange call.ptMs)

include ok range

/-- A call returns nothing, or a timestamp that is later than the last one exactly if
there is room. -/
theorem step_cases :
    s.step call = s ∧ s.Room call ∨
      ∃ h, s.step call = { hlc := h, returned := s.returned ++ [pack h.l h.c] } ∧ InRange h.l ∧
        (s.Room call ↔ s.returned = [] ∨ pack s.hlc.l s.hlc.c < pack h.l h.c) := by
  cases call with
  | now ptMs =>
    right
    unfold step Room
    dsimp only
    rw [HLC.now_eq]
    split
    · rename_i ahead
      refine ⟨_, rfl, range, ?_⟩
      have later : pack s.hlc.l s.hlc.c < pack ptMs 0 :=
        (pack_lt_pack ok.range range).mpr (.inl (Int64.lt_iff_toInt_lt.mp ahead))
      simp only [ahead, later, true_or]
    · rename_i behind
      refine ⟨_, rfl, ok.range, ?_⟩
      rw [pack_lt_pack_succ ok.range (Nat.le_refl _)]
      simp only [behind, false_or]
  | update ptMs msgTS =>
    unfold step Room
    dsimp only
    cases result : s.hlc.update ptMs msgTS with
    | error cause => exact .inl ⟨rfl, .inr (.inl (HLC.update_eq_error result))⟩
    | ok pair =>
      right
      obtain ⟨h, ts⟩ := pair
      obtain ⟨accepted, rfl, latest, counts⟩ := HLC.update_eq_ok result
      have physical : InRange ptMs := range
      have within : InRange h.l := by
        have := ok.range
        have := unpack_lt msgTS
        unfold InRange at *
        omega
      refine ⟨h, rfl, within, ?_⟩
      simp only [accepted, Int64.lt_iff_toInt_lt (x := s.hlc.l)]
      by_cases stays : h.l = s.hlc.l
      · obtain ⟨counter, counted, value⟩ := counts stays
        have notPhysical : ¬ s.hlc.l.toInt < ptMs.toInt := by
          rw [stays] at latest
          omega
        have notMessage : ¬ s.hlc.l.toInt < (unpack msgTS).1.toInt := by
          rw [stays] at latest
          omega
        rw [counted, stays, pack_lt_pack_succ ok.range (by split at value <;> omega), value]
        simp only [notPhysical, notMessage, false_or]
        apply or_congr_right
        split
        · rename_i same
          rw [Nat.max_lt, and_comm]
          exact and_congr_left fun _ => forall_prop_of_true same
        · rename_i other
          exact and_iff_left fun same => absurd same other
      · have moved : s.hlc.l.toInt < h.l.toInt := by
          rw [← Int64.toInt_inj] at stays
          omega
        have later : pack s.hlc.l s.hlc.c < pack h.l h.c :=
          (pack_lt_pack ok.range within).mpr (.inl moved)
        simp only [later, or_true, iff_true]
        omega

/-! ## Runs -/

theorem OK.step : (s.step call).OK := by
  rcases step_cases ok range with ⟨same, -⟩ | ⟨h, moved, within, -⟩
  · rw [same]
    exact ok
  · rw [moved]
    refine ⟨within, ?_⟩
    intro ts last
    rw [getLast?_append] at last
    exact (Option.mem_some_iff.mp last).symm

/-- One more call: the timestamps still increase exactly if there is room for it. -/
theorem pairwise_step_iff :
    (s.step call).returned.Pairwise (· < ·) ↔ s.returned.Pairwise (· < ·) ∧ s.Room call := by
  rcases step_cases ok range with ⟨same, room⟩ | ⟨h, moved, -, room⟩
  · rw [same]
    exact ⟨fun increasing => ⟨increasing, room⟩, And.left⟩
  · rw [moved, room, pairwise_append]
    simp only [pairwise_singleton, mem_singleton, forall_eq, true_and]
    apply and_congr_right
    intro increasing
    rcases eq_nil_or_concat s.returned with none | ⟨earlier, last, concat⟩
    · simp [none]
    · have shown : last = pack s.hlc.l s.hlc.c := by
        apply ok.last
        rw [concat, concat_eq_append, getLast?_append]
        rfl
      rw [concat, concat_eq_append] at increasing ⊢
      rw [← shown]
      constructor
      · intro later
        exact .inr (later last (mem_append_right _ mem_cons_self))
      · rintro (empty | later) ts mem
        · exact absurd empty (concat_ne_nil _ _)
        · rcases mem_append.mp mem with before | here
          · have := (pairwise_append.mp increasing).2.2 ts before last mem_cons_self
            exact Int64.lt_trans this later
          · rw [mem_singleton.mp here]
            exact later

end

theorem run_concat (calls : List Call) (call : Call) :
    run (calls ++ [call]) = (run calls).step call := by
  unfold run
  rw [foldl_append]
  rfl

theorem ok_run {calls : List Call} (readings : ∀ call ∈ calls, InRange call.ptMs) :
    (run calls).OK := by
  induction calls using reverseRecOn with
  | nil => exact ⟨⟨by decide, by decide⟩, nofun⟩
  | append_singleton calls call ih =>
    rw [run_concat]
    apply OK.step
    · exact ih fun call mem => readings call (mem_append_left _ mem)
    · exact readings call mem_concat_self

end History

open History in
/-- As long as the physical clock leaves room for the counter, the timestamps that a
clock returns increase exactly if the counter has room at every call. -/
theorem returned_increasing_iff (calls : List Call)
    (readings : ∀ call ∈ calls, InRange call.ptMs) :
    (run calls).returned.Pairwise (· < ·) ↔
      ∀ before call, before ++ [call] <+: calls → (run before).Room call := by
  induction calls using reverseRecOn with
  | nil =>
    refine ⟨fun _ before call within => ?_, fun _ => Pairwise.nil⟩
    exact absurd (prefix_nil.mp within)
      (concat_ne_nil _ _)
  | append_singleton calls last ih =>
    have earlier : ∀ call ∈ calls, InRange call.ptMs :=
      fun call mem => readings call (mem_append_left _ mem)
    rw [run_concat, pairwise_step_iff (ok_run earlier)
      (readings last mem_concat_self), ih earlier]
    exact Runs.forall_prefix_concat.symm

/-- A message of the clock's own millisecond, with room for more. -/
theorem returned_increasing_counted :
    ∃ calls : List Call, (∀ call ∈ calls, InRange call.ptMs) ∧
      (History.run calls).returned = [pack 1000 0, pack 1000 8, pack 1000 9, pack 1001 0] ∧
      ∀ before call, before ++ [call] <+: calls → (History.run before).Room call :=
  ⟨[.now 1000, .update 1000 (pack 1000 7), .now 1000, .now 1001], by decide, by decide,
    (returned_increasing_iff _ (by decide)).mp (by decide)⟩

/-- A clock that meets a message of its own millisecond. -/
def meeting : List Call :=
  [.now 1000, .update 1000 (pack 1000 65534), .now 1000]

/-- The message brings the counter to its greatest value, and the next call starts again
at zero. -/
theorem returned_not_increasing :
    (History.run meeting).returned = [pack 1000 0, pack 1000 65535, pack 1000 0] ∧
      ¬ (History.run meeting).returned.Pairwise (· < ·) := by
  decide

end Hermes.Clock
