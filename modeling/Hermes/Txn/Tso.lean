import Hermes.Clock.Hlc
import Hermes.Data.Runs

/-!
# The timestamp oracle

Timestamps are handed out of batches that are allocated above everything allocated before.
Within a batch the numbers are handed out from the top, so that the second timestamp of an
oracle is already below the first one.
-/

namespace Hermes.Txn

open List Option Runs UInt64
open Clock (HLCTimestamp)

structure TimestampOracle where
  lastSaved : UInt64 := 0
  batchBase : UInt64 := 0
  batchRemaining : UInt64 := 0
  deriving DecidableEq, Repr

namespace TimestampOracle

/-- The fast path of `GetTimestamp`: the next number of the batch. -/
def takeFromBatch (t : TimestampOracle) : Option (TimestampOracle × UInt64) :=
  if t.batchRemaining > 0 then
    some ({ t with batchRemaining := t.batchRemaining - 1 },
      t.batchBase + (t.batchRemaining - 1))
  else none

/-- The first number of a new batch, for a reading of the clock. -/
def nextBase (t : TimestampOracle) (hlcTS : HLCTimestamp) : UInt64 :=
  let ts := hlcTS.toUInt64
  if ts ≤ t.lastSaved then t.lastSaved + 1 else ts

def allocateBatch (t : TimestampOracle) (hlcTS : HLCTimestamp) : TimestampOracle × UInt64 :=
  let ts := t.nextBase hlcTS
  ({ lastSaved := ts + 100 - 1, batchBase := ts, batchRemaining := 100 - 1 }, ts + (100 - 1))

/-- `GetTimestamp`; the clock is read only if the batch is used up. -/
def getTimestamp (t : TimestampOracle) (hlcTS : HLCTimestamp) : TimestampOracle × UInt64 :=
  match t.takeFromBatch with
  | some taken => taken
  | none => t.allocateBatch hlcTS

def recover (t : TimestampOracle) (lastPersisted : UInt64) : TimestampOracle :=
  if lastPersisted > t.lastSaved then { t with lastSaved := lastPersisted } else t

end TimestampOracle

/-! ## Sequences of calls -/

inductive OracleCall where
  | getTimestamp (hlcTS : HLCTimestamp)
  | recover (lastPersisted : UInt64)
  deriving DecidableEq, Repr

/-- How often a sequence of calls asks for a timestamp. -/
def requests : List OracleCall → ℕ
  | [] => 0
  | .getTimestamp _ :: rest => requests rest + 1
  | .recover _ :: rest => requests rest

variable {t : TimestampOracle}

namespace TimestampOracle

/-- The timestamps that a sequence of calls returns, in order. -/
def returned (t : TimestampOracle) : List OracleCall → List UInt64
  | [] => []
  | .getTimestamp hlcTS :: rest =>
    (t.getTimestamp hlcTS).2 :: (t.getTimestamp hlcTS).1.returned rest
  | .recover lastPersisted :: rest => (t.recover lastPersisted).returned rest

/-- Whenever a batch is allocated, its numbers are below `2 ^ 64`. -/
def NoOverflow (t : TimestampOracle) : List OracleCall → Prop
  | [] => True
  | .getTimestamp hlcTS :: rest =>
    (t.batchRemaining = 0 →
      t.lastSaved.toNat + 1 < 2 ^ 64 ∧ (t.nextBase hlcTS).toNat + 99 < 2 ^ 64) ∧
    (t.getTimestamp hlcTS).1.NoOverflow rest
  | .recover lastPersisted :: rest => (t.recover lastPersisted).NoOverflow rest

@[simp]
theorem recover_batchBase (t : TimestampOracle) (lastPersisted : UInt64) :
    (t.recover lastPersisted).batchBase = t.batchBase := by
  unfold recover
  split <;> rfl

@[simp]
theorem recover_batchRemaining (t : TimestampOracle) (lastPersisted : UInt64) :
    (t.recover lastPersisted).batchRemaining = t.batchRemaining := by
  unfold recover
  split <;> rfl

theorem getTimestamp_of_empty (empty : t.batchRemaining = 0) (hlcTS : HLCTimestamp) :
    t.getTimestamp hlcTS = t.allocateBatch hlcTS := by
  rw [getTimestamp, takeFromBatch, empty]
  rfl

theorem getTimestamp_of_second (second : t.batchRemaining = 99) (hlcTS : HLCTimestamp) :
    (t.getTimestamp hlcTS).2 = t.batchBase + 98 := by
  rw [getTimestamp, takeFromBatch, second]
  rfl

theorem length_returned (t : TimestampOracle) (calls : List OracleCall) :
    (t.returned calls).length = requests calls := by
  induction calls generalizing t with
  | nil => rfl
  | cons call rest ih =>
    cases call with
    | getTimestamp hlcTS | recover lastPersisted => simp [returned, requests, ih]

variable {calls : List OracleCall}

/-- After the first number of a batch, whatever is recovered, the next timestamp is the one
below it. -/
theorem mem_returned_of_second (second : t.batchRemaining = 99) (another : 0 < requests calls) :
    t.batchBase + 98 ∈ t.returned calls := by
  induction calls generalizing t with
  | nil => nomatch another
  | cons call rest ih =>
    cases call with
    | getTimestamp hlcTS =>
      rw [returned, getTimestamp_of_second second]
      exact mem_cons_self
    | recover lastPersisted =>
      have later := ih ((recover_batchRemaining t lastPersisted).trans second) another
      rwa [recover_batchBase] at later

/-- Two timestamps of an oracle whose batch is used up are not increasing. -/
theorem not_increasing_of_two (empty : t.batchRemaining = 0) (fits : t.NoOverflow calls)
    (two : 1 < requests calls) : ¬ (t.returned calls).Pairwise (· < ·) := by
  induction calls generalizing t with
  | nil => nomatch two
  | cons call rest ih =>
    cases call with
    | recover lastPersisted =>
      exact ih ((recover_batchRemaining t lastPersisted).trans empty) fits two
    | getTimestamp hlcTS =>
      rw [returned, getTimestamp_of_empty empty, pairwise_cons]
      rintro ⟨first, -⟩
      -- the batch starts with its top, base + 99, and goes on with base + 98
      have next := mem_returned_of_second (t := (t.allocateBatch hlcTS).1) rfl
        (Nat.lt_of_succ_lt_succ two)
      have less : t.nextBase hlcTS + 99 < t.nextBase hlcTS + 98 := first _ next
      have bound := (fits.1 empty).2
      have value : ∀ n : UInt64, (t.nextBase hlcTS).toNat + n.toNat < 2 ^ 64 →
          (t.nextBase hlcTS + n).toNat = (t.nextBase hlcTS).toNat + n.toNat :=
        fun n small => (UInt64.toNat_add _ _).trans (Nat.mod_eq_of_lt small)
      rw [lt_iff_toNat_lt, value 99 bound, value 98 (Nat.lt_of_succ_lt bound)] at less
      exact absurd less (Nat.not_lt.mpr (Nat.le_succ _))

/-- The timestamps of a new oracle are increasing exactly if it is asked for one at most. -/
theorem increasing_iff {calls : List OracleCall}
    (fits : ({} : TimestampOracle).NoOverflow calls) :
    (({} : TimestampOracle).returned calls).Pairwise (· < ·) ↔ requests calls ≤ 1 := by
  constructor
  · intro increasing
    by_contra more
    exact not_increasing_of_two rfl fits (Nat.lt_of_not_le more) increasing
  · intro one
    rw [← length_returned {} calls] at one
    match ({} : TimestampOracle).returned calls, one with
    | [], _ => exact .nil
    | [ts], _ => exact pairwise_singleton _ ts

/-- One timestamp, with a recovery before it and one after it. -/
theorem increasing_iff_single :
    ({} : TimestampOracle).NoOverflow [.recover 5, .getTimestamp 1000, .recover 7] ∧
      (({} : TimestampOracle).returned
        [.recover 5, .getTimestamp 1000, .recover 7]).Pairwise (· < ·) := by
  have fits : ({} : TimestampOracle).NoOverflow [.recover 5, .getTimestamp 1000, .recover 7] :=
    ⟨fun _ => by decide, trivial⟩
  exact ⟨fits, (increasing_iff fits).mpr (by decide)⟩

/-- Two calls at one reading of the clock: the oracle returns 1099 and then 1098. -/
theorem returned_decreasing :
    ({} : TimestampOracle).NoOverflow [.getTimestamp 1000, .getTimestamp 1000] ∧
      ({} : TimestampOracle).returned [.getTimestamp 1000, .getTimestamp 1000] = [1099, 1098] ∧
      ¬ (({} : TimestampOracle).returned
        [.getTimestamp 1000, .getTimestamp 1000]).Pairwise (· < ·) := by
  refine ⟨⟨fun _ => by decide, fun empty => ?_, trivial⟩, by decide, by decide⟩
  exact absurd empty (by decide)

end TimestampOracle

/-! ## Concurrent calls -/

/-- An oracle that is called concurrently: the callers that have found the batch used up and
have not allocated a new one yet, and everything that has been returned. -/
structure OracleRun where
  oracle : TimestampOracle := {}
  slow : List ℕ := []
  returned : List UInt64 := []
  deriving DecidableEq, Repr

/-- The sections under the lock. -/
inductive OracleStep where
  | fastPath (caller : ℕ)
  | allocateBatch (caller : ℕ) (hlcTS : HLCTimestamp)
  | recover (lastPersisted : UInt64)
  deriving DecidableEq, Repr

namespace OracleRun

def step (r : OracleRun) : OracleStep → Option OracleRun
  | .fastPath caller =>
    if caller ∈ r.slow then none
    else
      match r.oracle.takeFromBatch with
      | some (oracle, ts) => some { r with oracle, returned := ts :: r.returned }
      | none => some { r with slow := caller :: r.slow }
  | .allocateBatch caller hlcTS =>
    if caller ∈ r.slow then
      let (oracle, ts) := r.oracle.allocateBatch hlcTS
      some { oracle, slow := r.slow.erase caller, returned := ts :: r.returned }
    else none
  | .recover lastPersisted => some { r with oracle := r.oracle.recover lastPersisted }

/-- The numbers of a batch that is allocated are below `2 ^ 64`. -/
def NoOverflow (r : OracleRun) : OracleStep → Prop
  | .allocateBatch _ hlcTS =>
    r.oracle.lastSaved.toNat + 1 < 2 ^ 64 ∧ (r.oracle.nextBase hlcTS).toNat + 99 < 2 ^ 64
  | _ => True

instance (r : OracleRun) : DecidablePred r.NoOverflow := by
  rintro ⟨⟩ <;> delta NoOverflow <;> infer_instance

abbrev Reachable : OracleRun → Prop :=
  Runs.Reachable step NoOverflow {}

end OracleRun

namespace TimestampOracle

variable {t t' : TimestampOracle} {ts : UInt64}

/-- The numbers that are left in the batch have been saved. -/
def BatchSaved (t : TimestampOracle) : Prop :=
  t.batchBase.toNat + t.batchRemaining.toNat ≤ t.lastSaved.toNat + 1

/-- The numbers that have been saved and are not left in the batch: those that may have been
returned. -/
def Spent (t : TimestampOracle) (ts : UInt64) : Prop :=
  ts.toNat ≤ t.lastSaved.toNat ∧
    (ts.toNat < t.batchBase.toNat ∨ t.batchBase.toNat + t.batchRemaining.toNat ≤ ts.toNat)

/-- A number that was not spent is spent. -/
structure Spends (t t' : TimestampOracle) (ts : UInt64) : Prop where
  saved : t'.BatchSaved
  keeps : ∀ old, t.Spent old → t'.Spent old
  spent : t'.Spent ts
  fresh : ¬ t.Spent ts

/-- A floor is below the highest number that is left in the batch, or else that a new one will
have, which begins at the reading of the clock or behind the saved numbers. -/
def AboveFloor (t : TimestampOracle) (minTS : UInt64) (hlcTS : HLCTimestamp) : Prop :=
  (t.batchRemaining = 0 →
    minTS.toNat < max (t.lastSaved.toNat + 1) hlcTS.toUInt64.toNat + 99) ∧
  (0 < t.batchRemaining → minTS.toNat + 1 < t.batchBase.toNat + t.batchRemaining.toNat)

/-- The number that the batch gives next. -/
theorem toNat_next (saved : t.BatchSaved) (positive : 0 < t.batchRemaining) :
    (t.batchRemaining - 1).toNat = t.batchRemaining.toNat - 1 ∧
      (t.batchBase + (t.batchRemaining - 1)).toNat =
        t.batchBase.toNat + (t.batchRemaining.toNat - 1) := by
  have one : (t.batchRemaining - 1).toNat = t.batchRemaining.toNat - 1 :=
    UInt64.toNat_sub_of_le _ _ positive
  have pos : 0 < t.batchRemaining.toNat := positive
  have bound := t.lastSaved.toNat_lt
  unfold BatchSaved at saved
  rw [UInt64.toNat_add]
  omega

theorem takeFromBatch_spends (saved : t.BatchSaved) (taken : t.takeFromBatch = some (t', ts)) :
    t.Spends t' ts := by
  unfold takeFromBatch at taken
  split at taken
  · rename_i positive
    cases taken
    obtain ⟨one, number⟩ := toNat_next saved positive
    have pos : 0 < t.batchRemaining.toNat := positive
    unfold BatchSaved at saved
    constructor <;> simp only [BatchSaved, Spent, number, one] <;> omega
  · nomatch taken

/-- A new batch lies above everything that has been saved. -/
theorem toNat_nextBase (t : TimestampOracle) (hlcTS : HLCTimestamp)
    (fits : t.lastSaved.toNat + 1 < 2 ^ 64) :
    (t.nextBase hlcTS).toNat = max (t.lastSaved.toNat + 1) hlcTS.toUInt64.toNat := by
  simp only [nextBase]
  split
  · rename_i old
    have old := UInt64.le_iff_toNat_le.mp old
    rw [UInt64.toNat_add, UInt64.toNat_one]
    omega
  · rename_i above
    have above := UInt64.lt_iff_toNat_lt.mp (UInt64.not_le.mp above)
    omega

theorem allocateBatch_spends (hlcTS : HLCTimestamp) (fits : t.lastSaved.toNat + 1 < 2 ^ 64)
    (batch : (t.nextBase hlcTS).toNat + 99 < 2 ^ 64) :
    t.Spends (t.allocateBatch hlcTS).1 (t.allocateBatch hlcTS).2 := by
  have above := t.toNat_nextBase hlcTS fits
  have top : (t.nextBase hlcTS + (100 - 1)).toNat = (t.nextBase hlcTS).toNat + 99 :=
    Nat.mod_eq_of_lt batch
  have saved : (t.nextBase hlcTS + 100 - 1).toNat = (t.nextBase hlcTS).toNat + 99 := by
    rw [UInt64.sub_eq_add_neg, UInt64.add_assoc]
    exact top
  have left : (100 - 1 : UInt64).toNat = 99 := rfl
  constructor <;> simp only [allocateBatch, BatchSaved, Spent, top, saved, left] <;> omega

theorem recover_spent (saved : t.BatchSaved) (lastPersisted : UInt64) :
    (t.recover lastPersisted).BatchSaved ∧
      ∀ old, t.Spent old → (t.recover lastPersisted).Spent old := by
  unfold recover
  split
  · rename_i above
    have above := lt_iff_toNat_lt.mp above
    unfold BatchSaved at saved
    constructor <;> simp only [BatchSaved, Spent] <;> omega
  · exact ⟨saved, fun _ spent => spent⟩

end TimestampOracle

namespace OracleRun

variable {r r' : OracleRun}

/-- What has been returned is spent, and nothing has been returned twice. -/
structure Unique (r : OracleRun) : Prop where
  saved : r.oracle.BatchSaved
  spent : ∀ ts ∈ r.returned, r.oracle.Spent ts
  nodup : r.returned.Nodup

/-- Returning a number that was not spent and is spent now. -/
theorem Unique.cons (inv : r.Unique) {t' : TimestampOracle} {ts : UInt64} (slow : List ℕ)
    (spends : r.oracle.Spends t' ts) :
    Unique { oracle := t', slow, returned := ts :: r.returned } where
  saved := spends.saved
  spent := forall_mem_cons.mpr
    ⟨spends.spent, fun old mem => spends.keeps old (inv.spent old mem)⟩
  nodup := nodup_cons.mpr ⟨fun again => spends.fresh (inv.spent ts again), inv.nodup⟩

theorem Unique.step {event : OracleStep} (inv : r.Unique) (fits : r.NoOverflow event)
    (happens : r.step event = some r') : r'.Unique := by
  cases event with
  | fastPath caller =>
    obtain ⟨-, happens⟩ := ite_none_left_eq_some.mp happens
    split at happens
    · rename_i oracle ts taken
      cases happens
      exact inv.cons r.slow (TimestampOracle.takeFromBatch_spends inv.saved taken)
    · cases happens
      exact { inv with }
  | allocateBatch caller hlcTS =>
    obtain ⟨-, happens⟩ := ite_none_right_eq_some.mp happens
    cases happens
    exact inv.cons _ (TimestampOracle.allocateBatch_spends hlcTS fits.1 fits.2)
  | recover lastPersisted =>
    cases happens
    have recovered := TimestampOracle.recover_spent inv.saved lastPersisted
    exact ⟨recovered.1, fun ts mem => recovered.2 ts (inv.spent ts mem), inv.nodup⟩

/-- However the sections interleave, no timestamp is returned twice. -/
theorem returned_nodup (reachable : r.Reachable) : r.returned.Nodup :=
  (Reachable.invariant (I := Unique)
    ⟨by simp [TimestampOracle.BatchSaved], by simp, nodup_nil⟩
    (fun _ _ _ inv fits happens => inv.step fits happens) reachable).nodup

/-- Two callers find the batch used up; the second allocates over the batch of the first, with
a clock that has gone back. -/
theorem returned_nodup_race : ∃ r : OracleRun, r.Reachable ∧ r.returned = [1198, 1199, 1099] ∧
    r.returned.Nodup := by
  refine exists_of_exec_and step NoOverflow {}
    [.fastPath 0, .fastPath 1, .allocateBatch 0 1000, .allocateBatch 1 7, .fastPath 0]
    (by decide +kernel) fun r reachable _ => ?_
  exact returned_nodup reachable

end OracleRun

/-! ## Commit timestamps -/

/-- `GetCommitTimestamp`: a floor that is not below the timestamp is raised by one, which the
oracle does not record. -/
def TimestampOracle.getCommitTimestamp (t : TimestampOracle) (minTS : UInt64)
    (hlcTS : HLCTimestamp) : TimestampOracle × UInt64 :=
  let (t, ts) := t.getTimestamp hlcTS
  (t, if ts ≤ minTS then minTS + 1 else ts)

/-- What a call has returned, with its floor if it asked for a commit timestamp. -/
structure Issued where
  minTS : Option UInt64
  ts : UInt64
  deriving DecidableEq, Repr

/-- An oracle that is called for timestamps and commit timestamps, one after the other. -/
structure CommitCalls where
  oracle : TimestampOracle := {}
  issued : List Issued := []
  deriving DecidableEq, Repr

inductive CommitCall where
  | getTimestamp (hlcTS : HLCTimestamp)
  | getCommitTimestamp (minTS : UInt64) (hlcTS : HLCTimestamp)
  deriving DecidableEq, Repr

namespace CommitCalls

def step (r : CommitCalls) : CommitCall → Option CommitCalls
  | .getTimestamp hlcTS =>
    let (oracle, ts) := r.oracle.getTimestamp hlcTS
    some { oracle, issued := ⟨none, ts⟩ :: r.issued }
  | .getCommitTimestamp minTS hlcTS =>
    let (oracle, ts) := r.oracle.getCommitTimestamp minTS hlcTS
    some { oracle, issued := ⟨some minTS, ts⟩ :: r.issued }

/-- Every value is above the floor of its call, and none is returned by two calls. -/
def Sound (r : CommitCalls) : Prop :=
  (∀ call ∈ r.issued, ∀ minTS ∈ call.minTS, minTS < call.ts) ∧ (r.issued.map Issued.ts).Nodup

/-- The numbers of a batch that is allocated are below `2 ^ 64`, and a floor is below the
number that comes next. -/
def BelowDrawn (r : CommitCalls) : CommitCall → Prop
  | .getTimestamp hlcTS => r.oracle.NoOverflow [.getTimestamp hlcTS]
  | .getCommitTimestamp minTS hlcTS =>
    r.oracle.NoOverflow [.getTimestamp hlcTS] ∧ r.oracle.AboveFloor minTS hlcTS

instance (r : CommitCalls) : DecidablePred r.BelowDrawn
  | .getTimestamp _ => inferInstanceAs (Decidable ((_ → _ ∧ _) ∧ True))
  | .getCommitTimestamp _ _ =>
    inferInstanceAs (Decidable (((_ → _ ∧ _) ∧ True) ∧ (_ → _) ∧ (_ → _)))

end CommitCalls

variable {hlcTS : HLCTimestamp}

theorem TimestampOracle.lt_getTimestamp {minTS : UInt64} (saved : t.BatchSaved)
    (fits : t.NoOverflow [.getTimestamp hlcTS]) (above : t.AboveFloor minTS hlcTS) :
    minTS < (t.getTimestamp hlcTS).2 := by
  rw [UInt64.lt_iff_toNat_lt]
  by_cases empty : t.batchRemaining = 0
  · obtain ⟨room, batch⟩ := fits.1 empty
    have top : (t.nextBase hlcTS + (100 - 1)).toNat = (t.nextBase hlcTS).toNat + 99 :=
      Nat.mod_eq_of_lt batch
    rw [getTimestamp_of_empty empty, allocateBatch, top, t.toNat_nextBase hlcTS room]
    exact above.1 empty
  · have positive := UInt64.pos_iff_ne_zero.mpr empty
    have below := above.2 positive
    have taken : t.takeFromBatch = some _ := if_pos positive
    rw [getTimestamp, taken, (toNat_next saved positive).2]
    omega

theorem TimestampOracle.getTimestamp_spends (saved : t.BatchSaved)
    (fits : t.NoOverflow [.getTimestamp hlcTS]) :
    t.Spends (t.getTimestamp hlcTS).1 (t.getTimestamp hlcTS).2 := by
  by_cases empty : t.batchRemaining = 0
  · rw [getTimestamp_of_empty empty]
    exact allocateBatch_spends hlcTS (fits.1 empty).1 (fits.1 empty).2
  · have taken : t.takeFromBatch = some _ := if_pos (UInt64.pos_iff_ne_zero.mpr empty)
    rw [getTimestamp, taken]
    exact takeFromBatch_spends saved taken

namespace CommitCalls

variable {r r' : CommitCalls}

/-- The values that have been returned are unique as those of a run without floors are. -/
structure Drawn (r : CommitCalls) : Prop where
  unique : OracleRun.Unique { oracle := r.oracle, returned := r.issued.map Issued.ts }
  above : ∀ call ∈ r.issued, ∀ minTS ∈ call.minTS, minTS < call.ts

theorem Drawn.cons (drawn : r.Drawn) {floor : Option UInt64}
    (fits : r.oracle.NoOverflow [.getTimestamp hlcTS])
    (below : ∀ minTS ∈ floor, minTS < (r.oracle.getTimestamp hlcTS).2) :
    Drawn { oracle := (r.oracle.getTimestamp hlcTS).1
            issued := ⟨floor, (r.oracle.getTimestamp hlcTS).2⟩ :: r.issued } where
  unique := drawn.unique.cons [] (TimestampOracle.getTimestamp_spends drawn.unique.saved fits)
  above := forall_mem_cons.mpr ⟨below, drawn.above⟩

theorem Drawn.step {call : CommitCall} (drawn : r.Drawn) (ok : r.BelowDrawn call)
    (happens : r.step call = some r') : r'.Drawn := by
  cases call with
  | getTimestamp hlcTS =>
    cases happens
    exact drawn.cons ok nofun
  | getCommitTimestamp minTS hlcTS =>
    rw [CommitCalls.step, TimestampOracle.getCommitTimestamp] at happens
    dsimp only at happens
    have below := TimestampOracle.lt_getTimestamp drawn.unique.saved ok.1 ok.2
    rw [if_neg (UInt64.not_le.mpr below)] at happens
    obtain rfl := some.inj happens
    exact drawn.cons ok.1 fun _ same => some.inj same ▸ below

/-- As long as no floor reaches the timestamp that is drawn for it, the values are above their
floors and all different. -/
theorem sound_of_belowDrawn (reachable : Runs.Reachable step BelowDrawn {} r) : r.Sound := by
  have drawn : r.Drawn := by
    apply reachable.invariant
    · exact ⟨⟨by simp [TimestampOracle.BatchSaved], nofun, nodup_nil⟩, nofun⟩
    · exact fun _ _ _ drawn ok happens => drawn.step ok happens
  exact ⟨drawn.above, drawn.unique.nodup⟩

theorem sound_of_belowDrawn_two : ∃ r : CommitCalls,
    r.issued = [⟨some 1000, 1098⟩, ⟨none, 1099⟩] ∧ r.Sound := by
  obtain ⟨r, reachable, issued⟩ := exists_of_exec step BelowDrawn {}
    [.getTimestamp 1000, .getCommitTimestamp 1000 7]
    (P := fun r => r.issued = [⟨some 1000, 1098⟩, ⟨none, 1099⟩]) (by decide +kernel)
  exact ⟨r, issued, sound_of_belowDrawn reachable⟩

/-- Two transactions with one floor get the same commit timestamp. -/
theorem issued_twice : ∃ r, Runs.Reachable step (fun _ _ => True) {} r ∧
    r.issued = [⟨some 2000, 2001⟩, ⟨some 2000, 2001⟩] ∧ ¬ r.Sound := by
  refine exists_of_exec_and step (fun _ _ => True) {}
    [.getCommitTimestamp 2000 1000, .getCommitTimestamp 2000 1000] (by decide +kernel)
    fun r _ issued sound => ?_
  have different := sound.2
  rw [issued] at different
  exact absurd different (by decide)

end CommitCalls

end Hermes.Txn
