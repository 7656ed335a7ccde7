import Hermes.Txn.Ssi
import Hermes.Data.Arrangement

/-!
# Serializability under the conflict detector

Committed transactions that have read from snapshots are in a serial order when they commit,
unless one of them has missed a write of one that committed before it.  The only test of
`CheckConflict` that can prevent this is the one for write-write conflicts, and it looks at
running transactions that have started earlier.  It suffices if whoever has read what another
one is about to commit has also written it and has started first.  The test for a dependency
cycle holds only for transactions that began after the other one had committed.
-/

namespace Hermes.Txn

open AList Arrangement List Option
open Clock (HLCTimestamp)

namespace Committed

/-! ## Conflicts -/

/-- Both have written a key, `a` first. -/
def WriteWrite (a b : Committed) : Prop :=
  a.commitTs < b.commitTs ∧ ∃ key ∈ a.writes, key ∈ b.writes

/-- A write of `a` is in the snapshot from which `b` has read the key. -/
def WriteRead (a b : Committed) : Prop :=
  a.commitTs ≤ b.txn.readTimestamp ∧ ∃ key ∈ a.writes, key ∈ b.reads

/-- A write of `b` is not in the snapshot from which `a` has read the key. -/
def ReadWrite (a b : Committed) : Prop :=
  a.txn.readTimestamp < b.commitTs ∧ ∃ key ∈ a.reads, key ∈ b.writes
  deriving Decidable

/-- In every serial order `a` comes before `b`.  Transactions are told apart by their commit
timestamps. -/
def Conflict (a b : Committed) : Prop :=
  a.commitTs ≠ b.commitTs ∧ (WriteWrite a b ∨ WriteRead a b ∨ ReadWrite a b)

/-- Each of two transactions has read what the other one was about to write. -/
def WriteSkew (a b : Committed) : Prop :=
  a.commitTs ≠ b.commitTs ∧ ReadWrite a b ∧ ReadWrite b a
  deriving Decidable

end Committed

open Committed

variable {history : List Committed}

/-- There is a serial order of the transactions in which all conflicts point forwards. -/
def Serializable (history : List Committed) : Prop :=
  ∃ order, order.Perm history ∧ Respects Conflict order

/-- Transactions commit after their snapshots. -/
def AfterSnapshot (history : List Committed) : Prop :=
  ∀ c ∈ history, c.txn.readTimestamp < c.commitTs

/-- Transactions commit at increasing timestamps, and none misses a write of an earlier one. -/
def NoneMissed (history : List Committed) : Prop :=
  history.Pairwise fun a b => a.commitTs < b.commitTs ∧ ¬ ReadWrite b a

/-- The order in which such transactions commit is a serial one. -/
theorem serializable_of_noneMissed (after : AfterSnapshot history)
    (seen : NoneMissed history) : Serializable history := by
  refine ⟨history, .refl _, seen.imp_of_mem ?_⟩
  rintro a b a_mem - ⟨earlier, saw⟩ ⟨-, written | read | missed⟩
  · exact Int64.lt_asymm earlier written.1
  · have snapshot := Int64.lt_iff_toInt_lt.mp (after a a_mem)
    have visible := Int64.le_iff_toInt_le.mp read.1
    rw [Int64.lt_iff_toInt_lt] at earlier
    omega
  · exact saw missed

/-! ## Serial orders -/

/-- There is no write skew in a serializable history. -/
theorem Serializable.not_writeSkew (serializable : Serializable history) {a b : Committed}
    (a_mem : a ∈ history) (b_mem : b ∈ history) : ¬ WriteSkew a b := by
  rintro ⟨distinct, missed, missed'⟩
  obtain ⟨order, perm, respects⟩ := serializable
  have forwards : Conflict a b := ⟨distinct, .inr (.inr missed)⟩
  have backwards : Conflict b a := ⟨distinct.symm, .inr (.inr missed')⟩
  obtain ⟨before, after, rfl⟩ := append_of_mem (perm.mem_iff.mpr a_mem)
  have earlier := respects.mem_before (perm.mem_iff.mpr b_mem)
    (fun same => distinct (congrArg commitTs same.symm)) backwards
  exact respects.not_related earlier forwards

/-! ## Runs of the detector -/

namespace SSIRun

variable {s s' : SSIRun}

/-- Transactions commit at increasing timestamps, each after its snapshot. -/
def InOrder (s : SSIRun) : SSIEvent → Prop
  | .commit txnID commitTs _ => ∀ f ∈ s.running.lookup txnID,
    (∀ c ∈ s.committed, c.commitTs < commitTs) ∧ f.txn.readTimestamp < commitTs
  | _ => True

/-- A transaction reads a key before it writes it, and only if no commit has written the key
since its snapshot.  Where a running transaction has read a key that a commit is to write, it has
written the key too and has started first. -/
def Tested (s : SSIRun) : SSIEvent → Prop
  | .recordRead txnID key _ => ∀ f ∈ s.running.lookup txnID, key ∉ f.writes ∧
    ∀ c ∈ s.committed, key ∈ c.writes → c.commitTs ≤ f.txn.readTimestamp
  | .commit txnID _ _ => ∀ f ∈ s.running.lookup txnID, ∀ other ∈ s.running.entries,
    other.1 ≠ txnID → ∀ key ∈ other.2.reads, key ∈ f.writes →
      key ∈ other.2.writes ∧ other.2.txn.startTime < f.txn.startTime
  | _ => True

instance (s : SSIRun) : DecidablePred s.InOrder := by
  rintro ⟨⟩ <;> delta InOrder <;> infer_instance

instance (s : SSIRun) : DecidablePred s.Tested := by
  rintro ⟨⟩ <;> delta Tested <;> infer_instance

def InOrderAndTested (s : SSIRun) (event : SSIEvent) : Prop :=
  s.InOrder event ∧ s.Tested event
  deriving Decidable

/-! ### What the detector knows -/

/-- The detector has the running transactions and what they have written. -/
structure Mirrored (s : SSIRun) : Prop where
  active : ∀ id, s.detector.activeTxns.lookup id = (s.running.lookup id).map Footprint.txn
  named : ∀ id f, s.running.lookup id = some f → f.txn.id = id
  written : ∀ id f, s.running.lookup id = some f →
    ∃ sets, s.detector.readWriteSets.lookup id = some sets ∧
      ∀ key ∈ f.writes, ∃ rw, sets.lookup key = some rw ∧ rw.written = true

theorem mirrored_start : Mirrored {} where
  active _ := rfl
  named := nofun
  written := nofun

variable {id : TxnID} {f : Footprint}

theorem lookup_insert_cases {running : AList fun _ : TxnID => Footprint} {other : TxnID}
    {g : Footprint} (found : (running.insert id f).lookup other = some g) :
    other = id ∧ g = f ∨ running.lookup other = some g ∧ other ≠ id := by
  by_cases same : other = id
  · rw [same, lookup_insert] at found
    exact .inl ⟨same, (some.inj found).symm⟩
  · exact .inr ⟨lookup_insert_ne same ▸ found, same⟩

theorem lookup_erase_eq_some {running : AList fun _ : TxnID => Footprint} {other : TxnID}
    {g : Footprint} (found : (running.erase id).lookup other = some g) :
    running.lookup other = some g ∧ other ≠ id := by
  by_cases same : other = id
  · rw [same, lookup_erase] at found
    nomatch found
  · exact ⟨lookup_erase_ne same ▸ found, same⟩

/-- The entry of one transaction has been replaced. -/
theorem Mirrored.replace {d : SSIDetector} (mirrored : s.Mirrored) (named : f.txn.id = id)
    (active : d.activeTxns.lookup id = some f.txn)
    (others : ∀ other, other ≠ id →
      d.activeTxns.lookup other = s.detector.activeTxns.lookup other)
    {sets : RWSets} (stored : d.readWriteSets = s.detector.readWriteSets.insert id sets)
    (written : ∀ key ∈ f.writes, ∃ rw, sets.lookup key = some rw ∧ rw.written = true) :
    Mirrored { s with detector := d, running := s.running.insert id f } := by
  constructor
  · intro other
    by_cases same : other = id
    · subst same
      rw [active, lookup_insert]
      rfl
    · rw [others other same, lookup_insert_ne same]
      exact mirrored.active other
  · intro other g found
    rcases lookup_insert_cases found with ⟨rfl, rfl⟩ | ⟨found, _⟩
    · exact named
    · exact mirrored.named other g found
  · intro other g found
    rw [stored]
    rcases lookup_insert_cases found with ⟨rfl, rfl⟩ | ⟨found, different⟩
    · exact ⟨sets, lookup_insert _, written⟩
    · rw [lookup_insert_ne different]
      exact mirrored.written other g found

/-- A transaction has ended. -/
theorem Mirrored.erase {d : SSIDetector} {committed : List Committed} (mirrored : s.Mirrored)
    (active : d.activeTxns = s.detector.activeTxns.erase id)
    (sets : ∀ other, other ≠ id →
      d.readWriteSets.lookup other = s.detector.readWriteSets.lookup other) :
    Mirrored { detector := d, running := s.running.erase id, committed := committed } := by
  constructor
  · intro other
    rw [active]
    by_cases same : other = id
    · rw [same, lookup_erase, lookup_erase]
      rfl
    · rw [lookup_erase_ne same, lookup_erase_ne same]
      exact mirrored.active other
  · intro other g found
    exact mirrored.named other g (lookup_erase_eq_some found).1
  · intro other g found
    obtain ⟨found, different⟩ := lookup_erase_eq_some found
    rw [sets other different]
    exact mirrored.written other g found

/-- A transaction is not let through that has written the same key as one that runs and has
started earlier. -/
theorem Mirrored.checkConflict_ne_none (mirrored : s.Mirrored) {other : TxnID} {g : Footprint}
    (found : s.running.lookup id = some f) (found' : s.running.lookup other = some g)
    (different : other ≠ id) {key : Key} (written : key ∈ f.writes) (written' : key ∈ g.writes)
    (earlier : g.txn.startTime < f.txn.startTime) : s.detector.checkConflict f.txn ≠ none := by
  obtain ⟨sets, stored, has⟩ := mirrored.written id f found
  obtain ⟨sets', stored', has'⟩ := mirrored.written other g found'
  obtain ⟨rw₁, here, isWritten⟩ := has key written
  obtain ⟨rw₂, there, isWritten'⟩ := has' key written'
  have active : s.detector.activeTxns.lookup other = some g.txn := by
    rw [mirrored.active, found']
    rfl
  have test : s.detector.writtenEarlier f.txn other sets' key = true := by
    simp [SSIDetector.writtenEarlier, there, isWritten', active, earlier]
  intro passes
  unfold SSIDetector.checkConflict at passes
  rw [mirrored.named id f found, stored] at passes
  have silent := findSome?_eq_none_iff.mp (or_eq_none_iff.mp passes).2 ⟨other, sets'⟩
    (mem_lookup_iff.mp stored')
  unfold SSIDetector.checkActive at silent
  rw [mirrored.named id f found, if_neg different] at silent
  have none := findSome?_eq_none_iff.mp silent ⟨key, rw₁⟩ (mem_lookup_iff.mp here)
  rw [isWritten, test] at none
  nomatch none

/-! ### Runs -/

/-- What holds in every state: the detector mirrors the running transactions, which have missed
no write so far. -/
structure OK (s : SSIRun) : Prop where
  mirrored : s.Mirrored
  seen : ∀ id f, s.running.lookup id = some f → ∀ c ∈ s.committed, ∀ key ∈ f.reads,
    key ∈ c.writes → c.commitTs ≤ f.txn.readTimestamp
  after : AfterSnapshot s.committed
  noneMissed : NoneMissed s.committed

namespace OK

theorem start : OK {} := ⟨mirrored_start, nofun, fun _ mem => (nomatch mem), .nil⟩

variable (ok : s.OK)

include ok

/-- A transaction goes on; what it has read was written by no commit since its snapshot. -/
theorem replace {d : SSIDetector}
    (mirrored : Mirrored { s with detector := d, running := s.running.insert id f })
    (seen : ∀ c ∈ s.committed, ∀ key ∈ f.reads, key ∈ c.writes →
      c.commitTs ≤ f.txn.readTimestamp) :
    OK { s with detector := d, running := s.running.insert id f } := by
  refine ⟨mirrored, fun other g found => ?_, ok.after, ok.noneMissed⟩
  rcases lookup_insert_cases found with ⟨rfl, rfl⟩ | ⟨found, _⟩
  · exact seen
  · exact ok.seen other g found

theorem recordRead {key : Key} {ts : HLCTimestamp} (found : s.running.lookup id = some f)
    (tested : s.Tested (.recordRead id key ts)) :
    OK { s with
      detector := s.detector.recordRead id key ts
      running := s.running.insert id { f with reads := key :: f.reads } } := by
  obtain ⟨notWritten, fresh⟩ := tested f found
  obtain ⟨sets, stored, has⟩ := ok.mirrored.written id f found
  have active := ok.mirrored.active id
  rw [found] at active
  refine ok.replace (ok.mirrored.replace (ok.mirrored.named id f found) active
    (fun _ _ => rfl) rfl ?_) ?_
  · intro other written
    rw [SSIDetector.rwSet, stored]
    have different : other ≠ key := ne_of_mem_of_not_mem written notWritten
    obtain ⟨rw, here, isWritten⟩ := has other written
    exact ⟨rw, (lookup_insert_ne different).trans here, isWritten⟩
  · intro c mem other read written
    rcases mem_cons.mp read with rfl | old
    · exact fresh c mem written
    · exact ok.seen id f found c mem other old written

theorem recordWrite {key : Key} {ts : HLCTimestamp} (found : s.running.lookup id = some f) :
    OK { s with
      detector := s.detector.recordWrite id key ts
      running := s.running.insert id { f with writes := key :: f.writes } } := by
  obtain ⟨sets, stored, has⟩ := ok.mirrored.written id f found
  have active := ok.mirrored.active id
  rw [found] at active
  refine ok.replace (ok.mirrored.replace (ok.mirrored.named id f found) active
    (fun _ _ => rfl) rfl ?_) (ok.seen id f found)
  intro other written
  rw [SSIDetector.rwSet, stored]
  by_cases same : other = key
  · subst same
    refine ⟨_, lookup_insert _, ?_⟩
    split <;> rfl
  · obtain ⟨rw, here, isWritten⟩ := has other ((mem_cons.mp written).resolve_left same)
    exact ⟨rw, (lookup_insert_ne same).trans here, isWritten⟩

/-- A transaction that `CheckConflict` lets through has written nothing that a running one has
read. -/
theorem commit {commitTs : HLCTimestamp} {now : ℤ} (found : s.running.lookup id = some f)
    (allowed : s.InOrderAndTested (.commit id commitTs now))
    (passes : s.detector.checkConflict f.txn = none) :
    OK {
      detector := s.detector.commit id commitTs now
      running := s.running.erase id
      committed := s.committed ++ [{ f with commitTs := commitTs }] } := by
  obtain ⟨later, snapshot⟩ := allowed.1 f found
  obtain ⟨sets, stored, -⟩ := ok.mirrored.written id f found
  constructor
  · apply ok.mirrored.erase
    · rw [SSIDetector.commit, stored]
    · intro other _
      rw [SSIDetector.commit, stored]
  · intro other g found' c mem key read written
    obtain ⟨found', different⟩ := lookup_erase_eq_some found'
    rcases mem_append.mp mem with old | new
    · exact ok.seen other g found' c old key read written
    · cases mem_singleton.mp new
      obtain ⟨both, earlier⟩ := allowed.2 f found ⟨other, g⟩ (mem_lookup_iff.mp found') different
        key read written
      exact absurd passes
        (ok.mirrored.checkConflict_ne_none found found' different written both earlier)
  · exact forall_mem_append.mpr ⟨ok.after, forall_mem_singleton.mpr snapshot⟩
  · refine pairwise_append.mpr ⟨ok.noneMissed, pairwise_singleton _ _, fun a mem b new => ?_⟩
    cases mem_singleton.mp new
    refine ⟨later a mem, ?_⟩
    rintro ⟨missed, key, read, written⟩
    exact Int64.not_le.mpr missed (ok.seen id f found a mem key read written)

theorem step {event : SSIEvent} (allowed : s.InOrderAndTested event)
    (happens : s.step event = some s') : s'.OK := by
  cases event with
  | register txn =>
    cases happens
    refine ok.replace (ok.mirrored.replace rfl (lookup_insert _)
      (fun _ different => lookup_insert_ne different) rfl nofun) ?_
    intro c _ key read
    nomatch read
  | recordRead txnID key ts =>
    obtain ⟨f, found, rest⟩ := bind_eq_some_iff.mp happens
    cases rest
    exact ok.recordRead found allowed.2
  | recordWrite txnID key ts =>
    obtain ⟨f, found, rest⟩ := bind_eq_some_iff.mp happens
    cases rest
    exact ok.recordWrite found
  | commit txnID commitTs now =>
    obtain ⟨f, found, rest⟩ := bind_eq_some_iff.mp happens
    split at rest
    · rename_i passes
      cases rest
      exact ok.commit found allowed passes
    · nomatch rest
  | abort txnID =>
    cases happens
    refine ⟨ok.mirrored.erase rfl fun _ different => lookup_erase_ne different, ?_, ok.after,
      ok.noneMissed⟩
    exact fun other g found => ok.seen other g (lookup_erase_eq_some found).1
  | gc now =>
    cases happens
    exact ⟨{ ok.mirrored with }, ok.seen, ok.after, ok.noneMissed⟩

end OK

/-- The committed transactions have a serial order, without write skew, in every run in which
the test for write-write conflicts covers what is read. -/
theorem serializable_of_inOrderAndTested (reachable : Runs.Reachable step InOrderAndTested {} s) :
    Serializable s.committed ∧
      ∀ a ∈ s.committed, ∀ b ∈ s.committed, ¬ WriteSkew a b := by
  have ok : s.OK := reachable.invariant OK.start fun _ _ _ ok allowed happens =>
    ok.step allowed happens
  have serializable := serializable_of_noneMissed ok.after ok.noneMissed
  exact ⟨serializable, fun a a_mem b b_mem => serializable.not_writeSkew a_mem b_mem⟩

/-- Two transactions read and write the same account.  The one that has started later may not
commit; after it has given up, the other one and a third one commit. -/
theorem serializable_refused :
    ∃ s₁ s, Runs.Reachable step InOrderAndTested {} s₁ ∧
      s₁.InOrderAndTested (.commit "txn-2" 30 3) ∧ (s₁.step (.commit "txn-2" 30 3)).isNone ∧
      Runs.Reachable step InOrderAndTested {} s ∧
      (Serializable s.committed ∧ ∀ a ∈ s.committed, ∀ b ∈ s.committed, ¬ WriteSkew a b) ∧
      s.committed.map (fun c => c.txn.id) = ["txn-1", "txn-3"] := by
  obtain ⟨s₁, reachable₁, tested, refused, s, executed, committed⟩ :=
    Runs.exists_of_exec step InOrderAndTested {}
      [.register ⟨"txn-1", 10, 1⟩, .register ⟨"txn-2", 20, 2⟩,
        .recordRead "txn-1" "account:A" 10, .recordRead "txn-2" "account:A" 20,
        .recordWrite "txn-1" "account:A" 11, .recordWrite "txn-2" "account:A" 21]
      (P := fun s₁ => s₁.InOrderAndTested (.commit "txn-2" 30 3) ∧
        (s₁.step (.commit "txn-2" 30 3)).isNone ∧
        ∃ s, Runs.exec step InOrderAndTested s₁ [.abort "txn-2", .commit "txn-1" 30 3,
          .register ⟨"txn-3", 40, 4⟩, .recordRead "txn-3" "account:A" 40,
          .recordWrite "txn-3" "account:A" 41, .commit "txn-3" 50 5] = some s ∧
          s.committed.map (fun c => c.txn.id) = ["txn-1", "txn-3"]) (by decide +kernel)
  have reachable := reachable₁.exec executed
  exact ⟨s₁, s, reachable₁, tested, refused, reachable,
    serializable_of_inOrderAndTested reachable, committed⟩

/-- The run of `demoSSI`: both transactions pass `CheckConflict`, and there is write skew. -/
theorem not_serializable_writeSkew :
    ∃ s, Runs.Reachable step InOrder {} s ∧ ¬ Serializable s.committed ∧
      ∃ a ∈ s.committed, ∃ b ∈ s.committed, WriteSkew a b := by
  obtain ⟨s, reachable, skew⟩ := Runs.exists_of_exec step InOrder {}
    [.register ⟨"txn-1", 10, 1⟩, .recordRead "txn-1" "account:A" 10,
      .recordWrite "txn-1" "account:B" 11, .register ⟨"txn-2", 20, 2⟩,
      .recordRead "txn-2" "account:B" 20, .recordWrite "txn-2" "account:A" 21,
      .commit "txn-1" 30 3, .commit "txn-2" 40 4]
    (P := fun s => ∃ a ∈ s.committed, ∃ b ∈ s.committed, WriteSkew a b) (by decide +kernel)
  refine ⟨s, reachable, fun serializable => ?_, skew⟩
  obtain ⟨a, a_mem, b, b_mem, skewed⟩ := skew
  exact serializable.not_writeSkew a_mem b_mem skewed

end SSIRun

end Hermes.Txn
