import Hermes.Clock.Hlc
import Hermes.Data.Runs

/-!
# Serializable snapshot isolation

The conflict detector of `pkg/txn/ssi.go`.  Maps are association lists without repeated keys
and a loop over a map takes the entries in the order of the list.  Sets of keys are lists.
-/

namespace Hermes.Txn

open Clock (HLCTimestamp)

abbrev TxnID := String

abbrev Key := String

/-- What the detector reads of a transaction; the time is in nanoseconds. -/
structure Transaction where
  id : TxnID
  readTimestamp : HLCTimestamp
  startTime : ℤ
  deriving DecidableEq, Repr

structure RWSet where
  readAt : HLCTimestamp := 0
  written : Bool := false
  writeAt : HLCTimestamp := 0
  deriving DecidableEq, Repr

/-- What a transaction has done to each key. -/
abbrev RWSets := AList fun _ : Key => RWSet

structure CommittedTxnInfo where
  commitTs : HLCTimestamp
  writeKeys : List Key
  readKeys : List Key
  expiresAt : ℤ
  deriving DecidableEq, Repr

inductive ConflictReason where
  | rwDependencyCycle
  | writeWriteConflict
  deriving DecidableEq, Repr

/-- `Reason` of the error. -/
def ConflictReason.text : ConflictReason → String
  | .rwDependencyCycle => "rw-dependency cycle detected"
  | .writeWriteConflict => "write-write conflict"

structure SerializationError where
  txnID : TxnID
  conflictTxn : TxnID
  key : Key
  reason : ConflictReason
  deriving DecidableEq, Repr

def SerializationError.error (e : SerializationError) : String :=
  "serialization conflict: txn " ++ e.txnID ++ " conflicts with " ++ e.conflictTxn ++
    " on key " ++ e.key ++ " (" ++ e.reason.text ++ ")"

structure SSIDetector where
  activeTxns : AList fun _ : TxnID => Transaction := ∅
  readWriteSets : AList fun _ : TxnID => RWSets := ∅
  committedTxns : AList fun _ : TxnID => CommittedTxnInfo := ∅

namespace SSIDetector

def registerTxn (d : SSIDetector) (txn : Transaction) : SSIDetector :=
  { d with
    activeTxns := d.activeTxns.insert txn.id txn
    readWriteSets := d.readWriteSets.insert txn.id ∅ }

/-- The read and write sets of a transaction; empty ones if it does not have any. -/
def rwSet (d : SSIDetector) (txnID : TxnID) : RWSets :=
  (d.readWriteSets.lookup txnID).getD ∅

/-- `RecordRead`.  The entry of the key is replaced. -/
def recordRead (d : SSIDetector) (txnID : TxnID) (key : Key) (ts : HLCTimestamp) : SSIDetector :=
  { d with
    readWriteSets :=
      d.readWriteSets.insert txnID ((d.rwSet txnID).insert key { readAt := ts }) }

def recordWrite (d : SSIDetector) (txnID : TxnID) (key : Key) (ts : HLCTimestamp) :
    SSIDetector :=
  let entry : RWSet :=
    match (d.rwSet txnID).lookup key with
    | some existing => { existing with written := true, writeAt := ts }
    | none => { written := true, writeAt := ts }
  { d with readWriteSets := d.readWriteSets.insert txnID ((d.rwSet txnID).insert key entry) }

/-- The test of a transaction that wrote a key against a committed one that read the key:
it also read what the committed one wrote, and it began after the commit. -/
def cycleWith (txn : Transaction) (txnRW : RWSets) (committed : CommittedTxnInfo) : Bool :=
  committed.writeKeys.any fun committedKey =>
    match txnRW.lookup committedKey with
    | some rw => !rw.written && decide (txn.readTimestamp > committed.commitTs)
    | none => false

/-- The rounds of the first loop of `CheckConflict`. -/
def checkCommitted (txn : Transaction) (txnRW : RWSets)
    (entry : (_ : TxnID) × CommittedTxnInfo) : Option SerializationError :=
  if entry.1 = txn.id then none
  else txnRW.entries.findSome? fun written =>
    if written.2.written && decide (written.1 ∈ entry.2.readKeys) &&
        cycleWith txn txnRW entry.2 then
      some { txnID := txn.id, conflictTxn := entry.1, key := written.1,
             reason := .rwDependencyCycle }
    else none

/-- Both have written the key, and the other one is active and has started earlier. -/
def writtenEarlier (d : SSIDetector) (txn : Transaction) (otherID : TxnID) (otherRW : RWSets)
    (key : Key) : Bool :=
  ((otherRW.lookup key).any fun rw => rw.written) &&
    (d.activeTxns.lookup otherID).any fun otherTxn => decide (txn.startTime > otherTxn.startTime)

/-- The rounds of the second loop of `CheckConflict`. -/
def checkActive (d : SSIDetector) (txn : Transaction) (txnRW : RWSets)
    (entry : (_ : TxnID) × RWSets) : Option SerializationError :=
  if entry.1 = txn.id then none
  else txnRW.entries.findSome? fun written =>
    if written.2.written && d.writtenEarlier txn entry.1 entry.2 written.1 then
      some { txnID := txn.id, conflictTxn := entry.1, key := written.1,
             reason := .writeWriteConflict }
    else none

/-- `CheckConflict`; `none` is the nil error. -/
def checkConflict (d : SSIDetector) (txn : Transaction) : Option SerializationError :=
  match d.readWriteSets.lookup txn.id with
  | none => none
  | some txnRW =>
    (d.committedTxns.entries.findSome? (checkCommitted txn txnRW)).or
      (d.readWriteSets.entries.findSome? (d.checkActive txn txnRW))

/-- Five minutes. -/
def retention : ℤ := 5 * 60 * 1000000000

/-- `Commit`, at the time that the clock shows. -/
def commit (d : SSIDetector) (txnID : TxnID) (commitTs : HLCTimestamp) (now : ℤ) : SSIDetector :=
  match d.readWriteSets.lookup txnID with
  | none => d
  | some rwSet =>
    let info : CommittedTxnInfo :=
      { commitTs := commitTs
        writeKeys := (rwSet.entries.filter fun entry => entry.2.written).map Sigma.fst
        readKeys := (rwSet.entries.filter fun entry => !entry.2.written).map Sigma.fst
        expiresAt := now + retention }
    { d with
      committedTxns := d.committedTxns.insert txnID info
      activeTxns := d.activeTxns.erase txnID }

def abort (d : SSIDetector) (txnID : TxnID) : SSIDetector :=
  { d with
    activeTxns := d.activeTxns.erase txnID
    readWriteSets := d.readWriteSets.erase txnID }

/-- One round of `gcLoop`. -/
def gc (d : SSIDetector) (now : ℤ) : SSIDetector :=
  { d with
    committedTxns := d.committedTxns.entries.foldl
      (fun kept entry => if now > entry.2.expiresAt then kept.erase entry.1 else kept)
      d.committedTxns }

end SSIDetector

/-! ## Runs -/

/-- What a registered transaction has really read and written. -/
structure Footprint where
  txn : Transaction
  reads : List Key := []
  writes : List Key := []
  deriving DecidableEq, Repr

/-- A committed transaction. -/
structure Committed extends Footprint where
  commitTs : HLCTimestamp
  deriving DecidableEq, Repr

/-- The detector, the transactions under way and those that have committed, in order. -/
structure SSIRun where
  detector : SSIDetector := {}
  running : AList fun _ : TxnID => Footprint := ∅
  committed : List Committed := []

inductive SSIEvent where
  | register (txn : Transaction)
  | recordRead (txnID : TxnID) (key : Key) (ts : HLCTimestamp)
  | recordWrite (txnID : TxnID) (key : Key) (ts : HLCTimestamp)
  /-- `CheckConflict` and right after it `Commit`. -/
  | commit (txnID : TxnID) (commitTs : HLCTimestamp) (now : ℤ)
  | abort (txnID : TxnID)
  | gc (now : ℤ)
  deriving DecidableEq, Repr

namespace SSIRun

/-- Transactions are registered before they read and write, and they commit only if
`CheckConflict` returns nil. -/
def step (s : SSIRun) : SSIEvent → Option SSIRun
  | .register txn =>
    some { s with
      detector := s.detector.registerTxn txn
      running := s.running.insert txn.id { txn := txn } }
  | .recordRead txnID key ts => do
    let f ← s.running.lookup txnID
    some { s with
      detector := s.detector.recordRead txnID key ts
      running := s.running.insert txnID { f with reads := key :: f.reads } }
  | .recordWrite txnID key ts => do
    let f ← s.running.lookup txnID
    some { s with
      detector := s.detector.recordWrite txnID key ts
      running := s.running.insert txnID { f with writes := key :: f.writes } }
  | .commit txnID commitTs now => do
    let f ← s.running.lookup txnID
    if s.detector.checkConflict f.txn = none then
      some {
        detector := s.detector.commit txnID commitTs now
        running := s.running.erase txnID
        committed := s.committed ++ [{ f with commitTs := commitTs }] }
    else none
  | .abort txnID =>
    some { s with
      detector := s.detector.abort txnID
      running := s.running.erase txnID }
  | .gc now => some { s with detector := s.detector.gc now }

end SSIRun

end Hermes.Txn
