import Hermes.Data.Bytes

/-!
# The replicated log of one node

The Go type `RaftLog` keeps a sentinel in front of its entries, so that the
entry with index `snapshotIndex + j` stands at offset `j`.  Indices and terms
are natural numbers here and wrap around at `2 ^ 64` in Go.  A cluster counts them
up from zero, but a message or a snapshot may name any; where that matters, the
statements say so.
A Go panic is an error of the `Except` monad, an ordinary Go error a text.
-/

namespace Hermes.Raft

/-- Node identifiers; the empty string stands for "none". -/
abbrev NodeID := String

/-- The panics that the modelled code can raise. -/
inductive Panic where
  /-- "raft: leader cannot become candidate" -/
  | leaderCannotBecomeCandidate
  /-- "raft: only candidate can become leader" -/
  | onlyCandidateCanBecomeLeader
  /-- "raft: log append index mismatch: got %d want %d" -/
  | logAppendIndexMismatch (got want : Nat)
  /-- "raft: applied(%d) > committed(%d)" -/
  | appliedBeyondCommitted (applied committed : Nat)
  /-- A slice expression or an index outside the bounds of a slice. -/
  | outOfRange
  /-- `rand.Intn` with an argument that is not positive. -/
  | invalidIntn
  deriving DecidableEq, Repr

/-- What kind of command an entry carries. -/
inductive EntryType where
  | normal
  | config
  | barrier
  | noop
  deriving DecidableEq, Repr

/-- One entry of the replicated log. -/
structure LogEntry where
  index : Nat := 0
  term : Nat := 0
  type : EntryType := .normal
  data : Bytes := []
  deriving DecidableEq, Repr

/-- The log of one node: a sentinel followed by the entries after the snapshot. -/
structure RaftLog where
  entries : List LogEntry
  snapshotIndex : Nat := 0
  snapshotTerm : Nat := 0
  committed : Nat := 0
  applied : Nat := 0
  deriving DecidableEq, Repr

/-- The counters that `Stats` reports. -/
structure LogStats where
  firstIndex : Nat
  lastIndex : Nat
  commitIndex : Nat
  appliedIndex : Nat
  snapshotIndex : Nat
  entryCount : Nat
  deriving DecidableEq, Repr

namespace RaftLog

/-- A fresh log holds the sentinel only. -/
def new : RaftLog where
  entries := [{ index := 0, term := 0 }]

def lastIndex (l : RaftLog) : Nat :=
  l.snapshotIndex + l.entries.length - 1

/-- The term of the entry at `index`, zero when the log does not hold one. -/
def termOf (l : RaftLog) (index : Nat) : Nat :=
  if index < l.snapshotIndex then 0
  else if index = l.snapshotIndex then l.snapshotTerm
  else
    match l.entries[index - l.snapshotIndex]? with
    | some entry => entry.term
    | none => 0

def lastTerm (l : RaftLog) : Nat :=
  l.termOf l.lastIndex

/-- `Append` skips the entries the log already holds with the same term, cuts
the log at the first conflict, and appends what is left. -/
def append (l : RaftLog) : List LogEntry → Except Panic RaftLog
  | [] => .ok l
  | entry :: rest =>
    if entry.index ≤ l.lastIndex then
      if l.termOf entry.index = entry.term then l.append rest
      else if entry.index < l.snapshotIndex then .error .outOfRange
      else
        .ok { l with
          entries := l.entries.take (entry.index - l.snapshotIndex) ++ entry :: rest }
    else .ok { l with entries := l.entries ++ entry :: rest }

def appendOne (l : RaftLog) (entry : LogEntry) : Except Panic RaftLog :=
  let expected := l.lastIndex + 1
  if entry.index ≠ expected then
    .error (.logAppendIndexMismatch entry.index expected)
  else .ok { l with entries := l.entries ++ [entry] }

/-- The entries with indices in `[lo, hi)`, after clipping both bounds. -/
def slice (l : RaftLog) (lo hi : Nat) : Except Panic (List LogEntry) :=
  if lo ≥ hi then .ok []
  else
    let lo := if lo < l.snapshotIndex + 1 then l.snapshotIndex + 1 else lo
    let hi := if hi > l.lastIndex + 1 then l.lastIndex + 1 else hi
    if lo - l.snapshotIndex ≥ l.entries.length then .ok []
    -- an upper offset below the lower one is out of range for Go's slicing
    else if hi < lo then .error .outOfRange
    else .ok ((l.entries.take (hi - l.snapshotIndex)).drop (lo - l.snapshotIndex))

/-- `CommitTo` never moves past the last entry and returns what it committed. -/
def commitTo (l : RaftLog) (newCommitted : Nat) :
    Except Panic (RaftLog × List LogEntry) :=
  if newCommitted ≤ l.committed then .ok (l, [])
  else do
    let newCommitted :=
      if newCommitted > l.lastIndex then l.lastIndex else newCommitted
    let l' := { l with committed := newCommitted }
    let entries ← l'.slice (l.committed + 1) (newCommitted + 1)
    return (l', entries)

def appliedTo (l : RaftLog) (applied : Nat) : Except Panic RaftLog :=
  if applied > l.committed then .error (.appliedBeyondCommitted applied l.committed)
  else .ok { l with applied := applied }

/-- Whether a candidate whose log ends in `lastIndex`, `lastTerm` is at least as
up to date as this log. -/
def isUpToDate (l : RaftLog) (lastIndex lastTerm : Nat) : Bool :=
  if lastTerm ≠ l.lastTerm then decide (lastTerm > l.lastTerm)
  else decide (lastIndex ≥ l.lastIndex)

/-- The number `MaybeCommit` compares with its majority: one, and one more for
every match index that reaches `n`. -/
def commitCount (matchIndexes : List Nat) (n : Nat) : Nat :=
  1 + matchIndexes.countP fun mi => decide (mi ≥ n)

/-- The loop of `MaybeCommit`, run downwards from `n`. -/
def maybeCommitFrom (l : RaftLog) (matchIndexes : List Nat) (currentTerm : Nat) :
    Nat → RaftLog × Bool
  | 0 => (l, false)
  | n + 1 =>
    if n + 1 > l.committed then
      if commitCount matchIndexes (n + 1) ≥ (matchIndexes.length + 1) / 2 + 1 ∧
          l.termOf (n + 1) = currentTerm then
        ({ l with committed := n + 1 }, true)
      else l.maybeCommitFrom matchIndexes currentTerm n
    else (l, false)

/-- `MaybeCommit` takes a second term argument, which it does not read. -/
def maybeCommit (l : RaftLog) (matchIndexes : List Nat) (_term currentTerm : Nat) :
    RaftLog × Bool :=
  l.maybeCommitFrom matchIndexes currentTerm l.lastIndex

/-- Drop the entries up to a snapshot, or all of them when the snapshot is ahead. -/
def compact (l : RaftLog) (snapshotIndex snapshotTerm : Nat) : RaftLog :=
  if snapshotIndex ≤ l.snapshotIndex then l
  else
    let offset := snapshotIndex - l.snapshotIndex
    let sentinel : LogEntry := { index := snapshotIndex, term := snapshotTerm }
    { entries :=
        if offset < l.entries.length then sentinel :: l.entries.drop (offset + 1)
        else [sentinel]
      snapshotIndex := snapshotIndex
      snapshotTerm := snapshotTerm
      committed := if l.committed < snapshotIndex then snapshotIndex else l.committed
      applied := if l.applied < snapshotIndex then snapshotIndex else l.applied }

def stats (l : RaftLog) : LogStats where
  firstIndex := l.snapshotIndex + 1
  lastIndex := l.lastIndex
  commitIndex := l.committed
  appliedIndex := l.applied
  snapshotIndex := l.snapshotIndex
  entryCount := l.entries.length - 1

end RaftLog

end Hermes.Raft
