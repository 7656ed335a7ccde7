import Hermes.Storage.Wal.TornTails

/-!
# Group commit, step by step

Calls of `Write` and runs of `flushPendingSync` in one process.  The lock of the log
orders the writes, but `Segment.Sync` only takes the lock of the segment, which a write
does not: a record can get into the file between the `fsync` of a `Sync` and the moment
at which that `Sync` notes that nothing is left to sync.
-/

namespace Hermes.Storage.Wal

open Clock (HLCTimestamp)

/-! ## `Sync` in steps -/

/-- Where a call of `Sync` is: before it has the lock of the segment and looks at
`syncNeeded`, before the `fsync`, and before it clears `syncNeeded` and gives the lock
back. -/
inductive SyncPoint where
  | check
  | fsync
  | clear
  deriving DecidableEq, Repr

inductive SyncOutcome where
  | goesOn (point : SyncPoint)
  | returns (ok : Bool)
  deriving DecidableEq, Repr

/-- The next step of `Sync`.  The `fsync` may fail. -/
def Segment.syncStep (s : Segment) (dir : Dir) (ok : Bool) :
    SyncPoint → (Segment × Dir) × SyncOutcome
  | .check =>
    if !s.syncNeeded || s.closed then ((s, dir), .returns true)
    else ((s, dir), .goesOn .fsync)
  | .fsync =>
    if ok then ((s, dir.sync s.id), .goesOn .clear) else ((s, dir), .returns false)
  | .clear => (({ s with syncNeeded := false }, dir), .returns true)

theorem Segment.sync_eq_syncStep (s : Segment) (dir : Dir) :
    s.sync dir =
      match s.syncStep dir true .check with
      | (x, .returns _) => x
      | (x, .goesOn point) =>
        match x.1.syncStep x.2 true point with
        | (x, .returns _) => x
        | (x, .goesOn point) => (x.1.syncStep x.2 true point).1 := by
  unfold sync syncStep
  by_cases skip : (!s.syncNeeded || s.closed) = true
  · rw [if_pos skip, if_pos skip]
  · rw [if_neg skip, if_neg skip]
    rfl

/-! ## The process -/

/-- A record that has been written.  The segment, its file and the place of the last byte
of the record in it are history. -/
structure Ticket where
  entry : WALEntry
  segment : ℕ
  file : ℕ
  stop : ℕ
  deriving DecidableEq, Repr

/-- Where the call of `Write` is that holds the lock of the log. -/
inductive Holder where
  /-- In the `Sync` of `rotateSegment`. -/
  | sealing (entry : WALEntry) (point : SyncPoint)
  /-- After that `Sync`, before the new segment is created. -/
  | sealed (entry : WALEntry)
  /-- Before the record is written to the new segment. -/
  | created (entry : WALEntry)
  /-- Before the call lines up for the sync. -/
  | written (ticket : Ticket)
  deriving DecidableEq, Repr

/-- Where a run of `flushPendingSync` is. -/
inductive Flusher where
  | fired
  /-- It has taken the waiting calls, but has not yet looked up the active segment. -/
  | taken (batch : List Ticket)
  | syncing (batch : List Ticket) (segment : ℕ) (point : SyncPoint)
  /-- `Sync` has returned, with or without an error. -/
  | synced (batch : List Ticket) (ok : Bool)
  | done
  deriving DecidableEq, Repr

structure Group where
  disk : Dir
  /-- The segments of the process in the order of their creation.  Those before the
  active one are sealed. -/
  segment : ℕ → Segment
  active : ℕ := 0
  nextSeq : ℕ
  segmentSize : ℕ := defaultSegmentSize
  pendingSync : List Ticket := []
  /-- Whether `syncTimer` is set. -/
  syncTimer : Bool := false
  /-- The timers that have not yet fired. -/
  armed : ℕ := 0
  holder : Option Holder := none
  flushers : List Flusher := []
  syncCount : ℕ := 0
  /-- History: the records whose `Write` has been told that they are on disk. -/
  acked : List Ticket := []

inductive GroupEvent where
  /-- A call of `Write` gets the lock and tries the active segment. -/
  | write (data : Bytes) (ts : HLCTimestamp)
  /-- A step of the `Sync` in `rotateSegment`. -/
  | syncSealed (ok : Bool)
  | create
  | retry
  /-- The call registers, starts the timer if there is none, and gives the lock back. -/
  | enqueue
  /-- A timer starts a run of `flushPendingSync`. -/
  | fire
  | take (j : ℕ)
  /-- A run looks up the active segment, without the lock. -/
  | load (j : ℕ)
  /-- A step of its `Sync`. -/
  | sync (j : ℕ) (ok : Bool)
  | answer (j : ℕ)
  deriving DecidableEq, Repr

namespace Group

/-- The process after `Open`. -/
def start (w : WAL) (disk : Dir) : Group where
  disk := disk
  segment := fun _ => w.active
  nextSeq := w.nextSeq
  segmentSize := w.segmentSize

/-- `writeRecord` on the active segment. -/
def writeRecord (s : Group) (entry : WALEntry) : Option Group :=
  match (s.segment s.active).writeRecord s.disk entry.record with
  | .error _ => none
  | .ok (active, disk) =>
    some { s with
      disk := disk
      segment := Function.update s.segment s.active active
      holder := some (.written
        { entry := entry, segment := s.active, file := active.id,
          stop := (disk.content active.id).length }) }

/-- Some call of `Sync` has the lock of a segment. -/
def segmentLocked (s : Group) (g : ℕ) : Bool :=
  (s.flushers.any fun
    | .syncing _ segment point => segment == g && point != .check
    | _ => false) ||
  match s.holder with
  | some (.sealing _ point) => s.active == g && point != .check
  | _ => false

/-- A step of `Sync` on a segment, if it does not have to wait for the lock. -/
def syncSegment (s : Group) (g : ℕ) (point : SyncPoint) (ok : Bool) :
    Option (Group × SyncOutcome) :=
  if point = .check ∧ s.segmentLocked g then none
  else
    let ((segment, disk), outcome) := (s.segment g).syncStep s.disk ok point
    some ({ s with disk := disk, segment := Function.update s.segment g segment }, outcome)

/-- One step of the process, if it can be taken.  The header of a new segment always
fits. -/
def step (s : Group) : GroupEvent → Option Group
  | .write data ts =>
    match s.holder with
    | some _ => none
    | none =>
      let entry : WALEntry := { sequence := s.nextSeq, timestamp := ts, data := data }
      let s := { s with nextSeq := s.nextSeq + 1 }
      match s.writeRecord entry with
      | some s => some s
      | none => some { s with holder := some (.sealing entry .check) }
  | .syncSealed ok =>
    match s.holder with
    | some (.sealing entry point) =>
      match s.syncSegment s.active point ok with
      | none => none
      | some (s, .goesOn point) => some { s with holder := some (.sealing entry point) }
      | some (s, .returns true) => some { s with holder := some (.sealed entry) }
      | some (s, .returns false) => some { s with holder := none }
    | _ => none
  | .create =>
    match s.holder with
    | some (.sealed entry) =>
      match Segment.new s.disk (s.active + 2) s.segmentSize with
      | .error _ => none
      | .ok (segment, disk) =>
        some { s with
          disk := disk
          segment := Function.update s.segment (s.active + 1) segment
          active := s.active + 1
          holder := some (.created entry) }
    | _ => none
  | .retry =>
    match s.holder with
    | some (.created entry) =>
      match s.writeRecord entry with
      | some s => some s
      | none => some { s with holder := none }
    | _ => none
  | .enqueue =>
    match s.holder with
    | some (.written ticket) =>
      some { s with
        pendingSync := s.pendingSync ++ [ticket]
        syncTimer := true
        armed := if s.syncTimer then s.armed else s.armed + 1
        holder := none }
    | _ => none
  | .fire =>
    if s.armed = 0 then none
    else some { s with armed := s.armed - 1, flushers := s.flushers ++ [.fired] }
  | .take j =>
    match s.holder, s.flushers[j]? with
    | none, some .fired =>
      some { s with
        pendingSync := []
        syncTimer := false
        flushers := s.flushers.set j
          (if s.pendingSync = [] then .done else .taken s.pendingSync) }
    | _, _ => none
  | .load j =>
    match s.flushers[j]? with
    | some (.taken batch) =>
      some { s with flushers := s.flushers.set j (.syncing batch s.active .check) }
    | _ => none
  | .sync j ok =>
    match s.flushers[j]? with
    | some (.syncing batch g point) =>
      match s.syncSegment g point ok with
      | none => none
      | some (s, .goesOn point) =>
        some { s with flushers := s.flushers.set j (.syncing batch g point) }
      | some (s, .returns ok) =>
        some { s with flushers := s.flushers.set j (.synced batch ok) }
    | _ => none
  | .answer j =>
    match s.holder, s.flushers[j]? with
    | none, some (.synced batch ok) =>
      some { s with
        syncCount := s.syncCount + 1
        flushers := s.flushers.set j .done
        acked := if ok then s.acked ++ batch else s.acked }
    | _, _ => none

end Group

end Hermes.Storage.Wal
