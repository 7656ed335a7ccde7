import Hermes.Clock.Hlc
import Hermes.Storage.Wal.Record

/-!
# Segments and the write-ahead log

The log appends records to an active segment and starts a new one when a record
does not fit.  A directory maps segment numbers to files; of every file the number of
bytes that have reached the disk is known.  Calls of the file system succeed.
-/

namespace Hermes.Storage.Wal

open Clock (HLCTimestamp)

/-- A segment file, and how many of its bytes are known to be on disk. -/
structure File where
  bytes : Bytes := []
  synced : ℕ := 0
  deriving DecidableEq, Repr

/-- The segment files of a directory.  The file of segment `id` is named by the
twenty digits of `id`, so that the order of the names is the order of the numbers. -/
abbrev Dir := AList fun _ : ℕ => File

namespace Dir

/-- The content of a segment file; a file that does not exist is empty. -/
def content (dir : Dir) (id : ℕ) : Bytes :=
  ((dir.lookup id).map File.bytes).getD []

/-- Open a file for appending, creating it if necessary, and write to it. -/
def append (dir : Dir) (id : ℕ) (bytes : Bytes) : Dir :=
  let file := (dir.lookup id).getD {}
  dir.insert id { file with bytes := file.bytes ++ bytes }

/-- `fsync` of a file. -/
def sync (dir : Dir) (id : ℕ) : Dir :=
  match dir.lookup id with
  | none => dir
  | some file => dir.insert id { file with synced := file.bytes.length }

end Dir

def defaultSegmentSize : ℕ := 64 * 1024 * 1024

inductive WalError where
  | segmentFull
  | walClosed
  | recovery (cause : DecodeError)
  deriving DecidableEq, Repr

structure Segment where
  id : ℕ
  size : ℕ := 0
  maxSize : ℕ := 0
  firstSeq : ℕ := 0
  lastSeq : ℕ := 0
  closed : Bool := false
  syncNeeded : Bool := false
  deriving DecidableEq, Repr

namespace Segment

def writeRecord (s : Segment) (dir : Dir) (record : Record) : Except WalError (Segment × Dir) :=
  let encoded := record.encode
  if s.size + encoded.length > s.maxSize then .error .segmentFull
  else
    .ok
      ({ s with
          size := s.size + encoded.length
          lastSeq := record.sequence
          syncNeeded := true
          firstSeq :=
            if s.firstSeq = 0 ∧ record.type = .data then record.sequence else s.firstSeq },
        dir.append s.id encoded)

/-- The bytes of a text of ASCII characters. -/
def asciiBytes (text : String) : Bytes :=
  text.toList.map fun c => UInt8.ofNat c.toNat

/-- The record that `newSegment` writes first. -/
def header (id : ℕ) : Record where
  type := .segmentHeader
  sequence := id
  data := asciiBytes ("segment_id=" ++ toString id)

/-- `newSegment`.  A file that already exists is appended to, although the size of
the new segment starts at zero. -/
def new (dir : Dir) (id maxSize : ℕ) : Except WalError (Segment × Dir) :=
  writeRecord { id := id, maxSize := maxSize } dir (header id)

/-- `Sync`. -/
def sync (s : Segment) (dir : Dir) : Segment × Dir :=
  if !s.syncNeeded || s.closed then (s, dir)
  else ({ s with syncNeeded := false }, dir.sync s.id)

/-- `Close` syncs what is left to sync. -/
def close (s : Segment) (dir : Dir) : Segment × Dir :=
  if s.closed then (s, dir)
  else ({ s with closed := true }, if s.syncNeeded then dir.sync s.id else dir)

end Segment

/-- What a caller gets for a write: the entry with its sequence number and the
timestamp that the clock gave it. -/
structure WALEntry where
  sequence : ℕ
  timestamp : HLCTimestamp
  data : Bytes
  type : RecordType := .data
  deriving DecidableEq, Repr

/-- `encodeEntryData` puts the timestamp in front of the data. -/
def encodeEntryData (ts : HLCTimestamp) (data : Bytes) : Bytes :=
  Clock.toBytes ts ++ data

def decodeEntryData (encoded : Bytes) : HLCTimestamp × Bytes :=
  if encoded.length < 8 then (0, encoded)
  else (Clock.fromBytes (encoded.take 8), encoded.drop 8)

structure WAL where
  active : Segment
  sealed : List Segment := []
  nextSeq : ℕ := 1
  segmentSize : ℕ := defaultSegmentSize
  /-- The entries whose writers wait for a sync. -/
  pendingSync : List WALEntry := []
  closed : Bool := false
  bytesWritten : ℕ := 0
  recordsWritten : ℕ := 0
  syncCount : ℕ := 0
  deriving DecidableEq, Repr

namespace WAL

/-- The highest sequence number of a data record, or `maxSeq` if that is higher. -/
def maxDataSeq (maxSeq : ℕ) (records : List Record) : ℕ :=
  records.foldl
    (fun maxSeq record =>
      if record.type = .data ∧ record.sequence > maxSeq then record.sequence else maxSeq) maxSeq

/-- `recover` scans all the files for the highest sequence number, and returns the
next one. -/
def recover (dir : Dir) : Except WalError ℕ := do
  let maxSeq ← dir.entries.foldlM
    (fun maxSeq file =>
      match readAll file.2.bytes with
      | .error cause => .error (.recovery cause)
      | .ok records => .ok (maxDataSeq maxSeq records)) 0
  return maxSeq + 1

/-- `Open`. -/
def openWAL (dir : Dir) : Except WalError (WAL × Dir) := do
  let nextSeq ← recover dir
  let (active, dir) ← Segment.new dir nextSeq defaultSegmentSize
  return ({ active := active, nextSeq := nextSeq }, dir)

/-- `rotateSegment`. -/
def rotateSegment (w : WAL) (dir : Dir) : (WAL × Dir) × Option WalError :=
  let (active, dir) := w.active.sync dir
  let sealed := w.sealed ++ [active]
  let w := { w with active := active, sealed := sealed }
  match Segment.new dir (sealed.length + 1) w.segmentSize with
  | .error err => ((w, dir), some err)
  | .ok (segment, dir) => (({ w with active := segment }, dir), none)

/-- `writeToActive`.  The statistics only count records that fit at once. -/
def writeToActive (w : WAL) (dir : Dir) (record : Record) : (WAL × Dir) × Option WalError :=
  match w.active.writeRecord dir record with
  | .ok (active, dir) =>
    (({ w with
        active := active
        bytesWritten := w.bytesWritten + headerSize + record.data.length
        recordsWritten := w.recordsWritten + 1 }, dir), none)
  | .error .segmentFull =>
    match w.rotateSegment dir with
    | ((w, dir), some err) => ((w, dir), some err)
    | ((w, dir), none) =>
      match w.active.writeRecord dir record with
      | .ok (active, dir) => (({ w with active := active }, dir), none)
      | .error err => ((w, dir), some err)
  | .error err => ((w, dir), some err)

/-- The part of `Write` that holds the lock.  The sequence number is used up even if
the record cannot be written. -/
def write (w : WAL) (dir : Dir) (data : Bytes) (ts : HLCTimestamp) :
    (WAL × Dir) × Except WalError WALEntry :=
  if w.closed then ((w, dir), .error .walClosed)
  else
    let entry : WALEntry := { sequence := w.nextSeq, timestamp := ts, data := data }
    let record : Record :=
      { type := .data, sequence := w.nextSeq, data := encodeEntryData ts data }
    match writeToActive { w with nextSeq := w.nextSeq + 1 } dir record with
    | ((w, dir), some err) => ((w, dir), .error err)
    | ((w, dir), none) =>
      (({ w with pendingSync := w.pendingSync ++ [entry] }, dir), .ok entry)

/-- `Close`: the pending writers get an error. -/
def close (w : WAL) (dir : Dir) : WAL × Dir :=
  if w.closed then (w, dir)
  else
    let (sealed, dir) := w.sealed.foldl
      (fun (done, dir) segment =>
        let (segment, dir) := segment.close dir
        (done ++ [segment], dir)) (([] : List Segment), dir)
    let (active, dir) := w.active.close dir
    ({ w with closed := true, pendingSync := [], sealed := sealed, active := active }, dir)

/-- The data entries from `startSeq` on that a file holds; an error of `ReadAll` is
ignored. -/
def entriesFrom (startSeq : ℕ) (bytes : Bytes) : List WALEntry :=
  match readAll bytes with
  | .error _ => []
  | .ok records =>
    (records.filter fun record =>
      decide (record.type = .data) && decide (startSeq ≤ record.sequence)).map fun record =>
        { sequence := record.sequence
          timestamp := (decodeEntryData record.data).1
          data := (decodeEntryData record.data).2
          type := record.type }

/-- `ReadFrom` reads the sealed segments and the active one. -/
def readFrom (w : WAL) (dir : Dir) (startSeq : ℕ) : List WALEntry :=
  (w.sealed ++ [w.active]).flatMap fun segment => entriesFrom startSeq (dir.content segment.id)

end WAL

end Hermes.Storage.Wal
