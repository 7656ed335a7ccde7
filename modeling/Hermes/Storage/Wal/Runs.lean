import Hermes.Data.Runs
import Hermes.Storage.Wal.Segments

/-!
# Runs of the write-ahead log

Processes that open the log in one directory, write to it, commit in groups, close it
and crash.  A crash keeps what has been synced, and of every file possibly more.  `Sync` of a
segment is one step here, which it is if nothing is written while it runs.
-/

namespace Hermes.Storage.Wal

open Clock (HLCTimestamp)

/-- A file of whole records that can be read back. -/
def Whole (bytes : Bytes) : Prop :=
  ∃ records : List Record, (∀ r ∈ records, r.Storable) ∧ bytes = records.flatMap Record.encode

/-- What a crash leaves of a file: all that is synced, and possibly more. -/
def File.crash (file : File) (kept : ℕ) : File :=
  let bytes := file.bytes.take (max file.synced kept)
  { bytes := bytes, synced := bytes.length }

def Dir.crash (dir : Dir) (kept : ℕ → ℕ) : Dir where
  entries := dir.entries.map fun file => ⟨file.1, file.2.crash (kept file.1)⟩
  nodupKeys := by
    have same : (dir.entries.map fun file =>
        (⟨file.1, file.2.crash (kept file.1)⟩ : Σ _ : ℕ, File)).keys = dir.entries.keys := by
      rw [List.keys, List.map_map]
      rfl
    rw [List.NodupKeys, same]
    exact dir.nodupKeys

/-- A directory and the process that has the log in it open, if there is one. -/
structure System where
  disk : Dir := ∅
  wal : Option WAL := none
  /-- The batches that a running `flushPendingSync` has taken but not yet answered. -/
  batches : List (List WALEntry) := []
  /-- History: the entries whose `Write` has returned without an error. -/
  acked : List WALEntry := []
  /-- History: a crash has cut a file inside a record. -/
  torn : Prop := False

inductive Event where
  | openWAL
  /-- `Write`, with the timestamp that the clock returns. -/
  | write (data : Bytes) (ts : HLCTimestamp)
  /-- The first half of `flushPendingSync`: take the waiting writers. -/
  | takePending
  /-- The second half: sync the active segment and answer a batch. -/
  | syncBatch (k : ℕ)
  | close
  /-- The end of the process, after which of each file some bytes are kept. -/
  | crash (kept : ℕ → ℕ)

namespace System

/-- One event, if it can happen.  Sequence numbers of more than eight bytes are out of
reach of any run. -/
def step (s : System) : Event → Option System
  | .openWAL =>
    match s.wal, WAL.openWAL s.disk with
    | none, .ok (w, disk) => some { s with wal := some w, disk := disk }
    | _, _ => none
  | .write data ts =>
    match s.wal with
    | none => none
    | some w =>
      if w.nextSeq + 1 < 2 ^ 64 then
        let ((w, disk), _) := w.write s.disk data ts
        some { s with wal := some w, disk := disk }
      else none
  | .takePending =>
    match s.wal with
    | none => none
    | some w =>
      if w.pendingSync = [] then some s
      else
        some { s with
          wal := some { w with pendingSync := [] }
          batches := s.batches ++ [w.pendingSync] }
  | .syncBatch k =>
    match s.wal, s.batches[k]? with
    | some w, some batch =>
      let (active, disk) := w.active.sync s.disk
      some { s with
        wal := some { w with active := active, syncCount := w.syncCount + 1 }
        disk := disk
        batches := s.batches.eraseIdx k
        acked := s.acked ++ batch }
    | _, _ => none
  | .close =>
    match s.wal with
    | none => none
    | some w =>
      let (w, disk) := w.close s.disk
      some { s with wal := some w, disk := disk }
  | .crash kept =>
    let disk := s.disk.crash kept
    some { s with
      disk := disk
      wal := none
      batches := []
      torn := s.torn ∨ ∃ id file, disk.lookup id = some file ∧ ¬ Whole file.bytes }

/-- What an event does that can happen. -/
inductive Moves (s : System) : Event → System → Prop where
  | openWAL {w : WAL} {disk : Dir} (idle : s.wal = none)
    (opened : WAL.openWAL s.disk = .ok (w, disk)) :
    Moves s .openWAL { s with wal := some w, disk := disk }
  | write {w : WAL} {data : Bytes} {ts : HLCTimestamp} (running : s.wal = some w)
    (room : w.nextSeq + 1 < 2 ^ 64) :
    Moves s (.write data ts) { s with
      wal := some (w.write s.disk data ts).1.1
      disk := (w.write s.disk data ts).1.2 }
  | nonePending : Moves s .takePending s
  | takePending {w : WAL} (running : s.wal = some w) :
    Moves s .takePending { s with
      wal := some { w with pendingSync := [] }
      batches := s.batches ++ [w.pendingSync] }
  | syncBatch {w : WAL} {k : ℕ} {batch : List WALEntry} (running : s.wal = some w)
    (taken : s.batches[k]? = some batch) :
    Moves s (.syncBatch k) { s with
      wal := some { w with
        active := (w.active.sync s.disk).1
        syncCount := w.syncCount + 1 }
      disk := (w.active.sync s.disk).2
      batches := s.batches.eraseIdx k
      acked := s.acked ++ batch }
  | close {w : WAL} (running : s.wal = some w) :
    Moves s .close { s with wal := some (w.close s.disk).1, disk := (w.close s.disk).2 }
  | crash (kept : ℕ → ℕ) :
    Moves s (.crash kept) { s with
      disk := s.disk.crash kept
      wal := none
      batches := []
      torn := s.torn ∨ ∃ id file, (s.disk.crash kept).lookup id = some file ∧
        ¬ Whole file.bytes }

theorem moves_of_step {s s' : System} {event : Event} (eq : s.step event = some s') :
    s.Moves event s' := by
  cases event with
  | openWAL =>
    simp only [step] at eq
    split at eq
    · rename_i idle opened
      cases eq
      exact .openWAL idle opened
    · nomatch eq
  | write data ts =>
    simp only [step] at eq
    split at eq
    · nomatch eq
    · rename_i running
      split at eq
      · rename_i room
        cases eq
        exact .write running room
      · nomatch eq
  | takePending =>
    simp only [step] at eq
    split at eq
    · nomatch eq
    · rename_i running
      split at eq
      · cases eq
        exact .nonePending
      · cases eq
        exact .takePending running
  | syncBatch k =>
    simp only [step] at eq
    split at eq
    · rename_i running taken
      cases eq
      exact .syncBatch running taken
    · nomatch eq
  | close =>
    simp only [step] at eq
    split at eq
    · nomatch eq
    · rename_i running
      cases eq
      exact .close running
  | crash kept =>
    cases eq
    exact .crash kept

/-- The states that runs reach from an empty directory. -/
def Reachable (s : System) : Prop :=
  Runs.Reachable step (fun _ _ => True) {} s

/-- `ReadFrom` of the open log. -/
def readFrom (s : System) (startSeq : ℕ) : List WALEntry :=
  match s.wal with
  | none => []
  | some w => w.readFrom s.disk startSeq

end System

end Hermes.Storage.Wal
