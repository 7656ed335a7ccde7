import Hermes.Storage.Wal.TornTails

/-!
# Checkpoints

`Checkpoint` writes a record, which may make the log rotate, and then removes the sealed
segments whose last record has a sequence number up to that of the checkpoint.  Records of
every kind set `lastSeq`, and the number of a new segment is counted from the sealed ones,
so after a removal it may be the number of a segment that is still there.
-/

namespace Hermes.Storage.Wal

open List Segment
open Clock (HLCTimestamp)

/-- The record that `Checkpoint` writes. -/
def checkpointRecord (seq : ℕ) : Record where
  type := .checkpoint
  sequence := seq
  data := Segment.asciiBytes ("checkpoint_seq=" ++ toString seq)

inductive CheckpointError where
  | wal (err : WalError)
  /-- The file of the active segment has been closed. -/
  | fileClosed
  deriving DecidableEq, Repr

namespace WAL

/-- The loop of `Checkpoint` over the sealed segments: close and remove those up to `seq`,
and return the others. -/
def removeSealed (seq : ℕ) : List Segment → Dir → List Segment × Dir
  | [], dir => ([], dir)
  | segment :: rest, dir =>
    if segment.lastSeq ≤ seq then removeSealed seq rest ((segment.close dir).2.erase segment.id)
    else
      let (remaining, dir) := removeSealed seq rest dir
      (segment :: remaining, dir)

/-- `Checkpoint`.  It does not ask whether the log is closed, but a closed file cannot be
written to. -/
def checkpoint (w : WAL) (dir : Dir) (seq : ℕ) : (WAL × Dir) × Option CheckpointError :=
  if w.active.closed ∧ ¬ w.Rotates (checkpointRecord seq) then ((w, dir), some .fileClosed)
  else
    match w.writeToActive dir (checkpointRecord seq) with
    | ((w, dir), some err) => ((w, dir), some (.wal err))
    | ((w, dir), none) =>
      let (active, dir) := w.active.sync dir
      let (sealed, dir) := removeSealed seq w.sealed dir
      (({ w with active := active, sealed := sealed }, dir), none)

/-- The log and the directory when the active segment has been synced and the sealed segments up
to `seq` have been removed. -/
def purge (w : WAL) (dir : Dir) (seq : ℕ) : WAL × Dir :=
  let removed := removeSealed seq w.sealed (w.active.sync dir).2
  ({ w with active := (w.active.sync dir).1, sealed := removed.1 }, removed.2)

/-- The sealed segments once the checkpoint record has been written. -/
def sealedBy (w : WAL) (seq : ℕ) : List Segment :=
  if w.Rotates (checkpointRecord seq) then w.sealed ++ [w.active] else w.sealed

/-- The number of the segment that the checkpoint record goes to. -/
def activeBy (w : WAL) (seq : ℕ) : ℕ :=
  if w.Rotates (checkpointRecord seq) then w.nextId else w.active.id

/-- The numbers of the segments that a checkpoint removes. -/
def removedBy (w : WAL) (seq : ℕ) : List ℕ :=
  ((w.sealedBy seq).filter fun segment => segment.lastSeq ≤ seq).map Segment.id

end WAL

/-! ## What a checkpoint does -/

theorem length_checkpointRecord (seq : ℕ) :
    (checkpointRecord seq).encode.length = 32 + (Nat.toDigits 10 seq).length := by
  have text : ("checkpoint_seq=" ++ toString seq).toList.length =
      15 + (Nat.toDigits 10 seq).length := by
    rw [String.toList_append, length_append]
    congr 1
    exact congrArg length Nat.toList_repr
  rw [Record.length_encode, checkpointRecord, Segment.asciiBytes, length_map, headerSize]
  omega

/-- The record of a checkpoint fits into a new segment. -/
theorem checkpointRecord_fits {id seq : ℕ} (smallId : id < 2 ^ 64) (small : seq < 2 ^ 64) :
    (Segment.started id defaultSegmentSize).size + (checkpointRecord seq).encode.length ≤
      defaultSegmentSize := by
  have size : (Segment.started id defaultSegmentSize).size = (Segment.header id).encode.length :=
    Nat.zero_add _
  have digits := length_toDigits_le small
  have digits' := length_toDigits_le smallId
  rw [size, length_header, length_checkpointRecord, defaultSegmentSize]
  omega

theorem placed_checkpointRecord {seq : ℕ} (small : seq < 2 ^ 64) :
    Placed 0 (checkpointRecord seq) where
  storable := by
    refine .of_fits (show RecordType.ofByte 2 = .checkpoint by decide) small ?_
    exact Nat.le_of_add_left_le (checkpointRecord_fits (show 0 < 2 ^ 64 by decide) small)
  data isData := nomatch isData

/-- Syncing and closing a segment touch its own file only. -/
theorem Segment.lookup_sync_of_ne {s : Segment} {q : ℕ} (dir : Dir) (other : q ≠ s.id) :
    (s.sync dir).2.lookup q = dir.lookup q := by
  unfold sync
  split
  · rfl
  · simp only [Dir.lookup_sync, if_neg other, Option.map_id']

theorem Segment.lookup_close_of_ne {s : Segment} {q : ℕ} (dir : Dir) (other : q ≠ s.id) :
    (s.close dir).2.lookup q = dir.lookup q := by
  unfold close
  split
  · rfl
  · split
    · simp only [Dir.lookup_sync, if_neg other, Option.map_id']
    · rfl

theorem Dir.content_prefix_append (dir : Dir) (id : ℕ) (bytes : Bytes) (q : ℕ) :
    dir.content q <+: (dir.append id bytes).content q := by
  by_cases same : q = id
  · rw [same, content_append]
    exact prefix_append _ _
  · exact ⟨[], by rw [content_append_of_ne bytes same, append_nil]⟩

variable {data : Bytes} {ts : HLCTimestamp}

namespace WAL

variable {w w' : WAL} {dir dir' : Dir} {seq q : ℕ} {r : Record} {err : Option WalError}

/-- The segments that remain. -/
theorem removeSealed_fst (seq : ℕ) (sealed : List Segment) (dir : Dir) :
    (removeSealed seq sealed dir).1 = sealed.filter fun segment => seq < segment.lastSeq := by
  induction sealed generalizing dir with
  | nil => rfl
  | cons segment rest ih =>
    rw [removeSealed]
    split
    · rename_i old
      rw [ih, filter_cons_of_neg (by simpa using old)]
    · rename_i recent
      rw [filter_cons_of_pos (by simpa using recent), ← ih dir]

/-- The files that remain. -/
theorem lookup_removeSealed (seq : ℕ) (sealed : List Segment) (dir : Dir) (q : ℕ) :
    (removeSealed seq sealed dir).2.lookup q =
      if q ∈ (sealed.filter fun segment => segment.lastSeq ≤ seq).map Segment.id then none
      else dir.lookup q := by
  induction sealed generalizing dir with
  | nil => rfl
  | cons segment rest ih =>
    rw [removeSealed]
    split
    · rename_i old
      rw [ih, filter_cons_of_pos (by simpa using old), map_cons]
      by_cases same : q = segment.id
      · rw [same, AList.lookup_erase, if_pos mem_cons_self, ite_self]
      · rw [AList.lookup_erase_ne same, lookup_close_of_ne dir same]
        simp only [mem_cons, same, false_or]
    · rename_i recent
      rw [filter_cons_of_neg (by simpa using recent)]
      exact ih dir

variable {sealed : List Segment}

theorem lookup_of_removeSealed {file : File}
    (known : (removeSealed seq sealed dir).2.lookup q = some file) : dir.lookup q = some file := by
  rw [lookup_removeSealed] at known
  split at known
  · nomatch known
  · exact known

theorem content_removeSealed
    (kept : q ∉ (sealed.filter fun segment => segment.lastSeq ≤ seq).map Segment.id) :
    (removeSealed seq sealed dir).2.content q = dir.content q := by
  unfold Dir.content
  rw [lookup_removeSealed, if_neg kept]

/-- A checkpoint fails on a closed file.  Otherwise it writes its record, syncs it and removes
the segments that it is to remove. -/
theorem checkpoint_cases (dir : Dir) (segmentSize : w.segmentSize = defaultSegmentSize)
    (smallId : w.nextId < 2 ^ 64) (small : seq < 2 ^ 64) :
    w.active.closed = true ∧ w.checkpoint dir seq = ((w, dir), some .fileClosed) ∨
      (w.Rotates (checkpointRecord seq) ∨ w.active.closed = false) ∧
      ∃ w₁ dir₁, w.Puts dir (checkpointRecord seq) w₁ dir₁ none ∧
        w.checkpoint dir seq = (w₁.purge dir₁ seq, none) := by
  unfold checkpoint
  split
  · rename_i closed
    exact .inl ⟨closed.1, rfl⟩
  · rename_i usable
    rw [not_and_or, not_not, Bool.not_eq_true] at usable
    refine .inr ⟨usable.symm, ?_⟩
    rcases eq : w.writeToActive dir (checkpointRecord seq) with ⟨⟨w₁, dir₁⟩, err⟩
    cases puts_of_writeToActive segmentSize smallId eq with
    | active fits => exact ⟨_, _, .active fits, rfl⟩
    | rotated full fits => exact ⟨_, _, .rotated full fits, rfl⟩
    | refused _ full' =>
      exact absurd (checkpointRecord_fits smallId small) (not_le.mpr full')

/-- Files only grow. -/
theorem Puts.content_prefix (puts : w.Puts dir r w' dir' err) (q : ℕ) :
    dir.content q <+: dir'.content q := by
  have rotated : dir.content q <+: (w.rotatedDir dir).content q := by
    have synced := (w.active.later_sync dir).content q
    rw [← synced]
    exact Dir.content_prefix_append _ _ _ q
  cases puts with
  | active => exact Dir.content_prefix_append _ _ _ q
  | rotated => exact rotated.trans (Dir.content_prefix_append _ _ _ q)
  | refused => exact rotated

/-- The log after a write that fits into the active segment. -/
def afterWrite (w : WAL) (data : Bytes) (ts : HLCTimestamp) : WAL :=
  { w with
    nextSeq := w.nextSeq + 1
    active := w.active.wrote (w.nextRecord data ts)
    bytesWritten := w.bytesWritten + headerSize + (w.nextRecord data ts).data.length
    recordsWritten := w.recordsWritten + 1
    pendingSync := w.pendingSync ++ [w.nextEntry data ts] }

theorem write_of_fits (dir : Dir) (opened : w.closed = false)
    (fits : ¬ w.Rotates (w.nextRecord data ts)) :
    w.write dir data ts =
      ((w.afterWrite data ts, dir.append w.active.id (w.nextRecord data ts).encode),
        .ok (w.nextEntry data ts)) := by
  rw [write_eq dir opened]
  unfold writeToActive
  simp only [writeRecord_of_le dir (not_lt.mp fits)]
  rfl

theorem Puts.checkpoint (puts : w.Puts dir (checkpointRecord seq) w' dir' none) :
    w'.active.id = w.activeBy seq ∧
      (w'.sealed.filter fun segment => segment.lastSeq ≤ seq).map Segment.id =
        w.removedBy seq := by
  unfold activeBy removedBy sealedBy
  cases puts with
  | active fits =>
    rw [if_neg fits, if_neg fits]
    exact ⟨rfl, rfl⟩
  | rotated full =>
    rw [if_pos full, if_pos full]
    refine ⟨rfl, ?_⟩
    simp only [filter_append, map_append, filter_singleton,
      sync_fst]
    cases decide (w.active.lastSeq ≤ seq) with
    | false | true => rfl

end WAL

/-! ## Runs -/

/-- A directory, the process that has the log in it open, and what has happened. -/
structure Journal where
  system : System := {}
  /-- The file of the active segment has been removed; what is written to it is gone. -/
  unlinked : Bool := false
  /-- History: the data records that were written, and the segments they went to. -/
  written : List (ℕ × Record) := []
  /-- History: the highest number of a checkpoint. -/
  checkpointed : ℕ := 0

inductive JournalEvent where
  | system (event : Event)
  | checkpoint (seq : ℕ)

namespace Journal

/-- The event leaves the file of the active segment open. -/
def keepsActive (s : Journal) : Event → Bool
  | .openWAL | .crash _ => false
  | .write data ts => s.system.wal.any fun w => w.closed || !w.Rotates (w.nextRecord data ts)
  | .takePending | .syncBatch _ | .close => true

/-- The data record that the event writes, and the segment that it goes to. -/
def writes (s : Journal) : Event → List (ℕ × Record)
  | .write data ts =>
    match s.system.wal with
    | none => []
    | some w =>
      match w.write s.system.disk data ts with
      | ((w', _), .ok entry) => [(w'.active.id, entry.record)]
      | (_, .error _) => []
  | _ => []

/-- The directory without the file that the open log writes to. -/
def withoutActive (system : System) : System :=
  match system.wal with
  | none => system
  | some w => { system with disk := system.disk.erase w.active.id }

/-- What is written to a removed file cannot be found. -/
def hide (unlinked : Bool) (system : System) : System :=
  if unlinked then withoutActive system else system

/-- One event, if it can happen.  Numbers of more than eight bytes are out of reach. -/
def step (s : Journal) : JournalEvent → Option Journal
  | .system event =>
    if ∀ w ∈ s.system.wal, w.nextId < 2 ^ 64 then
      (s.system.step event).map fun system =>
        let unlinked := s.unlinked && s.keepsActive event
        { s with
          system := hide unlinked system
          unlinked := unlinked
          written := s.written ++ s.writes event }
    else none
  | .checkpoint seq =>
    match s.system.wal with
    | none => none
    | some w =>
      if w.nextId < 2 ^ 64 ∧ seq < 2 ^ 64 then
        let ((w', disk), err) := w.checkpoint s.system.disk seq
        let unlinked :=
          s.unlinked && !w.Rotates (checkpointRecord seq) ||
            err.isNone && (w.removedBy seq).contains (w.activeBy seq)
        some { s with
          system := hide unlinked { s.system with wal := some w', disk := disk }
          unlinked := unlinked
          checkpointed := max s.checkpointed seq }
      else none

variable {s s' : Journal} {w : WAL} {event : Event} {seq : ℕ}

/-- An event of the system while the file of the active segment is there. -/
theorem step_system_iff (linked : s.unlinked = false) :
    s.step (.system event) = some s' ↔
      (∀ w ∈ s.system.wal, w.nextId < 2 ^ 64) ∧
        ∃ system, s.system.step event = some system ∧
          s' = { s with system := system, written := s.written ++ s.writes event } := by
  have same : ∀ system, ({ s with
      system := hide (s.unlinked && s.keepsActive event) system
      unlinked := s.unlinked && s.keepsActive event
      written := s.written ++ s.writes event } : Journal) =
        { s with system := system, written := s.written ++ s.writes event } := by
    intro system
    rw [linked]
    rfl
  unfold step
  dsimp only
  split
  · rename_i small
    simp only [same, Option.map_eq_some_iff, iff_true_intro small, true_and, eq_comm (a := s')]
  · rename_i large
    constructor
    · exact nofun
    · exact fun ⟨small, _⟩ => absurd small large

/-- A checkpoint that leaves the file of the active segment. -/
theorem step_checkpoint (linked : s.unlinked = false)
    (leaves : ∀ w ∈ s.system.wal, w.activeBy seq ∉ w.removedBy seq)
    (eq : s.step (.checkpoint seq) = some s') :
    ∃ w, s.system.wal = some w ∧ w.nextId < 2 ^ 64 ∧ seq < 2 ^ 64 ∧
      s' = { s with
        system := { s.system with
          wal := some (w.checkpoint s.system.disk seq).1.1
          disk := (w.checkpoint s.system.disk seq).1.2 }
        checkpointed := max s.checkpointed seq } := by
  unfold step at eq
  dsimp only at eq
  split at eq
  · nomatch eq
  · rename_i w running
    split at eq
    · rename_i small
      cases eq
      refine ⟨w, running, small.1, small.2, ?_⟩
      have kept := leaves w running
      simp only [linked, Bool.false_and, Bool.false_or, contains_eq_mem, kept, decide_false,
        Bool.and_false, hide, Bool.false_eq_true, if_false]
    · nomatch eq

/-- The calls of one process. -/
def anyCall (_ : Journal) : JournalEvent → Prop
  | .system .openWAL | .system .close | .system (.crash _) => False
  | _ => True

/-! ## A log with one segment -/

/-- A log with a single segment, which is the only file. -/
structure Lone (s : Journal) (w : WAL) : Prop where
  running : s.system.wal = some w
  linked : s.unlinked = false
  opened : w.closed = false
  segmentSize : w.segmentSize = defaultSegmentSize
  sealed : w.sealed = []
  id : w.active.id = 1
  maxSize : w.active.maxSize = defaultSegmentSize
  activeOpened : w.active.closed = false
  only : ∀ q, q ≠ 1 → s.system.disk.lookup q = none

theorem Lone.nextId (lone : s.Lone w) : w.nextId = 2 := by
  rw [WAL.nextId, lone.sealed]
  rfl

/-- The log that is opened in an empty directory. -/
theorem lone_opened : ∃ w dir, WAL.openWAL ∅ = .ok (w, dir) ∧
    Lone { system := { disk := dir, wal := some w } } w ∧ w.active.size = 29 ∧ w.nextSeq = 1 := by
  have created := new_eq ∅ (show 1 < 2 ^ 64 by decide)
  refine ⟨{ active := .started 1 defaultSegmentSize }, Dir.append ∅ 1 (Segment.header 1).encode,
    bind_eq_ok.mpr ⟨1, rfl, bind_eq_ok.mpr ⟨_, created, rfl⟩⟩, ?_, ?_, rfl⟩
  · refine ⟨rfl, rfl, rfl, rfl, rfl, rfl, rfl, rfl, fun q other => ?_⟩
    exact Dir.lookup_append_of_ne _ other
  · exact (Nat.zero_add _).trans (length_header 1)

theorem length_nextRecord (w : WAL) (data : Bytes) (ts : HLCTimestamp) :
    (w.nextRecord data ts).encode.length = 25 + data.length := by
  rw [Record.length_encode, WAL.nextRecord, encodeEntryData, length_append, headerSize,
    Clock.toBytes, length_beBytes]
  omega

theorem size_afterWrite (w : WAL) (data : Bytes) (ts : HLCTimestamp) :
    (w.afterWrite data ts).active.size = w.active.size + (25 + data.length) :=
  congrArg (w.active.size + ·) (length_nextRecord w data ts)

section

variable (lone : s.Lone w)

include lone

theorem Lone.rotates_nextRecord :
    w.Rotates (w.nextRecord data ts) ↔ defaultSegmentSize < w.active.size + (25 + data.length) := by
  rw [WAL.Rotates, length_nextRecord, lone.maxSize]

theorem Lone.rotates_checkpointRecord :
    w.Rotates (checkpointRecord seq) ↔
      defaultSegmentSize < w.active.size + (32 + (Nat.toDigits 10 seq).length) := by
  rw [WAL.Rotates, length_checkpointRecord, lone.maxSize]

theorem Lone.nextId_lt : ∀ w' ∈ s.system.wal, w'.nextId < 2 ^ 64 := by
  intro w' running
  cases running.symm.trans lone.running
  rw [lone.nextId]
  decide

theorem Lone.step_write (room : w.nextSeq + 1 < 2 ^ 64) (data : Bytes) (ts : HLCTimestamp) :
    s.step (.system (.write data ts)) = some { s with
      system := { s.system with
        wal := some (w.write s.system.disk data ts).1.1
        disk := (w.write s.system.disk data ts).1.2 }
      written := s.written ++ s.writes (.write data ts) } := by
  refine (step_system_iff lone.linked).mpr ⟨lone.nextId_lt, _, ?_, rfl⟩
  simp only [System.step, lone.running, if_pos room]

/-- A write that fits into the segment. -/
theorem Lone.write (room : w.nextSeq + 1 < 2 ^ 64) (ts : HLCTimestamp)
    (fits : w.active.size + (25 + data.length) ≤ defaultSegmentSize) :
    ∃ s', s.step (.system (.write data ts)) = some s' ∧ s'.Lone (w.afterWrite data ts) ∧
      s'.system.batches = s.system.batches ∧ s'.system.acked = s.system.acked ∧
      s'.checkpointed = s.checkpointed ∧
      s'.written = s.written ++ [(1, w.nextRecord data ts)] := by
  have fits' : ¬ w.Rotates (w.nextRecord data ts) :=
    fun full => not_lt.mpr fits (lone.rotates_nextRecord.mp full)
  have stepped := lone.step_write room data ts
  simp only [Journal.writes, lone.running, WAL.write_of_fits s.system.disk lone.opened fits']
    at stepped
  refine ⟨_, stepped, { lone with running := rfl, only := fun q other => ?_ }, rfl, rfl, rfl, ?_⟩
  · exact (Dir.lookup_append_of_ne _ (lone.id ▸ other)).trans (lone.only q other)
  · rw [← lone.id]
    rfl

/-- A short record that does not fit into the segment goes to a second one. -/
theorem Lone.write_full (room : w.nextSeq + 1 < 2 ^ 64) (ts : HLCTimestamp)
    (full : w.Rotates (w.nextRecord data ts)) (short : data.length ≤ 100) :
    ∃ s' w', s.step (.system (.write data ts)) = some s' ∧ s'.system.wal = some w' ∧
      w'.sealed = [(w.active.sync s.system.disk).1] ∧
      w'.active = (Segment.started 2 defaultSegmentSize).wrote (w.nextRecord data ts) ∧
      s'.checkpointed = s.checkpointed ∧
      s'.written = s.written ++ [(2, w.nextRecord data ts)] := by
  have stepped := lone.step_write room data ts
  rcases eq : WAL.writeToActive { w with nextSeq := w.nextSeq + 1 } s.system.disk
    (w.nextRecord data ts) with ⟨⟨w₁, dir₁⟩, err⟩
  simp only [Journal.writes, lone.running, WAL.write_eq s.system.disk lone.opened, eq] at stepped
  cases WAL.puts_of_writeToActive (w := { w with nextSeq := w.nextSeq + 1 }) lone.segmentSize
    (lone.nextId_lt w lone.running) eq with
  | active fits => exact absurd full fits
  | refused _ full' =>
    have size : (Segment.started w.nextId defaultSegmentSize).size =
        (Segment.header w.nextId).encode.length := Nat.zero_add _
    have digits : (Nat.toDigits 10 2).length = 1 := by decide
    change defaultSegmentSize < (Segment.started w.nextId defaultSegmentSize).size + _ at full'
    rw [size, lone.nextId, length_header, length_nextRecord, defaultSegmentSize] at full'
    omega
  | rotated =>
    refine ⟨_, _, stepped, rfl, congrArg (· ++ _) lone.sealed, ?_, rfl, ?_⟩
    · rw [← lone.nextId]
      rfl
    · rw [← lone.nextId]
      rfl

theorem Lone.takePending (waits : w.pendingSync ≠ []) :
    ∃ s', s.step (.system .takePending) = some s' ∧ s'.Lone { w with pendingSync := [] } ∧
      s'.system.batches = s.system.batches ++ [w.pendingSync] ∧
      s'.system.acked = s.system.acked := by
  have stepped : s.system.step .takePending = some { s.system with
      wal := some { w with pendingSync := [] }
      batches := s.system.batches ++ [w.pendingSync] } := by
    simp only [System.step, lone.running, if_neg waits]
  exact ⟨_, (step_system_iff lone.linked).mpr ⟨lone.nextId_lt, _, stepped, rfl⟩,
    { lone with running := rfl }, rfl, rfl⟩

theorem Lone.syncBatch {batch : List WALEntry} (taken : s.system.batches = [batch]) :
    ∃ s' w', s.step (.system (.syncBatch 0)) = some s' ∧ s'.Lone w' ∧
      s'.system.acked = s.system.acked ++ batch ∧ w'.active.size = w.active.size ∧
      w'.active.lastSeq = w.active.lastSeq := by
  have stepped : s.system.step (.syncBatch 0) = some { s.system with
      wal := some { w with
        active := (w.active.sync s.system.disk).1
        syncCount := w.syncCount + 1 }
      disk := (w.active.sync s.system.disk).2
      batches := []
      acked := s.system.acked ++ batch } := by
    simp only [System.step, lone.running, taken]
    rfl
  rw [sync_fst] at stepped
  refine ⟨_, _, (step_system_iff lone.linked).mpr ⟨lone.nextId_lt, _, stepped, rfl⟩,
    { lone with running := rfl, only := fun q other => ?_ }, rfl, rfl, rfl⟩
  exact (lookup_sync_of_ne _ (lone.id ▸ other)).trans (lone.only q other)

/-- The file that the checkpoint record goes to is not removed. -/
theorem Lone.activeBy_notMem : w.activeBy seq ∉ w.removedBy seq := by
  unfold WAL.activeBy WAL.removedBy WAL.sealedBy
  rw [lone.sealed]
  split
  · intro mem
    obtain ⟨segment, removed, same⟩ := mem_map.mp mem
    rw [mem_singleton.mp (mem_of_mem_filter removed), lone.id] at same
    nomatch same
  · exact not_mem_nil

/-- A checkpoint is possible. -/
theorem Lone.step_checkpoint (small : seq < 2 ^ 64) :
    ∃ w₁ dir₁, w.Puts s.system.disk (checkpointRecord seq) w₁ dir₁ none ∧
      s.step (.checkpoint seq) = some { s with
        system := { s.system with
          wal := some (w₁.purge dir₁ seq).1
          disk := (w₁.purge dir₁ seq).2 }
        checkpointed := max s.checkpointed seq } := by
  have smallId := lone.nextId_lt w lone.running
  obtain ⟨closed, -⟩ | ⟨-, w₁, dir₁, puts, done⟩ :=
    WAL.checkpoint_cases s.system.disk lone.segmentSize smallId small
  · nomatch closed.symm.trans lone.activeOpened
  refine ⟨w₁, dir₁, puts, ?_⟩
  obtain ⟨s', eq⟩ : ∃ s', s.step (.checkpoint seq) = some s' := by
    simp only [step, lone.running, if_pos (And.intro smallId small)]
    exact ⟨_, rfl⟩
  have leaves : ∀ w' ∈ s.system.wal, w'.activeBy seq ∉ w'.removedBy seq := by
    intro w' running
    cases running.symm.trans lone.running
    exact lone.activeBy_notMem
  obtain ⟨w', running, -, -, rfl⟩ := Journal.step_checkpoint lone.linked leaves eq
  cases running.symm.trans lone.running
  rw [eq, done]

/-- A checkpoint whose record fits into the segment. -/
theorem Lone.checkpoint (small : seq < 2 ^ 64) (fits : ¬ w.Rotates (checkpointRecord seq)) :
    ∃ s' w', s.step (.checkpoint seq) = some s' ∧ s'.Lone w' ∧
      w'.active.size = w.active.size + (checkpointRecord seq).encode.length ∧
      w'.active.lastSeq = seq ∧ s'.written = s.written := by
  obtain ⟨w₁, dir₁, puts, done⟩ := lone.step_checkpoint small
  cases puts with
  | rotated full => exact absurd full fits
  | active =>
    simp only [WAL.purge, lone.sealed, sync_fst] at done
    refine ⟨_, _, done, { lone with
      running := rfl
      sealed := rfl
      only := fun q other => ?_ }, rfl, rfl, rfl⟩
    have inactive : q ≠ w.active.id := by
      rw [lone.id]
      exact other
    exact (lookup_sync_of_ne (s := w.active.wrote _) _ inactive).trans
      ((Dir.lookup_append_of_ne _ inactive).trans (lone.only q other))

theorem Lone.content_rotated (r : Record) :
    ((w.rotatedDir s.system.disk).append w.nextId r.encode).content 2 =
      (Segment.header 2).encode ++ r.encode := by
  have empty : s.system.disk.content 2 = [] := by
    rw [Dir.content, lone.only 2 (by decide)]
    rfl
  rw [WAL.rotatedDir, lone.nextId, Dir.content_append, Dir.content_append,
    (later_sync _ _).content, empty, nil_append]

/-- A checkpoint whose record does not fit removes the segment if that is not above it. -/
theorem Lone.checkpoint_full (small : seq < 2 ^ 64) (full : w.Rotates (checkpointRecord seq))
    (old : w.active.lastSeq ≤ seq) :
    ∃ s' w', s.step (.checkpoint seq) = some s' ∧ s'.system.wal = some w' ∧ w'.sealed = [] ∧
      s'.system.acked = s.system.acked ∧ s'.unlinked = false ∧
      ∀ q file, s'.system.disk.lookup q = some file →
        file.bytes = (Segment.header 2).encode ++ (checkpointRecord seq).encode := by
  obtain ⟨w₁, dir₁, puts, done⟩ := lone.step_checkpoint small
  cases puts with
  | active fits => exact absurd full fits
  | rotated =>
    refine ⟨_, _, done, rfl, ?_, rfl, lone.linked, ?_⟩
    · rw [WAL.purge, WAL.removeSealed_fst, lone.sealed, nil_append, sync_fst w.active,
        filter_singleton, decide_eq_false (not_lt.mpr old), cond_false]
    intro q file known
    have sealed : ((w.sealed ++ [(w.active.sync s.system.disk).1]).filter
        fun segment => segment.lastSeq ≤ seq).map Segment.id = [1] := by
      rw [lone.sealed, nil_append, filter_singleton, sync_fst,
        decide_eq_true old, cond_true, map_singleton, lone.id]
    simp only [WAL.purge, WAL.lookup_removeSealed, sealed, mem_singleton] at known
    split at known
    · nomatch known
    · rename_i other
      by_cases new : q = 2
      · subst new
        rw [← Dir.content_of_lookup known, (later_sync _ _).content]
        exact lone.content_rotated (checkpointRecord seq)
      · rw [lookup_sync_of_ne _ (lone.nextId ▸ new),
          Dir.lookup_append_of_ne _ (lone.nextId ▸ new), WAL.rotatedDir,
          Dir.lookup_append_of_ne _ (lone.nextId ▸ new),
          lookup_sync_of_ne _ (lone.id ▸ other), lone.only q other] at known
        nomatch known

end

/-- A record of `n` bytes has been written to the log of an empty directory. -/
theorem lone_written {n : ℕ} (small : 54 + n ≤ defaultSegmentSize) :
    ∃ w dir data s, WAL.openWAL ∅ = .ok (w, dir) ∧ w.nextSeq = 1 ∧ data.length = n ∧
      ¬ w.Rotates (w.nextRecord data 0) ∧
      step { system := { disk := dir, wal := some w } } (.system (.write data 0)) = some s ∧
      s.Lone (w.afterWrite data 0) ∧ (w.afterWrite data 0).active.size = 54 + n ∧
      s.system.batches = [] ∧ s.checkpointed = 0 ∧ s.written = [(1, w.nextRecord data 0)] := by
  obtain ⟨w, dir, opened, lone, size, nextSeq⟩ := lone_opened
  obtain ⟨data, length⟩ : ∃ data : Bytes, data.length = n := ⟨replicate n 0, length_replicate⟩
  have fits : w.active.size + (25 + data.length) ≤ defaultSegmentSize := by omega
  obtain ⟨s, wrote, lone₁, batches, -, checkpointed, written⟩ :=
    lone.write (by rw [nextSeq]; decide) 0 fits
  refine ⟨w, dir, data, s, opened, nextSeq, length, ?_, wrote, lone₁, ?_, batches, checkpointed,
    written⟩
  · rw [lone.rotates_nextRecord]
    exact not_lt.mpr fits
  · rw [size_afterWrite]
    omega

end Journal

end Hermes.Storage.Wal
