import Hermes.Storage.Wal.Runs

/-!
# Where records are written

A segment is numbered by the sequence number that was next when the log was opened, or
by counting the segments of the process.  A record is never written to a segment with a
number above its own.
-/

namespace Hermes.Storage.Wal

open AList List Segment
open Clock (HLCTimestamp)

/-- A record in segment `id`: data is never older than its segment. -/
structure Placed (id : ℕ) (r : Record) : Prop where
  storable : r.Storable
  data : r.type = .data → id ≤ r.sequence ∧ r.sequence + 1 < 2 ^ 64

variable {id : ℕ} {r : Record} {w w' : WAL} {dir dir' : Dir}

/-! ## Segment headers -/

theorem length_header (id : ℕ) :
    (Segment.header id).encode.length = 28 + (Nat.toDigits 10 id).length := by
  have text : ("segment_id=" ++ toString id).toList.length = 11 + (Nat.toDigits 10 id).length := by
    rw [String.toList_append, length_append]
    congr 1
    exact congrArg length Nat.toList_repr
  rw [Record.length_encode, Segment.header, Segment.asciiBytes, length_map, headerSize]
  omega

/-- Headers of higher segments are not shorter. -/
theorem length_header_mono {id' : ℕ} (le : id ≤ id') :
    (Segment.header id).encode.length ≤ (Segment.header id').encode.length := by
  rw [length_header, length_header]
  have digits : (Nat.toDigits 10 id).length ≤ (Nat.toDigits 10 id').length := by
    rw [Nat.length_toDigits_le_iff (by decide) Nat.length_toDigits_pos]
    apply Nat.lt_of_le_of_lt le
    exact (Nat.length_toDigits_le_iff (by decide) Nat.length_toDigits_pos).mp le_rfl
  omega

/-- A number of eight bytes has at most twenty digits. -/
theorem length_toDigits_le {n : ℕ} (small : n < 2 ^ 64) : (Nat.toDigits 10 n).length ≤ 20 :=
  (Nat.length_toDigits_le_iff (by decide) (by decide)).mpr (by omega)

/-- The header of every segment fits into it. -/
theorem length_header_le (small : id < 2 ^ 64) :
    (Segment.header id).encode.length ≤ defaultSegmentSize := by
  have digits := length_toDigits_le small
  rw [length_header, defaultSegmentSize]
  omega

/-! ## Writing -/

theorem Record.Storable.of_fits (type : RecordType.ofByte r.type.toByte = r.type)
    (sequence : r.sequence < 2 ^ 64) (fits : r.encode.length ≤ defaultSegmentSize) :
    r.Storable := by
  rw [Record.length_encode, headerSize, defaultSegmentSize] at fits
  refine ⟨type, sequence, ?_⟩
  rw [maxRecordSize]
  omega

theorem placed_header (small : id < 2 ^ 64) : Placed id (Segment.header id) where
  storable := .of_fits (show RecordType.ofByte 3 = .segmentHeader by decide) small
    (length_header_le small)
  data isData := nomatch isData

/-- The segment after a record has been written to it. -/
def Segment.wrote (s : Segment) (r : Record) : Segment :=
  { s with
    size := s.size + r.encode.length
    lastSeq := r.sequence
    syncNeeded := true
    firstSeq := if s.firstSeq = 0 ∧ r.type = .data then r.sequence else s.firstSeq }

/-- What writing a record that fits does. -/
theorem Segment.writeRecord_of_le {s : Segment} (dir : Dir)
    (fits : s.size + r.encode.length ≤ s.maxSize) :
    s.writeRecord dir r = .ok (s.wrote r, dir.append s.id r.encode) :=
  if_neg (not_lt.mpr fits)

theorem Segment.writeRecord_of_lt {s : Segment} (dir : Dir)
    (full : s.maxSize < s.size + r.encode.length) : s.writeRecord dir r = .error .segmentFull :=
  if_pos full

/-- A new segment, with its header. -/
def Segment.started (id maxSize : ℕ) : Segment :=
  wrote { id := id, maxSize := maxSize } (header id)

theorem Segment.new_eq (dir : Dir) (small : id < 2 ^ 64) :
    Segment.new dir id defaultSegmentSize =
      .ok (started id defaultSegmentSize, dir.append id (header id).encode) := by
  apply writeRecord_of_le
  rw [Nat.zero_add]
  exact length_header_le small

/-! Syncing a segment changes nothing but a flag, and so does closing it. -/

theorem Segment.sync_fst (s : Segment) (dir : Dir) :
    (s.sync dir).1 = { s with syncNeeded := s.syncNeeded && s.closed } := by
  rcases s with ⟨_, _, _, _, _, closed, needed⟩
  cases needed <;> cases closed <;> rfl

theorem Segment.close_fst (s : Segment) (dir : Dir) :
    (s.close dir).1 = { s with closed := true } := by
  rcases s with ⟨_, _, _, _, _, closed, _⟩
  cases closed <;> rfl

/-- The number that a rotation gives to the new segment. -/
def WAL.nextId (w : WAL) : ℕ :=
  w.sealed.length + 2

/-- The directory after a rotation: the old segment is synced and the new one has its
header. -/
def WAL.rotatedDir (w : WAL) (dir : Dir) : Dir :=
  (w.active.sync dir).2.append w.nextId (Segment.header w.nextId).encode

theorem WAL.rotateSegment_eq (dir : Dir) (segmentSize : w.segmentSize = defaultSegmentSize)
    (small : w.nextId < 2 ^ 64) :
    w.rotateSegment dir =
      (({ w with
          active := .started w.nextId defaultSegmentSize
          sealed := w.sealed ++ [(w.active.sync dir).1] },
        w.rotatedDir dir), none) := by
  have created := new_eq (w.active.sync dir).2 small
  unfold nextId at created
  simp only [rotateSegment, segmentSize, length_append, length_singleton]
  rw [created]
  rfl

/-- Writing the record makes the log rotate. -/
def WAL.Rotates (w : WAL) (r : Record) : Prop :=
  w.active.maxSize < w.active.size + r.encode.length
  deriving Decidable

/-- Where a record goes: into the active segment, into a new one, or nowhere because it is
too large even for that. -/
inductive WAL.Puts (w : WAL) (dir : Dir) (r : Record) : WAL → Dir → Option WalError → Prop where
  | active (fits : ¬ w.Rotates r) :
    Puts w dir r
      { w with
        active := w.active.wrote r
        bytesWritten := w.bytesWritten + headerSize + r.data.length
        recordsWritten := w.recordsWritten + 1 }
      (dir.append w.active.id r.encode) none
  | rotated (full : w.Rotates r)
    (fits : (Segment.started w.nextId defaultSegmentSize).size + r.encode.length ≤
      defaultSegmentSize) :
    Puts w dir r
      { w with
        active := (Segment.started w.nextId defaultSegmentSize).wrote r
        sealed := w.sealed ++ [(w.active.sync dir).1] }
      ((w.rotatedDir dir).append w.nextId r.encode) none
  | refused (full : w.Rotates r)
    (full' : defaultSegmentSize <
      (Segment.started w.nextId defaultSegmentSize).size + r.encode.length) :
    Puts w dir r
      { w with
        active := .started w.nextId defaultSegmentSize
        sealed := w.sealed ++ [(w.active.sync dir).1] }
      (w.rotatedDir dir) (some .segmentFull)

variable {err : Option WalError}

/-- What writing a record does. -/
theorem WAL.puts_of_writeToActive (segmentSize : w.segmentSize = defaultSegmentSize)
    (small : w.nextId < 2 ^ 64) (eq : w.writeToActive dir r = ((w', dir'), err)) :
    w.Puts dir r w' dir' err := by
  unfold writeToActive at eq
  by_cases full : w.Rotates r
  · rw [writeRecord_of_lt dir full] at eq
    simp only [rotateSegment_eq dir segmentSize small] at eq
    by_cases full' : defaultSegmentSize <
        (Segment.started w.nextId defaultSegmentSize).size + r.encode.length
    · rw [writeRecord_of_lt _ full'] at eq
      cases eq
      exact .refused full full'
    · rw [writeRecord_of_le _ (not_lt.mp full')] at eq
      cases eq
      exact .rotated full (not_lt.mp full')
  · rw [writeRecord_of_le dir (not_lt.mp full)] at eq
    cases eq
    exact .active full

theorem WAL.Puts.nextSeq_eq (puts : w.Puts dir r w' dir' err) : w'.nextSeq = w.nextSeq := by
  cases puts <;> rfl

theorem WAL.Puts.pendingSync_eq (puts : w.Puts dir r w' dir' err) :
    w'.pendingSync = w.pendingSync := by
  cases puts <;> rfl

/-- The entry of a write, which takes the next number. -/
def WAL.nextEntry (w : WAL) (data : Bytes) (ts : HLCTimestamp) : WALEntry where
  sequence := w.nextSeq
  timestamp := ts
  data := data

def WAL.nextRecord (w : WAL) (data : Bytes) (ts : HLCTimestamp) : Record where
  type := .data
  sequence := w.nextSeq
  data := encodeEntryData ts data

variable {ts : HLCTimestamp}

/-- What writing to an open log does. -/
theorem WAL.write_eq {data : Bytes} (dir : Dir) (opened : w.closed = false) :
    w.write dir data ts =
      match writeToActive { w with nextSeq := w.nextSeq + 1 } dir (w.nextRecord data ts) with
      | ((w', dir'), some err) => ((w', dir'), .error err)
      | ((w', dir'), none) =>
        (({ w' with pendingSync := w'.pendingSync ++ [w.nextEntry data ts] }, dir'),
          .ok (w.nextEntry data ts)) := by
  rw [write, if_neg (by rw [opened]; decide)]
  rfl

/-- What a write does: a closed log refuses it, and otherwise a number is used up and the
entry waits if its record could be written. -/
inductive WAL.Writes (w : WAL) (dir : Dir) (data : Bytes) (ts : HLCTimestamp) :
    WAL → Dir → Except WalError WALEntry → Prop where
  | closed : Writes w dir data ts w dir (.error .walClosed)
  | failed {w' : WAL} {dir' : Dir} {err : WalError} (opened : w.closed = false)
    (put : writeToActive { w with nextSeq := w.nextSeq + 1 } dir (w.nextRecord data ts) =
      ((w', dir'), some err)) :
    Writes w dir data ts w' dir' (.error err)
  | done {w' : WAL} {dir' : Dir} (opened : w.closed = false)
    (put : writeToActive { w with nextSeq := w.nextSeq + 1 } dir (w.nextRecord data ts) =
      ((w', dir'), none)) :
    Writes w dir data ts
      { w' with pendingSync := w'.pendingSync ++ [w.nextEntry data ts] } dir'
      (.ok (w.nextEntry data ts))

theorem WAL.writes_of_write {data : Bytes} {result : Except WalError WALEntry}
    (eq : w.write dir data ts = ((w', dir'), result)) : w.Writes dir data ts w' dir' result := by
  by_cases closed : w.closed
  · rw [write, if_pos closed] at eq
    cases eq
    exact .closed
  · have opened : w.closed = false := Bool.eq_false_iff.mpr closed
    rw [write_eq dir opened] at eq
    split at eq
    · rename_i put
      cases eq
      exact .failed opened put
    · rename_i put
      cases eq
      exact .done opened put

/-- Close segments one after the other. -/
def closeAll (segments done : List Segment) (dir : Dir) : List Segment × Dir :=
  segments.foldl
    (fun x segment => (x.1 ++ [(segment.close x.2).1], (segment.close x.2).2)) (done, dir)

theorem length_closeAll (segments done : List Segment) (dir : Dir) :
    (closeAll segments done dir).1.length = done.length + segments.length := by
  induction segments generalizing done dir with
  | nil => rfl
  | cons segment rest ih =>
    refine (ih (done ++ [(segment.close dir).1]) _).trans ?_
    simp only [length_append, length_cons, length_nil]
    omega

/-- What closing an open log does. -/
theorem WAL.close_eq (dir : Dir) (running : ¬ w.closed) :
    w.close dir =
      ({ w with
          closed := true
          pendingSync := []
          sealed := (closeAll w.sealed [] dir).1
          active := (w.active.close (closeAll w.sealed [] dir).2).1 },
        (w.active.close (closeAll w.sealed [] dir).2).2) := by
  rw [close, if_neg running]
  rfl

/-- The numbers of an open log.  As long as no earlier segment of the directory has
taken a number away, the active segment is one ahead of the sealed ones and may hold
nothing but its header. -/
structure Session (w : WAL) : Prop where
  segmentSize : w.segmentSize = defaultSegmentSize
  maxSize : w.active.maxSize = defaultSegmentSize
  active_le : w.active.id ≤ w.nextSeq
  nextSeq_lt : w.nextSeq < 2 ^ 64
  sealed_le : w.sealed.length + 2 ≤ w.nextSeq ∨
    w.sealed.length + 1 ≤ w.nextSeq ∧ w.active.id = w.sealed.length + 1 ∧
      w.active.size = (Segment.header w.active.id).encode.length

namespace Session

/-- A record that fits into a segment not above its number is in its place. -/
theorem placed_data (room : w.nextSeq + 1 < 2 ^ 64) (isData : r.type = .data)
    (sequence : r.sequence = w.nextSeq) (below : id ≤ w.nextSeq)
    (small : r.encode.length ≤ defaultSegmentSize) : Placed id r := by
  refine ⟨.of_fits ?_ ?_ small, fun _ => ?_⟩
  · rw [isData]
    decide
  · omega
  · omega

variable (session : Session w)

include session

/-- Changes that leave the numbers alone. -/
theorem congr (segmentSize : w'.segmentSize = w.segmentSize)
    (maxSize : w'.active.maxSize = w.active.maxSize) (id : w'.active.id = w.active.id)
    (size : w'.active.size = w.active.size) (sealed : w'.sealed.length = w.sealed.length)
    (nextSeq : w'.nextSeq = w.nextSeq) : Session w' := by
  constructor
  · rw [segmentSize, session.segmentSize]
  · rw [maxSize, session.maxSize]
  · rw [id, nextSeq]
    exact session.active_le
  · rw [nextSeq]
    exact session.nextSeq_lt
  · rw [sealed, nextSeq, id, size]
    exact session.sealed_le

theorem nextId_lt (room : w.nextSeq + 1 < 2 ^ 64) : w.nextId < 2 ^ 64 := by
  have := session.sealed_le
  unfold WAL.nextId
  omega

/-- A rotation comes to a segment that is not above the number of the record: this was the
only thing too much for the segment before. -/
theorem nextId_le (full : w.Rotates r)
    (fits : (Segment.started w.nextId defaultSegmentSize).size + r.encode.length ≤
      defaultSegmentSize) : w.nextId ≤ w.nextSeq := by
  rcases session.sealed_le with below | ⟨_, active_eq, header_only⟩
  · exact below
  · have nextId : w.nextId = w.sealed.length + 2 := rfl
    have longer := length_header_mono (show w.active.id ≤ w.nextId by omega)
    have size : (Segment.started w.nextId defaultSegmentSize).size =
        (Segment.header w.nextId).encode.length := Nat.zero_add _
    rw [WAL.Rotates, session.maxSize] at full
    omega

theorem puts_of_writeToActive (room : w.nextSeq + 1 < 2 ^ 64)
    (eq : WAL.writeToActive { w with nextSeq := w.nextSeq + 1 } dir r = ((w', dir'), err)) :
    WAL.Puts { w with nextSeq := w.nextSeq + 1 } dir r w' dir' err :=
  WAL.puts_of_writeToActive session.segmentSize (session.nextId_lt room) eq

/-- Writing the record with the next number. -/
theorem puts (room : w.nextSeq + 1 < 2 ^ 64)
    (puts : WAL.Puts { w with nextSeq := w.nextSeq + 1 } dir r w' dir' err) :
    Session w' ∧ w'.active.syncNeeded = true ∧
      (w.active.closed = false → w'.active.closed = false) := by
  have sealed_le := session.sealed_le
  have nextId : w.nextId = w.sealed.length + 2 := rfl
  cases puts with
  | active fits =>
    refine ⟨⟨session.segmentSize, session.maxSize, ?_, room, .inl ?_⟩, rfl, id⟩
    · exact Nat.le_succ_of_le session.active_le
    · dsimp only
      omega
  | rotated full fits =>
    have older := session.nextId_le full fits
    refine ⟨⟨session.segmentSize, rfl, ?_, room, .inl ?_⟩, rfl, fun _ => rfl⟩
    · exact Nat.le_succ_of_le older
    · simp only [length_append, length_singleton]
      omega
  | refused full full' =>
    refine ⟨⟨session.segmentSize, rfl, ?_, room, ?_⟩, rfl, fun _ => rfl⟩
    · show w.nextId ≤ _
      dsimp only
      omega
    · simp only [length_append, length_singleton]
      rcases sealed_le with below | ⟨low, _⟩
      · omega
      · exact .inr ⟨by omega, rfl, Nat.zero_add _⟩

theorem syncActive (syncCount : ℕ) :
    Session { w with active := (w.active.sync dir).1, syncCount := syncCount } := by
  rw [sync_fst]
  exact session.congr rfl rfl rfl rfl rfl rfl

theorem close (dir : Dir) : Session (w.close dir).1 := by
  by_cases closed : w.closed
  · rw [WAL.close, if_pos closed]
    exact session
  · rw [WAL.close_eq dir closed]
    rw [close_fst]
    refine session.congr rfl rfl rfl rfl ?_ rfl
    exact (length_closeAll w.sealed [] dir).trans (Nat.zero_add _)

end Session

/-! ## Recovering -/

theorem WAL.le_maxDataSeq (records : List Record) (maxSeq : ℕ) :
    maxSeq ≤ maxDataSeq maxSeq records ∧
      ∀ r ∈ records, r.type = .data → r.sequence ≤ maxDataSeq maxSeq records := by
  induction records generalizing maxSeq with
  | nil => exact ⟨le_rfl, nofun⟩
  | cons r rest ih =>
    obtain ⟨le, all⟩ := ih
      (if r.type = .data ∧ r.sequence > maxSeq then r.sequence else maxSeq)
    have first : maxSeq ≤ (if r.type = .data ∧ r.sequence > maxSeq then r.sequence else maxSeq) ∧
        (r.type = .data → r.sequence ≤
          (if r.type = .data ∧ r.sequence > maxSeq then r.sequence else maxSeq)) := by
      split
      · rename_i higher
        exact ⟨higher.2.le, fun _ => le_rfl⟩
      · rename_i lower
        refine ⟨le_rfl, fun isData => ?_⟩
        exact not_lt.mp fun higher => lower ⟨isData, higher⟩
    refine ⟨first.1.trans le, fun r' mem isData => ?_⟩
    rcases mem_cons.mp mem with rfl | mem
    · exact (first.2 isData).trans le
    · exact all r' mem isData

/-- `recover` returns a number above that of every data record it can read. -/
theorem WAL.lt_of_recover {next : ℕ} (eq : recover dir = .ok next)
    {records : List Record} (read : readAll (dir.content id) = .ok records)
    (mem : r ∈ records) (isData : r.type = .data) : r.sequence < next := by
  obtain ⟨maxSeq, loop, same⟩ := bind_eq_ok.mp eq
  cases same
  unfold Dir.content at read
  cases known : dir.lookup id with
  | none =>
    rw [known] at read
    cases read
    nomatch mem
  | some file =>
    rw [known] at read
    apply Nat.lt_succ_of_le
    refine foldlM_reaches (P := (r.sequence ≤ ·)) (mem_lookup_iff.mp known) ?_ ?_ loop
    · intro maxSeq maxSeq' here
      rw [show readAll file.bytes = .ok records from read] at here
      cases here
      exact (le_maxDataSeq records maxSeq).2 r mem isData
    · intro maxSeq file' maxSeq' below here
      split at here
      · nomatch here
      · cases here
        exact below.trans (le_maxDataSeq _ maxSeq).1

/-- What `Open` does when it succeeds. -/
theorem WAL.openWAL_eq (eq : openWAL dir = .ok (w, dir')) :
    ∃ next, recover dir = .ok next ∧
      dir' = dir.append next (Segment.header next).encode ∧ w.sealed = [] ∧
      w.active.id = next ∧ w.nextSeq = next ∧ w.segmentSize = defaultSegmentSize ∧
      w.active.maxSize = defaultSegmentSize ∧
      w.active.size = (Segment.header next).encode.length ∧ w.pendingSync = [] ∧
      w.closed = false ∧ w.active.closed = false ∧ w.active.syncNeeded = true := by
  obtain ⟨next, recovered, rest⟩ := bind_eq_ok.mp eq
  obtain ⟨⟨active, disk⟩, created, same⟩ := bind_eq_ok.mp rest
  cases same
  unfold Segment.new Segment.writeRecord at created
  dsimp only at created
  split at created
  · nomatch created
  · cases created
    exact ⟨next, recovered, rfl, rfl, rfl, rfl, rfl, rfl, Nat.zero_add _, rfl, rfl, rfl, rfl⟩

theorem Dir.content_append (dir : Dir) (id : ℕ) (bytes : Bytes) :
    (dir.append id bytes).content id = dir.content id ++ bytes := by
  rw [content, append, lookup_insert, content]
  cases dir.lookup id <;> rfl

variable {next : ℕ}

/-- The next sequence number is one above zero or above that of a data record. -/
theorem WAL.recover_induction {P : ℕ → Prop} (zero : P 0)
    (data : ∀ id file, dir.lookup id = some file → ∀ records, readAll file.bytes = .ok records →
      ∀ r ∈ records, r.type = .data → P r.sequence)
    (recovered : recover dir = .ok next) : ∃ maxSeq, next = maxSeq + 1 ∧ P maxSeq := by
  obtain ⟨maxSeq, loop, same⟩ := bind_eq_ok.mp recovered
  cases same
  refine ⟨maxSeq, rfl, foldlM_induction zero ?_ loop⟩
  rintro maxSeq ⟨id, file⟩ maxSeq' before mem read
  split at read
  · nomatch read
  · rename_i records known
    cases read
    refine foldlRecOn _ _ before ?_
    intro maxSeq before r memR
    split
    · rename_i higher
      exact data id file (mem_lookup_iff.mpr mem) records known r memR higher.1
    · exact before

/-- The next sequence number takes eight bytes if those in the files leave room for it. -/
theorem WAL.recover_lt
    (small : ∀ id file, dir.lookup id = some file → ∀ records, readAll file.bytes = .ok records →
      ∀ r ∈ records, r.type = .data → r.sequence + 1 < 2 ^ 64)
    (recovered : recover dir = .ok next) : 1 ≤ next ∧ next < 2 ^ 64 := by
  obtain ⟨maxSeq, rfl, below⟩ :=
    recover_induction (P := fun maxSeq => maxSeq + 1 < 2 ^ 64) (by decide) small recovered
  exact ⟨Nat.succ_pos _, below⟩

/-- The numbers of a log that has just been opened. -/
theorem Session.of_openWAL (opened : WAL.openWAL dir = .ok (w, dir'))
    (recovered : WAL.recover dir = .ok next) (positive : 1 ≤ next) (small : next < 2 ^ 64) :
    Session w := by
  obtain ⟨next', recovered', -, sealed, id, nextSeq, segmentSize, maxSize, size, -⟩ :=
    WAL.openWAL_eq opened
  cases recovered.symm.trans recovered'
  refine ⟨segmentSize, maxSize, by rw [id, nextSeq], nextSeq ▸ small, ?_⟩
  rw [sealed, id, nextSeq, size, length_nil]
  rcases lt_or_ge next 2 with first | later
  · exact .inr ⟨positive, by omega, rfl⟩
  · exact .inl later

end Hermes.Storage.Wal
