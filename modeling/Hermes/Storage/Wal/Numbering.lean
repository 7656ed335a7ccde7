import Hermes.Storage.Wal.Checkpoint

/-!
# Sequence numbers

`Open` takes the next sequence number from the data records that it finds.  A number is thus
used again if no data record at or above it is left, because a checkpoint has removed the files
with these records or because they were written behind torn bytes.  Where a record is left for
every number that was given out, the numbers increase from one process to the next.
-/

namespace Hermes.Storage.Wal

open List Option
open Clock (HLCTimestamp)

/-- A data record with the number `n` or a higher one. -/
structure Record.Reaches (r : Record) (n : ℕ) : Prop where
  isData : r.type = .data
  le : n ≤ r.sequence

/-- The directory will show a number at or above `n`, whatever a crash does. -/
def Dir.Reaches (dir : Dir) (n : ℕ) : Prop :=
  ∃ r : Record, r.Reaches n ∧ dir.Held r

/-- The entries that have a number and whose writers have got it or wait for it. -/
def System.issued (s : System) : List WALEntry :=
  s.acked ++ (s.wal.elim [] WAL.pendingSync ++ s.batches.flatten)

/-! ## The condition -/

/-- A segment file that is opened for appending holds whole records, nothing is written between
the halves of `flushPendingSync`, and a checkpoint leaves the file that it writes to and, for
every number that was given out, a file that begins with records up to a data record at or above
that number. -/
def Journal.Retains (s : Journal) : JournalEvent → Prop
  | .system event => s.system.Clean event
  | .checkpoint seq => s.system.batches = [] ∧ ∀ w ∈ s.system.wal,
    (w.Rotates (checkpointRecord seq) → Whole (s.system.disk.content w.nextId)) ∧
    w.activeBy seq ∉ w.removedBy seq ∧
    ∀ entry ∈ s.system.issued, ∃ id ∉ w.removedBy seq, ∃ r : Record,
      r.Reaches entry.sequence ∧ Begins (s.system.disk.content id) r

/-! ## The invariant -/

/-- The numbers of an open log, and where they are on disk. -/
structure Running (disk : Dir) (acked : List WALEntry) (batches : List (List WALEntry))
    (w : WAL) : Prop where
  segmentSize : w.segmentSize = defaultSegmentSize
  maxSize : w.active.maxSize = defaultSegmentSize
  nextSeq_lt : w.nextSeq < 2 ^ 64
  intact : Intact (disk.content w.active.id)
  accurate : w.active.Accurate disk
  others : ∀ id, id ≠ w.active.id → disk.FullySynced id
  opened : w.closed = false → w.active.closed = false
  below : ∀ entry ∈ acked ++ (w.pendingSync ++ batches.flatten), entry.sequence < w.nextSeq
  waiting : ∀ entry ∈ w.pendingSync ++ batches.flatten, ∃ r : Record,
    r.Reaches entry.sequence ∧ (Begins (disk.content w.active.id) r ∨ disk.Held r)

structure System.Numbered (s : System) : Prop where
  readable : s.disk.Readable
  acked : ∀ entry ∈ s.acked, s.disk.Reaches entry.sequence
  running : ∀ w, s.wal = some w → Running s.disk s.acked s.batches w
  idle : s.wal = none → s.batches = [] ∧ ∀ id, s.disk.FullySynced id

namespace Dir

variable {dir dir' : Dir} {n : ℕ}

theorem Reaches.mono (reaches : dir.Reaches n) (held : ∀ r, dir.Held r → dir'.Held r) :
    dir'.Reaches n := by
  obtain ⟨r, shows, before⟩ := reaches
  exact ⟨r, shows, held r before⟩

theorem Reaches.lt_of_recover (reaches : dir.Reaches n) (readable : dir.Readable) {next : ℕ}
    (recovered : WAL.recover dir = .ok next) : n < next := by
  obtain ⟨r, ⟨isData, le⟩, id, file, known, begins⟩ := reaches
  obtain ⟨records, read, -⟩ := (readable id file known).1.readAll
  have mem := (begins.mono (List.take_prefix _ _)).mem_readAll read
  rw [← content_of_lookup known] at read
  exact le.trans_lt (WAL.lt_of_recover recovered read mem isData)

theorem FullySynced.append_of_ne {id q : ℕ} (synced : dir.FullySynced q) (bytes : Bytes)
    (other : q ≠ id) : (dir.append id bytes).FullySynced q := by
  intro file known
  rw [lookup_append_of_ne bytes other] at known
  exact synced file known

/-! Removing files. -/

theorem Readable.of_lookup (readable : dir.Readable)
    (remains : ∀ id file, dir'.lookup id = some file → dir.lookup id = some file) : dir'.Readable :=
  fun id file known => readable id file (remains id file known)

theorem FullySynced.of_lookup {id : ℕ} (synced : dir.FullySynced id)
    (remains : ∀ file, dir'.lookup id = some file → dir.lookup id = some file) :
    dir'.FullySynced id :=
  fun file known => synced file (remains file known)

end Dir

/-! ## Writing -/

variable {err : Option WalError} {r : Record}

/-- A rotation syncs the segment that it leaves, so only the active segment has bytes that
are not synced. -/
theorem WAL.Puts.others {w w' : WAL} {dir dir' : Dir} (puts : w.Puts dir r w' dir' err)
    (accurate : w.active.Accurate dir) (others : ∀ id, id ≠ w.active.id → dir.FullySynced id) :
    ∀ id, id ≠ w'.active.id → dir'.FullySynced id := by
  have synced := (w.active.later_sync dir).fullySynced accurate.sync others
  intro id other
  cases puts with
  | active => exact (others id other).append_of_ne _ other
  | rotated => exact ((synced id).append_of_ne _ other).append_of_ne _ other
  | refused => exact (synced id).append_of_ne _ other

namespace Running

variable {disk disk' : Dir} {acked acked' : List WALEntry} {batches batches' : List (List WALEntry)}
  {w w' : WAL}

section

variable (running : Running disk acked batches w)

include running

/-- The number is used up even if nothing is written. -/
theorem advance (room : w.nextSeq + 1 < 2 ^ 64) :
    Running disk acked batches { w with nextSeq := w.nextSeq + 1 } where
  __ := running
  nextSeq_lt := room
  below entry mem := (running.below entry mem).trans (Nat.lt_succ_self _)

/-- The log after a record has been written, or has not fitted. -/
theorem puts (readable : disk.Readable) (small : w.nextId < 2 ^ 64)
    (placed : r.encode.length ≤ defaultSegmentSize → Placed 0 r)
    (whole : w.Rotates r → Whole (disk.content w.nextId))
    (usable : w.Rotates r ∨ w.active.closed = false) (puts : w.Puts disk r w' disk' err) :
    System.OK.Wrote disk disk' w w' r err ∧ Running disk' acked batches w' := by
  have wrote := System.OK.Wrote.of_puts readable running.accurate running.intact running.maxSize
    small placed whole puts
  have same : w'.segmentSize = w.segmentSize ∧ w'.active.maxSize = defaultSegmentSize ∧
      w'.active.syncNeeded = true ∧ w'.active.closed = false := by
    cases puts with
    | active fits => exact ⟨rfl, running.maxSize, rfl, usable.resolve_left fits⟩
    | rotated | refused => exact ⟨rfl, rfl, rfl, rfl⟩
  obtain ⟨segmentSize, maxSize, dirty, opened⟩ := same
  refine ⟨wrote, ?_⟩
  constructor
  · rw [segmentSize, running.segmentSize]
  · exact maxSize
  · rw [puts.nextSeq_eq]
    exact running.nextSeq_lt
  · exact wrote.intact
  · exact .of_dirty opened dirty
  · exact puts.others running.accurate running.others
  · exact fun _ => opened
  · rw [puts.nextSeq_eq, puts.pendingSync_eq]
    exact running.below
  · intro entry mem
    rw [puts.pendingSync_eq] at mem
    obtain ⟨r', shows, begins | held⟩ := running.waiting entry mem
    · exact ⟨r', shows, wrote.kept r' begins⟩
    · exact ⟨r', shows, .inr (wrote.held r' held)⟩

/-- The entry whose record has just been written waits for a sync. -/
theorem enqueue {entry : WALEntry} (older : entry.sequence < w.nextSeq)
    (shows : r.Reaches entry.sequence) (begins : Begins (disk.content w.active.id) r) :
    Running disk acked batches { w with pendingSync := w.pendingSync ++ [entry] } := by
  have old_or_new : ∀ e ∈ w.pendingSync ++ [entry] ++ batches.flatten,
      e ∈ w.pendingSync ++ batches.flatten ∨ e = entry := by
    intro e mem
    simp only [mem_append, mem_singleton] at mem ⊢
    tauto
  refine { running with below := ?_, waiting := ?_ }
  · intro e mem
    rcases mem_append.mp mem with acked | waits
    · exact running.below e (mem_append_left _ acked)
    · rcases old_or_new e waits with old | rfl
      · exact running.below e (mem_append_right _ old)
      · exact older
  · intro e mem
    rcases old_or_new e mem with old | rfl
    · exact running.waiting e old
    · exact ⟨r, shows, .inl begins⟩

/-! ## Syncing -/

/-- Once the active segment has been synced, every number is on disk. -/
theorem reaches_of_later (later : Dir.Later disk disk')
    (synced : disk'.FullySynced w.active.id) :
    ∀ entry ∈ w.pendingSync ++ batches.flatten, disk'.Reaches entry.sequence := by
  intro entry mem
  obtain ⟨r, shows, begins | held⟩ := running.waiting entry mem
  · rw [← later.content] at begins
    exact ⟨r, shows, synced.held begins⟩
  · exact ⟨r, shows, later.held r held⟩

/-- After a sync of the active segment all files are synced. -/
theorem fullySynced_sync (id : ℕ) : (w.active.sync disk).2.FullySynced id :=
  (w.active.later_sync disk).fullySynced running.accurate.sync running.others id

/-- A log whose files are all synced. -/
theorem of_synced
    (segmentSize : w'.segmentSize = w.segmentSize)
    (maxSize : w'.active.maxSize = w.active.maxSize) (nextSeq : w'.nextSeq = w.nextSeq)
    (intact : Intact (disk'.content w'.active.id)) (synced : ∀ id, disk'.FullySynced id)
    (opened : w'.closed = false → w'.active.closed = false)
    (issued : ∀ entry ∈ acked' ++ (w'.pendingSync ++ batches'.flatten),
      entry ∈ acked ++ (w.pendingSync ++ batches.flatten))
    (reaches : ∀ entry ∈ w'.pendingSync ++ batches'.flatten, disk'.Reaches entry.sequence) :
    Running disk' acked' batches' w' where
  segmentSize := segmentSize.trans running.segmentSize
  maxSize := maxSize.trans running.maxSize
  nextSeq_lt := nextSeq ▸ running.nextSeq_lt
  intact := intact
  accurate _ := synced w'.active.id
  others id _ := synced id
  opened := opened
  below entry mem := nextSeq ▸ running.below entry (issued entry mem)
  waiting entry mem := by
    obtain ⟨r, shows, held⟩ := reaches entry mem
    exact ⟨r, shows, .inr held⟩

end

end Running

/-! ## Events -/

namespace System.Numbered

variable {s s' : System} {w : WAL}

theorem start : Numbered {} where
  readable := OK.start.readable
  acked := nofun
  running := nofun
  idle _ := by
    refine ⟨rfl, fun id file known => ?_⟩
    nomatch known

theorem openWAL (numbered : s.Numbered) (clean : s.Clean .openWAL) (idle : s.wal = none)
    {disk : Dir} (opened : WAL.openWAL s.disk = .ok (w, disk)) :
    Numbered { s with wal := some w, disk := disk } := by
  have files := Opened.of_openWAL numbered.readable clean opened
  obtain ⟨batches, synced⟩ := numbered.idle idle
  obtain ⟨next, recovered, -, small⟩ := numbered.readable.recover
  obtain ⟨next', recovered', disk', -, id, nextSeq, segmentSize, maxSize, -, pending, -⟩ :=
    WAL.openWAL_eq opened
  cases recovered.symm.trans recovered'
  constructor
  · exact files.readable
  · exact fun entry mem => (numbered.acked entry mem).mono files.held
  · rintro w' ⟨⟩
    refine ⟨segmentSize, maxSize, nextSeq ▸ small, files.intact, files.accurate, ?_,
      fun _ => files.opened, ?_, ?_⟩
    · intro q other
      rw [id] at other
      rw [disk']
      exact (synced q).append_of_ne _ other
    · intro entry mem
      rw [pending, batches, nil_append, flatten_nil, append_nil] at mem
      rw [nextSeq]
      exact (numbered.acked entry mem).lt_of_recover numbered.readable recovered
    · intro entry mem
      rw [pending, batches] at mem
      nomatch mem
  · exact nofun

section

variable (numbered : s.Numbered) (running : s.wal = some w)

include numbered running

theorem write (room : w.nextSeq + 1 < 2 ^ 64) (small : w.nextId < 2 ^ 64) {data : Bytes}
    {ts : HLCTimestamp} (clean : s.Clean (.write data ts)) :
    Numbered { s with
      wal := some (w.write s.disk data ts).1.1
      disk := (w.write s.disk data ts).1.2 } := by
  have log := numbered.running w running
  rcases eq : w.write s.disk data ts with ⟨⟨w', disk'⟩, result⟩
  have wrote : ∀ {w' : WAL} {disk' : Dir} {err : Option WalError}, w.closed = false →
      WAL.Puts { w with nextSeq := w.nextSeq + 1 } s.disk (w.nextRecord data ts) w' disk' err →
        OK.Wrote s.disk disk' { w with nextSeq := w.nextSeq + 1 } w' (w.nextRecord data ts) err ∧
          Running disk' s.acked s.batches w' :=
    fun opened puts => (log.advance room).puts numbered.readable small
      (fun fits => Session.placed_data room rfl rfl (Nat.zero_le _) fits)
      (clean.2 w running opened) (.inr (log.opened opened)) puts
  cases WAL.writes_of_write eq with
  | closed =>
    rw [← running]
    exact numbered
  | failed opened put =>
    obtain ⟨wrote, log'⟩ := wrote opened (WAL.puts_of_writeToActive log.segmentSize small put)
    refine ⟨wrote.readable, ?_, ?_, nofun⟩
    · exact fun entry mem => (numbered.acked entry mem).mono wrote.held
    · rintro w'' ⟨⟩
      exact log'
  | done opened put =>
    have puts := WAL.puts_of_writeToActive (w := { w with nextSeq := w.nextSeq + 1 })
      log.segmentSize small put
    obtain ⟨wrote, log'⟩ := wrote opened puts
    refine ⟨wrote.readable, ?_, ?_, nofun⟩
    · exact fun entry mem => (numbered.acked entry mem).mono wrote.held
    · rintro w'' ⟨⟩
      refine log'.enqueue ?_ ⟨rfl, le_rfl⟩ (wrote.new rfl)
      rw [puts.nextSeq_eq]
      exact Nat.lt_succ_self _

theorem takePending :
    Numbered { s with
      wal := some { w with pendingSync := [] }
      batches := s.batches ++ [w.pendingSync] } := by
  have log := numbered.running w running
  have same : ∀ entry, entry ∈ [] ++ (s.batches ++ [w.pendingSync]).flatten →
      entry ∈ w.pendingSync ++ s.batches.flatten := by
    intro entry mem
    rw [nil_append, flatten_append, flatten_singleton] at mem
    exact mem_append.mpr (mem_append.mp mem).symm
  refine ⟨numbered.readable, numbered.acked, ?_, nofun⟩
  rintro _ ⟨⟩
  refine { log with
    below := ?_
    waiting := fun entry mem => log.waiting entry (same entry mem) }
  intro entry mem
  exact log.below entry (mem_append.mpr ((mem_append.mp mem).imp_right (same entry)))

theorem syncBatch {k : ℕ} {batch : List WALEntry} (taken : s.batches[k]? = some batch)
    (syncCount : ℕ) :
    Numbered { s with
      wal := some { w with active := (w.active.sync s.disk).1, syncCount := syncCount }
      disk := (w.active.sync s.disk).2
      batches := s.batches.eraseIdx k
      acked := s.acked ++ batch } := by
  have log := numbered.running w running
  have later := w.active.later_sync s.disk
  have reaches := log.reaches_of_later later log.accurate.sync
  have answered : ∀ entry ∈ batch, entry ∈ w.pendingSync ++ s.batches.flatten := fun entry mem =>
    mem_append_right _ (mem_flatten.mpr ⟨batch, mem_of_getElem? taken, mem⟩)
  constructor
  · exact later.readable numbered.readable
  · intro entry mem
    rcases mem_append.mp mem with old | new
    · exact (numbered.acked entry old).mono later.held
    · exact reaches entry (answered entry new)
  · rintro _ ⟨⟩
    refine log.of_synced rfl (by rw [Segment.sync_fst]) rfl ?_ log.fullySynced_sync ?_ ?_
      (fun entry mem => reaches entry (OK.mem_of_mem_eraseIdx mem))
    · rw [Segment.sync_fst, later.content]
      exact log.intact
    · rw [Segment.sync_fst]
      exact log.opened
    · intro entry mem
      rcases mem_append.mp mem with acked | rest
      · rcases mem_append.mp acked with old | new
        · exact mem_append_left _ old
        · exact mem_append_right _ (answered entry new)
      · exact mem_append_right _ (OK.mem_of_mem_eraseIdx rest)
  · exact nofun

theorem close : Numbered { s with wal := some (w.close s.disk).1, disk := (w.close s.disk).2 } := by
  have log := numbered.running w running
  by_cases closed : w.closed
  · rw [WAL.close, if_pos closed, ← running]
    exact numbered
  · rw [WAL.close_eq s.disk closed]
    have later := OK.later_close w s.disk
    have synced := OK.fullySynced_close log.accurate
    have reaches := log.reaches_of_later later synced
    constructor
    · exact later.readable numbered.readable
    · intro entry mem
      exact (numbered.acked entry mem).mono later.held
    · rintro _ ⟨⟩
      refine log.of_synced rfl (by rw [Segment.close_fst]) rfl ?_
        (later.fullySynced synced log.others) (by rintro ⟨⟩) ?_
        (fun entry mem => reaches entry (mem_append_right _ mem))
      · rw [Segment.close_fst, later.content]
        exact log.intact
      · intro entry mem
        exact mem_append.mpr ((mem_append.mp mem).imp_right (mem_append_right _))
    · rintro ⟨⟩

end

theorem crash (numbered : s.Numbered) (kept : ℕ → ℕ) (torn : Prop) :
    Numbered { s with disk := s.disk.crash kept, wal := none, batches := [], torn := torn } := by
  constructor
  · exact numbered.readable.crash kept
  · exact fun entry mem => (numbered.acked entry mem).mono fun r held => held.crash kept
  · exact nofun
  · refine fun _ => ⟨rfl, fun id file known => ?_⟩
    rw [Dir.lookup_crash] at known
    obtain ⟨before, -, rfl⟩ := map_eq_some_iff.mp known
    rfl

theorem step (numbered : s.Numbered) (small : ∀ w ∈ s.wal, w.nextId < 2 ^ 64) {event : Event}
    (clean : s.Clean event) (eq : s.step event = some s') : s'.Numbered := by
  cases System.moves_of_step eq with
  | openWAL idle opened => exact numbered.openWAL clean idle opened
  | @write w _ _ running room => exact numbered.write running room (small w running) clean
  | nonePending => exact numbered
  | takePending running => exact numbered.takePending running
  | syncBatch running taken => exact numbered.syncBatch running taken _
  | close running => exact numbered.close running
  | crash kept => exact numbered.crash kept _

/-! ## Checkpoints -/

theorem issued_eq (running : s.wal = some w) :
    s.issued = s.acked ++ (w.pendingSync ++ s.batches.flatten) := by
  rw [issued, running]
  rfl

/-- A checkpoint syncs all files, so that the records in the files that it leaves are on
disk. -/
theorem checkpoint (numbered : s.Numbered) (running : s.wal = some w) {seq : ℕ}
    (smallId : w.nextId < 2 ^ 64) (small : seq < 2 ^ 64)
    (whole : w.Rotates (checkpointRecord seq) → Whole (s.disk.content w.nextId))
    (leaves : w.activeBy seq ∉ w.removedBy seq)
    (retains : ∀ entry ∈ s.issued, ∃ id ∉ w.removedBy seq, ∃ r : Record,
      r.Reaches entry.sequence ∧ Begins (s.disk.content id) r) :
    Numbered { s with
      wal := some (w.checkpoint s.disk seq).1.1
      disk := (w.checkpoint s.disk seq).1.2 } := by
  have log := numbered.running w running
  rcases WAL.checkpoint_cases s.disk log.segmentSize smallId small with
    ⟨-, failed⟩ | ⟨usable, w₁, disk₁, puts, done⟩
  · rw [failed, ← running]
    exact numbered
  · rw [done]
    obtain ⟨wrote, log₁⟩ := log.puts numbered.readable smallId
      (fun _ => placed_checkpointRecord small) whole usable puts
    obtain ⟨active, removed⟩ := puts.checkpoint
    have later := w₁.active.later_sync disk₁
    have synced : ∀ id, (w₁.purge disk₁ seq).2.FullySynced id :=
      fun id => (log₁.fullySynced_sync id).of_lookup fun _ known => WAL.lookup_of_removeSealed known
    have content : ∀ id ∉ w.removedBy seq,
        (w₁.purge disk₁ seq).2.content id = disk₁.content id := by
      intro id kept
      rw [← removed] at kept
      rw [WAL.purge, WAL.content_removeSealed kept, later.content]
    have reaches : ∀ entry ∈ s.acked ++ (w.pendingSync ++ s.batches.flatten),
        (w₁.purge disk₁ seq).2.Reaches entry.sequence := by
      intro entry mem
      rw [← issued_eq running] at mem
      obtain ⟨id, kept, r, shows, begins⟩ := retains entry mem
      refine ⟨r, shows, (synced id).held ?_⟩
      rw [content id kept]
      exact begins.mono (puts.content_prefix id)
    constructor
    · exact (later.readable wrote.readable).of_lookup fun _ _ => WAL.lookup_of_removeSealed
    · exact fun entry mem => reaches entry (mem_append_left _ mem)
    · rintro _ ⟨⟩
      refine log₁.of_synced rfl (by rw [WAL.purge, Segment.sync_fst]) rfl ?_ synced ?_
        (fun _ mem => mem) ?_
      · have id : (w₁.purge disk₁ seq).1.active.id = w₁.active.id := by
          rw [WAL.purge, Segment.sync_fst]
        rw [id, content _ (active ▸ leaves)]
        exact log₁.intact
      · rw [WAL.purge, Segment.sync_fst]
        exact log₁.opened
      · rw [WAL.purge, puts.pendingSync_eq]
        exact fun entry mem => reaches entry (mem_append_right _ mem)
    · rintro ⟨⟩

end System.Numbered

/-! ## Runs -/

namespace Journal

variable {s s' : Journal} {w w' : WAL} {event : JournalEvent}

theorem numbered_step (linked : s.unlinked = false) (numbered : s.system.Numbered)
    (retains : s.Retains event) (eq : s.step event = some s') :
    s'.unlinked = false ∧ s'.system.Numbered := by
  cases event with
  | system event =>
    obtain ⟨small, system, stepped, rfl⟩ := (step_system_iff linked).mp eq
    exact ⟨linked, numbered.step small retains stepped⟩
  | checkpoint seq =>
    obtain ⟨w, running, smallId, small, rfl⟩ :=
      step_checkpoint linked (fun w running => (retains.2 w running).2.1) eq
    obtain ⟨whole, leaves, left⟩ := retains.2 w running
    exact ⟨linked, numbered.checkpoint running smallId small whole leaves left⟩

/-- The number of a write is above all earlier ones, as long as a record is left for each of
these. -/
theorem sequence_lt_of_retains {disk' : Dir} {data : Bytes} {ts : HLCTimestamp} {entry : WALEntry}
    (reachable : Runs.Reachable step Retains {} s) (running : s.system.wal = some w)
    (done : w.write s.system.disk data ts = ((w', disk'), .ok entry)) :
    ∀ earlier ∈ s.system.issued, earlier.sequence < entry.sequence := by
  have invariant : s.unlinked = false ∧ s.system.Numbered :=
    reachable.invariant (I := fun s => s.unlinked = false ∧ s.system.Numbered)
      ⟨rfl, .start⟩ fun _ _ _ ⟨linked, numbered⟩ retains eq =>
        numbered_step linked numbered retains eq
  intro earlier mem
  rw [System.Numbered.issued_eq running] at mem
  cases WAL.writes_of_write done with
  | done => exact (invariant.2.running w running).below earlier mem

/-- The files that are opened for appending are empty, and a checkpoint removes nothing. -/
def Fresh (s : Journal) : JournalEvent → Prop
  | .system event => s.system.Fresh event
  | .checkpoint seq => s.system.batches = [] ∧ s.system.issued = [] ∧ ∀ w ∈ s.system.wal,
    ¬ w.Rotates (checkpointRecord seq) ∧ w.removedBy seq = []

instance (s : Journal) : DecidablePred s.Fresh := by
  rintro ⟨⟩ <;> delta Journal.Fresh <;> infer_instance

theorem Fresh.retains (fresh : s.Fresh event) : s.Retains event := by
  cases event with
  | system event => exact System.Fresh.clean fresh
  | checkpoint seq =>
    obtain ⟨idle, nothing, fresh⟩ := fresh
    refine ⟨idle, fun w running => ?_⟩
    obtain ⟨stays, none⟩ := fresh w running
    rw [nothing, none]
    exact ⟨fun full => absurd full stays, not_mem_nil, nofun⟩

/-- A write that is acknowledged before a crash, in a log with a checkpoint. -/
theorem sequence_lt_of_retains_reopened :
    ∃ s w w' disk' data ts entry, Runs.Reachable step Retains {} s ∧ s.system.wal = some w ∧
      w.write s.system.disk data ts = ((w', disk'), .ok entry) ∧ s.system.acked ≠ [] ∧
      ∀ earlier ∈ s.system.issued, earlier.sequence < entry.sequence := by
  obtain ⟨s, reachable, acked, w, running, notClosed, fits⟩ := Runs.exists_of_exec step Fresh {}
    [.system .openWAL, .checkpoint 0, .system (.write [120] 7), .system .takePending,
      .system (.syncBatch 0), .system (.crash fun _ => 0), .system .openWAL]
    (P := fun s => s.system.acked ≠ [] ∧ ∃ w, s.system.wal = some w ∧ w.closed = false ∧
      ¬ w.Rotates (w.nextRecord [121] 8)) (by decide +kernel)
  have reachable := reachable.mono fun _ _ => Fresh.retains
  have done := WAL.write_of_fits s.system.disk notClosed fits
  exact ⟨s, w, _, _, [121], 8, _, reachable, running, done, acked,
    sequence_lt_of_retains reachable running done⟩

/-! ## A number that is used twice -/

/-- A log that a checkpoint has left without data starts again at one. -/
theorem reopened_at_one {dir : Dir} {seq : ℕ} (small : seq < 2 ^ 64)
    (files : ∀ id file, dir.lookup id = some file →
      file.bytes = (Segment.header 2).encode ++ (checkpointRecord seq).encode) :
    ∃ w dir', WAL.openWAL (dir.crash fun _ => 100) = .ok (w, dir') ∧ w.nextSeq = 1 ∧
      w.closed = false ∧ w.active.size = 29 ∧ w.active.maxSize = defaultSegmentSize := by
  have placed : ∀ r ∈ [Segment.header 2, checkpointRecord seq], Placed 0 r := by
    intro r mem
    rcases mem_pair.mp mem with rfl | rfl
    · exact (placed_header (by decide)).zero
    · exact placed_checkpointRecord small
  have bytes : ∀ id file, (dir.crash fun _ => 100).lookup id = some file →
      file.bytes = [Segment.header 2, checkpointRecord seq].flatMap Record.encode ∧
        file.synced = file.bytes.length := by
    intro id file known
    rw [Dir.lookup_crash] at known
    obtain ⟨before, present, rfl⟩ := map_eq_some_iff.mp known
    have short : before.bytes.length ≤ max before.synced 100 := by
      have digits := length_toDigits_le small
      have header : (Nat.toDigits 10 2).length = 1 := by decide
      rw [files id before present, length_append, length_header, length_checkpointRecord]
      omega
    rw [File.crash, take_of_length_le short, files id before present]
    simp
  have readable : (dir.crash fun _ => 100).Readable := fun id file known =>
    ⟨(show Intact file.bytes from ⟨_, placed, (bytes id file known).1⟩).cut,
      (bytes id file known).2.le⟩
  obtain ⟨⟨w, dir'⟩, opened⟩ := readable.openWAL
  obtain ⟨next, recovered, -, -, -, nextSeq, -, maxSize, size, -, closed, -⟩ :=
    WAL.openWAL_eq opened
  have noData : ∀ id file, (dir.crash fun _ => 100).lookup id = some file →
      ∀ records, readAll file.bytes = .ok records → ∀ r ∈ records, r.type = .data →
        r.sequence = 0 := by
    intro id file known records read r mem isData
    rw [(bytes id file known).1,
      readAll_flatMap_encode fun r mem => (placed r mem).storable] at read
    cases read
    rcases mem_pair.mp mem with rfl | rfl
    · nomatch isData
    · nomatch isData
  obtain ⟨maxSeq, rfl, rfl⟩ := WAL.recover_induction (P := fun maxSeq => maxSeq = 0) rfl noData
    recovered
  exact ⟨w, dir', opened, nextSeq, closed, size.trans (length_header 1), maxSize⟩

/-- A record that fills the segment is acknowledged and checkpointed.  The record of the
checkpoint makes the log rotate, and the segment is removed. -/
theorem exists_only_checkpoint :
    ∃ s w entry, Runs.Reachable step (fun _ _ => True) {} s ∧ s.unlinked = false ∧
      s.system.wal = some w ∧ w.sealed = [] ∧ entry ∈ s.system.acked ∧ entry.sequence = 1 ∧
      ∀ id file, s.system.disk.lookup id = some file →
        file.bytes = (Segment.header 2).encode ++ (checkpointRecord 1).encode := by
  obtain ⟨w, dir, data, s₁, opened, nextSeq, -, -, wrote, lone₁, size, batches₁, -⟩ :=
    lone_written (show 54 + 67108810 ≤ defaultSegmentSize by decide)
  have stepped : System.step {} .openWAL = some { disk := dir, wal := some w } := by
    simp only [System.step, opened]
  have opens : step {} (.system .openWAL) =
      some { system := { disk := dir, wal := some w } } :=
    (step_system_iff rfl).mpr ⟨by rintro _ ⟨⟩, _, stepped, rfl⟩
  have waits : (w.afterWrite data 0).pendingSync ≠ [] :=
    concat_ne_nil _ _
  obtain ⟨s₂, takes, lone₂, batches₂, -⟩ := lone₁.takePending waits
  rw [batches₁] at batches₂
  obtain ⟨s₃, w₃, syncs, lone₃, acked₃, size₃, last₃⟩ := lone₂.syncBatch batches₂
  have full : w₃.Rotates (checkpointRecord 1) := by
    rw [lone₃.rotates_checkpointRecord, size₃, size]
    decide
  have old : w₃.active.lastSeq ≤ 1 := by
    rw [last₃]
    exact nextSeq.le
  obtain ⟨s₄, w₄, checkpoints, running, sealed, acked₄, linked, files⟩ :=
    lone₃.checkpoint_full (show 1 < 2 ^ 64 by decide) full old
  refine ⟨s₄, w₄, w.nextEntry data 0, ?_, linked, running, sealed, ?_, nextSeq, files⟩
  · exact .next (.next (.next (.next (.next .start trivial opens) trivial wrote) trivial takes)
      trivial syncs) trivial checkpoints
  · rw [acked₄, acked₃]
    exact mem_append_right _ mem_concat_self

/-- After a crash the next process gives the number of an acknowledged write again. -/
theorem sequence_reused :
    ∃ s w w' disk' data ts entry earlier, Runs.Reachable step (fun _ _ => True) {} s ∧
      s.system.wal = some w ∧ w.write s.system.disk data ts = ((w', disk'), .ok entry) ∧
      earlier ∈ s.system.acked ∧ ¬ earlier.sequence < entry.sequence := by
  obtain ⟨s₁, w₁, earlier, reachable, linked, running, sealed, acked, first, files⟩ :=
    exists_only_checkpoint
  have small : ∀ w ∈ s₁.system.wal, w.nextId < 2 ^ 64 := by
    intro w running'
    cases running'.symm.trans running
    rw [WAL.nextId, sealed]
    decide
  obtain ⟨s₂, crashes, idle, disk, acked₂, linked₂⟩ :
      ∃ s₂, s₁.step (.system (.crash fun _ => 100)) = some s₂ ∧ s₂.system.wal = none ∧
        s₂.system.disk = s₁.system.disk.crash (fun _ => 100) ∧
        s₂.system.acked = s₁.system.acked ∧ s₂.unlinked = false :=
    ⟨_, (step_system_iff linked).mpr ⟨small, _, rfl, rfl⟩, rfl, rfl, rfl, linked⟩
  obtain ⟨w, dir, opened, nextSeq, notClosed, size, maxSize⟩ :=
    reopened_at_one (show 1 < 2 ^ 64 by decide) files
  have stepped : s₂.system.step .openWAL = some { s₂.system with wal := some w, disk := dir } := by
    simp only [System.step, idle, disk, opened]
  have small₂ : ∀ w ∈ s₂.system.wal, w.nextId < 2 ^ 64 := by
    rw [idle]
    rintro _ ⟨⟩
  have opens := (step_system_iff linked₂).mpr ⟨small₂, _, stepped, rfl⟩
  have fits : ¬ w.Rotates (w.nextRecord [] 0) := by
    rw [WAL.Rotates, length_nextRecord, size, maxSize]
    decide
  refine ⟨_, w, _, _, [], 0, _, earlier, (reachable.next trivial crashes).next trivial opens, rfl,
    WAL.write_of_fits dir notClosed fits, ?_, ?_⟩
  · rw [acked₂]
    exact acked
  · show ¬ earlier.sequence < w.nextSeq
    rw [first, nextSeq]
    decide

end Journal

end Hermes.Storage.Wal
