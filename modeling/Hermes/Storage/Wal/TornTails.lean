import Hermes.Data.Runs
import Hermes.Storage.Wal.Placement

/-!
# Torn tails

A crash may cut a file inside a record.  `ReadAll` stops there, so a torn file can be
read; but `Open` does not cut the torn bytes off, and a segment that is opened again is
appended to behind them.  As long as that does not happen, the log can always be opened
and shows every record whose write was acknowledged.
-/

namespace Hermes.Storage.Wal

open AList List Option
open Clock (HLCTimestamp)

/-- The record of an entry. -/
def WALEntry.record (entry : WALEntry) : Record where
  type := entry.type
  sequence := entry.sequence
  data := encodeEntryData entry.timestamp entry.data

/-! ## Bytes -/

/-- Whole records of the log. -/
def Intact (bytes : Bytes) : Prop :=
  ∃ records : List Record, (∀ r ∈ records, Placed 0 r) ∧ bytes = records.flatMap Record.encode

/-- What is left of whole records when they are cut somewhere. -/
def Cut (bytes : Bytes) : Prop :=
  ∃ (records : List Record) (n : ℕ), (∀ r ∈ records, Placed 0 r) ∧
    bytes = (records.flatMap Record.encode).take n

/-- The bytes begin with whole records, and a given one is among these. -/
def Begins (bytes : Bytes) (r : Record) : Prop :=
  ∃ records : List Record, (∀ r ∈ records, r.Storable) ∧ r ∈ records ∧
    records.flatMap Record.encode <+: bytes

theorem Placed.zero {id : ℕ} {r : Record} (placed : Placed id r) : Placed 0 r where
  storable := placed.storable
  data isData := ⟨Nat.zero_le _, (placed.data isData).2⟩

theorem Intact.nil : Intact [] :=
  ⟨[], nofun, rfl⟩

variable {bytes : Bytes} {r : Record}

theorem Intact.append (intact : Intact bytes) (placed : Placed 0 r) :
    Intact (bytes ++ r.encode) ∧ Begins (bytes ++ r.encode) r := by
  obtain ⟨records, all, rfl⟩ := intact
  have same : records.flatMap Record.encode ++ r.encode =
      (records ++ [r]).flatMap Record.encode := by
    rw [flatMap_append, flatMap_singleton]
  have all' : ∀ r' ∈ records ++ [r], Placed 0 r' := by
    rw [forall_mem_append, forall_mem_singleton]
    exact ⟨all, placed⟩
  rw [same]
  exact ⟨⟨_, all', rfl⟩, _, fun r' mem => (all' r' mem).storable,
    mem_concat_self, prefix_rfl⟩

theorem Intact.cut (intact : Intact bytes) : Cut bytes := by
  obtain ⟨records, all, rfl⟩ := intact
  exact ⟨records, _, all, take_length.symm⟩

theorem Cut.take (cut : Cut bytes) (n : ℕ) : Cut (bytes.take n) := by
  obtain ⟨records, m, all, rfl⟩ := cut
  exact ⟨records, min n m, all, take_take⟩

/-- A cut file can be read. -/
theorem Cut.readAll (cut : Cut bytes) :
    ∃ records, readAll bytes = .ok records ∧ ∀ r ∈ records, Placed 0 r := by
  obtain ⟨records, n, all, rfl⟩ := cut
  exact ⟨_, readAll_take (fun r mem => (all r mem).storable) n,
    fun r mem => all r (mem_of_mem_take mem)⟩

theorem Cut.intact (cut : Cut bytes) (whole : Whole bytes) : Intact bytes := by
  obtain ⟨records, storable, eq⟩ := whole
  obtain ⟨read, known, placed⟩ := cut.readAll
  rw [eq, readAll_flatMap_encode storable] at known
  cases known
  exact ⟨records, placed, eq⟩

theorem Begins.mono {bytes' : Bytes} (begins : Begins bytes r) (longer : bytes <+: bytes') :
    Begins bytes' r := by
  obtain ⟨records, storable, mem, before⟩ := begins
  exact ⟨records, storable, mem, before.trans longer⟩

variable {records read : List Record}

theorem readRecords_flatMap_append (storable : ∀ r ∈ records, r.Storable)
    {rest : Bytes} {rounds : ℕ}
    (known : readRecords (records.length + rounds) (records.flatMap Record.encode ++ rest)
      = .ok read) : records <+: read := by
  induction records generalizing read with
  | nil => exact nil_prefix
  | cons r records ih =>
    rw [length_cons, Nat.add_right_comm, flatMap_cons, append_assoc,
      readRecords_encode_append (storable r mem_cons_self)] at known
    obtain ⟨read', known', same⟩ := bind_eq_ok.mp known
    cases same
    exact (cons_prefix_cons.mpr
      ⟨rfl, ih (fun r mem => storable r (mem_cons_of_mem _ mem)) known'⟩)

theorem length_le_flatMap_encode (records : List Record) :
    records.length ≤ (records.flatMap Record.encode).length := by
  induction records with
  | nil => exact le_rfl
  | cons r rest ih =>
    rw [flatMap_cons, length_append, length_cons, Record.length_encode, headerSize]
    omega

theorem Begins.mem_readAll (begins : Begins bytes r) (known : readAll bytes = .ok read) :
    r ∈ read := by
  obtain ⟨records, storable, mem, rest, rfl⟩ := begins
  have enough : records.length ≤ (records.flatMap Record.encode ++ rest).length := by
    rw [length_append]
    exact Nat.le_add_right_of_le (length_le_flatMap_encode records)
  obtain ⟨rounds, eq⟩ := Nat.exists_eq_add_of_le enough
  unfold readAll at known
  rw [eq] at known
  exact (readRecords_flatMap_append storable known).subset mem

theorem not_begins_nil : ¬ Begins [] r := by
  rintro ⟨records, -, mem, before⟩
  have short := length_le_flatMap_encode records
  rw [prefix_nil.mp before] at short
  rw [length_eq_zero_iff.mp (Nat.le_zero.mp short)] at mem
  nomatch mem

/-! ## Directories -/

variable {dir dir' : Dir}

namespace Dir

variable {id q : ℕ}

/-- All files can be read, and none is synced beyond its end. -/
def Readable (dir : Dir) : Prop :=
  ∀ id file, dir.lookup id = some file → Cut file.bytes ∧ file.synced ≤ file.bytes.length

/-- A record is on disk, whatever a crash does. -/
def Held (dir : Dir) (r : Record) : Prop :=
  ∃ id file, dir.lookup id = some file ∧ Begins (file.bytes.take file.synced) r

def FullySynced (dir : Dir) (id : ℕ) : Prop :=
  ∀ file, dir.lookup id = some file → file.synced = file.bytes.length

theorem content_of_lookup {file : File} (known : dir.lookup id = some file) :
    dir.content id = file.bytes := by
  rw [content, known]
  rfl

theorem lookup_append_self (bytes : Bytes) :
    (dir.append id bytes).lookup id = some {
      bytes := dir.content id ++ bytes
      synced := ((dir.lookup id).getD {}).synced } := by
  rw [append, lookup_insert, content]
  cases dir.lookup id <;> rfl

theorem lookup_append_of_ne (bytes : Bytes) (other : q ≠ id) :
    (dir.append id bytes).lookup q = dir.lookup q :=
  lookup_insert_ne other

theorem content_append_of_ne (bytes : Bytes) (other : q ≠ id) :
    (dir.append id bytes).content q = dir.content q := by
  rw [content, lookup_append_of_ne bytes other, content]

/-- Writing a record behind the records of a file. -/
theorem content_append_record (content : dir.content id = records.flatMap Record.encode)
    (r : Record) :
    (dir.append id r.encode).content id = (records ++ [r]).flatMap Record.encode := by
  rw [content_append, content, flatMap_append, flatMap_singleton]

theorem lookup_sync (q : ℕ) :
    (dir.sync id).lookup q = (dir.lookup q).map fun file =>
      if q = id then { file with synced := file.bytes.length } else file := by
  unfold sync
  split
  · rename_i absent
    by_cases same : q = id
    · rw [same, absent]
      rfl
    · simp [same]
  · rename_i file present
    by_cases same : q = id
    · rw [same, present]
      simp
    · simp [same]

theorem lookup_crash (kept : ℕ → ℕ) (q : ℕ) :
    (dir.crash kept).lookup q = (dir.lookup q).map fun file => file.crash (kept q) :=
  dlookup_map₂ (f := fun id (file : File) => file.crash (kept id)) q

theorem content_sync : (dir.sync id).content q = dir.content q := by
  unfold content
  rw [lookup_sync, Option.map_map]
  congr 2
  split <;> rfl

theorem Readable.intact (readable : dir.Readable) (whole : Whole (dir.content id)) :
    Intact (dir.content id) := by
  unfold content at whole ⊢
  cases known : dir.lookup id with
  | none => exact .nil
  | some file =>
    rw [known] at whole
    exact (readable id file known).1.intact whole

theorem Readable.append (readable : dir.Readable) (intact : Intact (dir.content id))
    (placed : Placed 0 r) : (dir.append id r.encode).Readable := by
  intro q file known
  by_cases same : q = id
  · subst same
    rw [lookup_append_self] at known
    cases known
    refine ⟨(intact.append placed).1.cut, ?_⟩
    rw [length_append, content]
    cases present : dir.lookup q with
    | none => exact Nat.zero_le _
    | some file => exact Nat.le_add_right_of_le (readable q file present).2
  · rw [lookup_append_of_ne _ same] at known
    exact readable q file known

theorem intact_append (intact : Intact (dir.content id)) (placed : Placed 0 r) :
    Intact ((dir.append id r.encode).content id) ∧
      Begins ((dir.append id r.encode).content id) r := by
  rw [content_append]
  exact intact.append placed

/-- Appending leaves the synced bytes alone. -/
theorem Held.append (held : dir.Held r) (readable : dir.Readable) (bytes : Bytes) :
    (dir.append id bytes).Held r := by
  obtain ⟨q, file, known, begins⟩ := held
  by_cases same : q = id
  · subst same
    refine ⟨q, _, lookup_append_self bytes, ?_⟩
    rw [content_of_lookup known, known]
    dsimp only [getD_some]
    rw [take_append_of_le_length (readable q file known).2]
    exact begins
  · refine ⟨q, file, ?_, begins⟩
    rw [lookup_append_of_ne _ same]
    exact known

theorem Readable.crash (readable : dir.Readable) (kept : ℕ → ℕ) : (dir.crash kept).Readable := by
  intro q file known
  rw [lookup_crash] at known
  obtain ⟨before, present, rfl⟩ := map_eq_some_iff.mp known
  exact ⟨(readable q before present).1.take _, le_rfl⟩

/-- A crash keeps the synced bytes. -/
theorem Held.crash (held : dir.Held r) (kept : ℕ → ℕ) : (dir.crash kept).Held r := by
  obtain ⟨q, file, known, begins⟩ := held
  refine ⟨q, file.crash (kept q), ?_, begins.mono ?_⟩
  · rw [lookup_crash, known]
    rfl
  · unfold File.crash
    rw [take_length]
    exact take_prefix_take_left (le_max_left _ _)

/-! ### Syncing -/

/-- A directory in which some more files have been synced. -/
structure Later (dir dir' : Dir) : Prop where
  content : ∀ q, dir'.content q = dir.content q
  readable : dir.Readable → dir'.Readable
  held : ∀ r, dir.Held r → dir'.Held r
  synced : ∀ q, dir.FullySynced q → dir'.FullySynced q

theorem Later.refl (dir : Dir) : Later dir dir :=
  ⟨fun _ => rfl, id, fun _ => id, fun _ => id⟩

theorem Later.trans {dir'' : Dir} (first : Later dir dir') (second : Later dir' dir'') :
    Later dir dir'' where
  content q := (second.content q).trans (first.content q)
  readable readable := second.readable (first.readable readable)
  held r held := second.held r (first.held r held)
  synced q synced := second.synced q (first.synced q synced)

theorem later_sync (dir : Dir) (id : ℕ) : Later dir (dir.sync id) where
  content _ := content_sync
  readable := by
    intro readable q file known
    rw [lookup_sync] at known
    obtain ⟨before, present, rfl⟩ := map_eq_some_iff.mp known
    obtain ⟨cut, synced⟩ := readable q before present
    split
    · exact ⟨cut, le_rfl⟩
    · exact ⟨cut, synced⟩
  held := by
    rintro r ⟨q, file, known, begins⟩
    refine ⟨q, if q = id then { file with synced := file.bytes.length } else file, ?_,
      begins.mono ?_⟩
    · rw [lookup_sync, known]
      rfl
    · split
      · rw [take_length]
        exact take_prefix _ _
      · exact prefix_rfl
  synced := by
    intro q synced file known
    rw [lookup_sync] at known
    obtain ⟨before, present, rfl⟩ := map_eq_some_iff.mp known
    split
    · rfl
    · exact synced before present

/-- When the file that was written to has been synced, all files are. -/
theorem Later.fullySynced (later : Later dir dir') (own : dir'.FullySynced id)
    (others : ∀ q, q ≠ id → dir.FullySynced q) (q : ℕ) : dir'.FullySynced q := by
  by_cases same : q = id
  · rw [same]
    exact own
  · exact later.synced q (others q same)

theorem fullySynced_sync (dir : Dir) (id : ℕ) : (dir.sync id).FullySynced id := by
  intro file known
  rw [lookup_sync] at known
  obtain ⟨before, present, rfl⟩ := map_eq_some_iff.mp known
  rw [if_pos rfl]

/-- Whatever a synced file begins with is held. -/
theorem FullySynced.held (synced : dir.FullySynced id) (begins : Begins (dir.content id) r) :
    dir.Held r := by
  unfold Dir.content at begins
  cases known : dir.lookup id with
  | none =>
    rw [known] at begins
    exact absurd begins not_begins_nil
  | some file =>
    rw [known] at begins
    refine ⟨id, file, known, ?_⟩
    rw [synced file known, take_length]
    exact begins

end Dir

/-! ## Segments -/

namespace Segment

/-- A segment that believes to be synced is. -/
def Accurate (s : Segment) (dir : Dir) : Prop :=
  s.closed = true ∨ s.syncNeeded = false → dir.FullySynced s.id

variable {s : Segment}

theorem Accurate.of_dirty (opened : s.closed = false) (dirty : s.syncNeeded = true) :
    s.Accurate dir := by
  rintro (closed | synced)
  · rw [opened] at closed
    nomatch closed
  · rw [dirty] at synced
    nomatch synced

theorem later_sync (s : Segment) (dir : Dir) : Dir.Later dir (s.sync dir).2 := by
  unfold sync
  split
  · exact .refl dir
  · exact Dir.later_sync dir s.id

/-- After `Sync` the file is synced. -/
theorem Accurate.sync (accurate : s.Accurate dir) : (s.sync dir).2.FullySynced s.id := by
  unfold Segment.sync
  split
  · rename_i skipped
    apply accurate
    simpa [or_comm] using skipped
  · exact Dir.fullySynced_sync dir s.id

theorem later_close (s : Segment) (dir : Dir) : Dir.Later dir (s.close dir).2 := by
  unfold close
  split
  · exact .refl dir
  · split
    · exact Dir.later_sync dir s.id
    · exact .refl dir

theorem Accurate.close (accurate : s.Accurate dir) : (s.close dir).2.FullySynced s.id := by
  unfold Segment.close
  split
  · rename_i closed
    exact accurate (.inl closed)
  · split
    · exact Dir.fullySynced_sync dir s.id
    · rename_i clean
      exact accurate (.inr (Bool.eq_false_iff.mpr clean))

end Segment

/-! ## The condition -/

/-- A segment file that is opened for appending holds whole records: the one that `Open`
numbers by the next sequence number, and the one that a rotation comes to.  Nothing is written
between the halves of `flushPendingSync`. -/
def System.Clean (s : System) : Event → Prop
  | .openWAL => ∀ next, WAL.recover s.disk = .ok next → Whole (s.disk.content next)
  | .write data ts => s.batches = [] ∧ ∀ w, s.wal = some w → w.closed = false →
    let entry : WALEntry := { sequence := w.nextSeq, timestamp := ts, data := data }
    w.active.maxSize < w.active.size + entry.record.encode.length →
      Whole (s.disk.content w.nextId)
  | _ => True

/-! ## The invariant -/

/-- The log of a process. -/
structure Live (disk : Dir) (batches : List (List WALEntry)) (w : WAL) : Prop where
  session : Session w
  intact : Intact (disk.content w.active.id)
  accurate : w.active.Accurate disk
  running : w.closed = false → w.active.closed = false
  waiting : ∀ entry ∈ w.pendingSync ++ batches.flatten,
    Begins (disk.content w.active.id) entry.record ∨ disk.Held entry.record

structure System.OK (s : System) : Prop where
  readable : s.disk.Readable
  acked : ∀ entry ∈ s.acked, s.disk.Held entry.record
  live : ∀ w, s.wal = some w → Live s.disk s.batches w
  idle : s.wal = none → s.batches = []

/-! ## Opening -/

/-- The next sequence number of a directory that can be read. -/
theorem Dir.Readable.recover (readable : dir.Readable) :
    ∃ next, WAL.recover dir = .ok next ∧ 1 ≤ next ∧ next < 2 ^ 64 := by
  have reads : ∀ file ∈ dir.entries, ∃ records, readAll file.2.bytes = .ok records := by
    rintro ⟨id, file⟩ mem
    obtain ⟨records, read, -⟩ := (readable id file (mem_lookup_iff.mpr mem)).1.readAll
    exact ⟨records, read⟩
  obtain ⟨maxSeq, recovered⟩ : ∃ maxSeq, WAL.recover dir = .ok (maxSeq + 1) := by
    refine (foldlM_succeeds (P := fun _ => True) trivial ?_).elim fun maxSeq loop =>
      ⟨maxSeq, bind_eq_ok.mpr ⟨maxSeq, loop.1, rfl⟩⟩
    intro maxSeq file _ mem
    obtain ⟨records, read⟩ := reads file mem
    exact ⟨WAL.maxDataSeq maxSeq records, by rw [read], trivial⟩
  refine ⟨maxSeq + 1, recovered, WAL.recover_lt ?_ recovered⟩
  intro id file known records read r mem isData
  obtain ⟨records', read', placed⟩ := (readable id file known).1.readAll
  cases read.symm.trans read'
  exact ((placed r mem).data isData).2

/-- `Open` succeeds on a directory that can be read. -/
theorem Dir.Readable.openWAL (readable : dir.Readable) : Succeeds (WAL.openWAL dir) := by
  obtain ⟨next, recovered, -, small⟩ := readable.recover
  have created := Segment.new_eq dir small
  refine Succeeds.bind ⟨next, recovered⟩ ?_
  intro next' recovered'
  cases recovered.symm.trans recovered'
  refine Succeeds.bind ⟨_, created⟩ ?_
  exact fun _ _ => .ok _

/-- What `Open` does to the files, if the one that it appends to holds whole records. -/
structure Opened (disk disk' : Dir) (w : WAL) : Prop where
  readable : disk'.Readable
  held : ∀ r, disk.Held r → disk'.Held r
  intact : Intact (disk'.content w.active.id)
  accurate : w.active.Accurate disk'
  opened : w.active.closed = false

variable {disk disk' : Dir}

theorem Opened.of_openWAL {w : WAL} (readable : disk.Readable)
    (clean : ∀ next, WAL.recover disk = .ok next → Whole (disk.content next))
    (opened : WAL.openWAL disk = .ok (w, disk')) : Opened disk disk' w := by
  obtain ⟨next, recovered, -, small⟩ := readable.recover
  obtain ⟨next', recovered', rfl, -, id, -, -, -, -, -, -, active, dirty⟩ := WAL.openWAL_eq opened
  cases recovered.symm.trans recovered'
  have header := (placed_header small).zero
  have intact := readable.intact (clean next recovered)
  constructor
  · exact readable.append intact header
  · exact fun r held => held.append readable _
  · rw [id]
    exact (Dir.intact_append intact header).1
  · exact .of_dirty active dirty
  · exact active

variable {event : Event}

namespace System.OK

variable {s s' : System} {w w' : WAL}

theorem openWAL (ok : s.OK) (clean : s.Clean .openWAL) (idle : s.wal = none)
    (opened : WAL.openWAL s.disk = .ok (w, disk)) : OK { s with wal := some w, disk := disk } := by
  have files := Opened.of_openWAL ok.readable clean opened
  obtain ⟨next, recovered, positive, small⟩ := ok.readable.recover
  obtain ⟨-, -, -, -, -, -, -, -, -, pending, -⟩ := WAL.openWAL_eq opened
  constructor
  · exact files.readable
  · exact fun entry mem => files.held _ (ok.acked entry mem)
  · rintro w' ⟨⟩
    refine ⟨.of_openWAL opened recovered positive small, files.intact, files.accurate,
      fun _ => files.opened, ?_⟩
    intro entry mem
    rw [pending, ok.idle idle] at mem
    nomatch mem
  · exact nofun

/-! ## Writing, syncing, closing and crashing -/

/-- What a rotation to a file of whole records does: the old segment is synced, and so
everything in it is held. -/
structure Rotated (disk : Dir) (w : WAL) : Prop where
  readable : (w.rotatedDir disk).Readable
  intact : Intact ((w.rotatedDir disk).content w.nextId)
  held : ∀ r, disk.Held r → (w.rotatedDir disk).Held r
  active : ∀ r, Begins (disk.content w.active.id) r → (w.rotatedDir disk).Held r

theorem Rotated.of_whole (readable : disk.Readable) (accurate : w.active.Accurate disk)
    (small : w.nextId < 2 ^ 64) (whole : Whole (disk.content w.nextId)) : Rotated disk w := by
  have later := w.active.later_sync disk
  have readable' := later.readable readable
  have header := (placed_header small).zero
  have intact : Intact ((w.active.sync disk).2.content w.nextId) := by
    rw [later.content]
    exact readable.intact whole
  constructor
  · exact readable'.append intact header
  · exact (Dir.intact_append intact header).1
  · exact fun r held => (later.held r held).append readable' _
  · intro r begins
    rw [← later.content] at begins
    exact (accurate.sync.held begins).append readable' _

/-- What writing a record does to the files. -/
structure Wrote (disk disk' : Dir) (w w' : WAL) (r : Record) (err : Option WalError) : Prop where
  readable : disk'.Readable
  held : ∀ r', disk.Held r' → disk'.Held r'
  intact : Intact (disk'.content w'.active.id)
  kept : ∀ r', Begins (disk.content w.active.id) r' →
    Begins (disk'.content w'.active.id) r' ∨ disk'.Held r'
  new : err = none → Begins (disk'.content w'.active.id) r

variable {err : Option WalError}

/-- A record that does not fit into the active segment goes to a file of whole records. -/
theorem Wrote.of_puts (readable : disk.Readable) (accurate : w.active.Accurate disk)
    (intact : Intact (disk.content w.active.id)) (maxSize : w.active.maxSize = defaultSegmentSize)
    (small : w.nextId < 2 ^ 64) (placed : r.encode.length ≤ defaultSegmentSize → Placed 0 r)
    (whole : w.Rotates r → Whole (disk.content w.nextId)) (puts : w.Puts disk r w' disk' err) :
    Wrote disk disk' w w' r err := by
  cases puts with
  | active fits =>
    have fits := not_lt.mp fits
    have placed := placed (maxSize ▸ Nat.le_of_add_left_le fits)
    constructor
    · exact readable.append intact placed
    · exact fun r' held => held.append readable _
    · exact (Dir.intact_append intact placed).1
    · intro r' begins
      left
      show Begins ((disk.append w.active.id r.encode).content w.active.id) r'
      rw [Dir.content_append]
      exact begins.mono (prefix_append _ _)
    · exact fun _ => (Dir.intact_append intact placed).2
  | rotated full fits =>
    have rotated := Rotated.of_whole readable accurate small (whole full)
    have placed := placed (Nat.le_of_add_left_le fits)
    constructor
    · exact rotated.readable.append rotated.intact placed
    · exact fun r' held => (rotated.held r' held).append rotated.readable _
    · exact (Dir.intact_append rotated.intact placed).1
    · exact fun r' begins => .inr ((rotated.active r' begins).append rotated.readable _)
    · exact fun _ => (Dir.intact_append rotated.intact placed).2
  | refused full _ =>
    have rotated := Rotated.of_whole readable accurate small (whole full)
    constructor
    · exact rotated.readable
    · exact rotated.held
    · exact rotated.intact
    · exact fun r' begins => .inr (rotated.active r' begins)
    · exact nofun

/-- When a batch has been answered, the entries that still wait are among those before. -/
theorem mem_of_mem_eraseIdx {pending : List WALEntry} {batches : List (List WALEntry)} {k : ℕ}
    {entry : WALEntry} (mem : entry ∈ pending ++ (batches.eraseIdx k).flatten) :
    entry ∈ pending ++ batches.flatten := by
  rcases mem_append.mp mem with first | rest
  · exact mem_append_left _ first
  · obtain ⟨batch, inRest, mem⟩ := mem_flatten.mp rest
    exact mem_append_right _
      (mem_flatten.mpr ⟨batch, List.mem_of_mem_eraseIdx inRest, mem⟩)

/-- Closing segments only syncs files. -/
theorem later_closeAll (segments done : List Segment) (dir : Dir) :
    Dir.Later dir (closeAll segments done dir).2 := by
  induction segments generalizing done dir with
  | nil => exact .refl dir
  | cons segment rest ih => exact (segment.later_close dir).trans (ih _ _)

/-- Closing a log syncs its files. -/
theorem later_close (w : WAL) (dir : Dir) :
    Dir.Later dir (w.active.close (closeAll w.sealed [] dir).2).2 :=
  (later_closeAll w.sealed [] dir).trans (w.active.later_close _)

theorem fullySynced_close (accurate : w.active.Accurate dir) :
    (w.active.close (closeAll w.sealed [] dir).2).2.FullySynced w.active.id :=
  Segment.Accurate.close fun clean =>
    (later_closeAll w.sealed [] dir).synced _ (accurate clean)

theorem start : OK {} where
  readable := fun id file known => by
    nomatch known
  acked := nofun
  live := nofun
  idle _ := rfl

section

variable (ok : s.OK)

include ok

/-- The state after a record has been written, or has not fitted. -/
theorem of_wrote (live : Live s.disk s.batches w) (wrote : Wrote s.disk disk' w w' r err)
    (session : Session w') (opened : w'.active.closed = false) (dirty : w'.active.syncNeeded = true)
    (pending : ∀ entry ∈ w'.pendingSync, entry ∈ w.pendingSync ∨ err = none ∧ entry.record = r) :
    OK { s with wal := some w', disk := disk' } := by
  constructor
  · exact wrote.readable
  · exact fun entry mem => wrote.held _ (ok.acked entry mem)
  · rintro _ ⟨⟩
    refine ⟨session, wrote.intact, .of_dirty opened dirty, fun _ => opened, ?_⟩
    intro entry mem
    have old : entry ∈ w.pendingSync ++ s.batches.flatten →
        Begins (disk'.content w'.active.id) entry.record ∨ disk'.Held entry.record := by
      intro mem
      rcases live.waiting entry mem with begins | held
      · exact wrote.kept _ begins
      · exact .inr (wrote.held _ held)
    rcases mem_append.mp mem with waiting | taken
    · rcases pending entry waiting with before | ⟨none, same⟩
      · exact old (mem_append_left _ before)
      · rw [same]
        exact .inl (wrote.new none)
    · exact old (mem_append_right _ taken)
  · exact nofun

theorem crash (kept : ℕ → ℕ) (torn : Prop) :
    OK { s with disk := s.disk.crash kept, wal := none, batches := [], torn := torn } := by
  constructor
  · exact ok.readable.crash kept
  · exact fun entry mem => (ok.acked entry mem).crash kept
  · exact nofun
  · exact fun _ => rfl

section

variable (running : s.wal = some w)

include running

theorem write (room : w.nextSeq + 1 < 2 ^ 64) {data : Bytes} {ts : HLCTimestamp}
    (clean : s.Clean (.write data ts)) :
    OK { s with
      wal := some (w.write s.disk data ts).1.1
      disk := (w.write s.disk data ts).1.2 } := by
  have live := ok.live w running
  have small := live.session.nextId_lt room
  rcases eq : w.write s.disk data ts with ⟨⟨w', disk'⟩, result⟩
  -- what writing the record does to the files, whether it fits or not
  have wrote : ∀ {w' : WAL} {disk' : Dir} {err : Option WalError}, w.closed = false →
      WAL.Puts { w with nextSeq := w.nextSeq + 1 } s.disk (w.nextRecord data ts) w' disk' err →
        Wrote s.disk disk' w w' (w.nextRecord data ts) err := by
    intro w' disk' err opened puts
    have wrote := Wrote.of_puts (w := { w with nextSeq := w.nextSeq + 1 }) ok.readable
      live.accurate live.intact live.session.maxSize small
      (fun fits => (Session.placed_data room rfl rfl live.session.active_le fits).zero)
      (clean.2 w running opened) puts
    exact { wrote with }
  cases WAL.writes_of_write eq with
  | closed =>
    rw [← running]
    exact ok
  | failed opened put =>
    have puts := live.session.puts_of_writeToActive room put
    obtain ⟨session, dirty, active⟩ := live.session.puts room puts
    refine ok.of_wrote live (wrote opened puts) session (active (live.running opened)) dirty ?_
    intro entry mem
    rw [puts.pendingSync_eq] at mem
    exact .inl mem
  | @done w' _ opened put =>
    have puts := live.session.puts_of_writeToActive room put
    obtain ⟨session, dirty, active⟩ := live.session.puts room puts
    have wrote := wrote opened puts
    have queued : Wrote s.disk disk' w
        { w' with pendingSync := w'.pendingSync ++ [w.nextEntry data ts] }
        (w.nextRecord data ts) none := { wrote with }
    refine ok.of_wrote live queued (session.congr rfl rfl rfl rfl rfl rfl)
      (active (live.running opened)) dirty ?_
    rw [puts.pendingSync_eq, forall_mem_append, forall_mem_singleton]
    exact ⟨fun _ => .inl, .inr ⟨rfl, rfl⟩⟩

theorem takePending :
    OK { s with
      wal := some { w with pendingSync := [] }
      batches := s.batches ++ [w.pendingSync] } := by
  have live := ok.live w running
  constructor
  · exact ok.readable
  · exact ok.acked
  · rintro _ ⟨⟩
    refine ⟨live.session.congr rfl rfl rfl rfl rfl rfl, live.intact, live.accurate, live.running,
      ?_⟩
    intro entry mem
    apply live.waiting
    rw [nil_append, flatten_append, flatten_singleton] at mem
    exact mem_append.mpr (mem_append.mp mem).symm
  · exact nofun

/-- Syncing the active segment makes every waiting record durable. -/
theorem syncBatch {k : ℕ} {batch : List WALEntry} (taken : s.batches[k]? = some batch)
    (syncCount : ℕ) :
    OK { s with
      wal := some { w with active := (w.active.sync s.disk).1, syncCount := syncCount }
      disk := (w.active.sync s.disk).2
      batches := s.batches.eraseIdx k
      acked := s.acked ++ batch } := by
  have live := ok.live w running
  have later := w.active.later_sync s.disk
  have synced := live.accurate.sync
  have held : ∀ entry ∈ w.pendingSync ++ s.batches.flatten,
      (w.active.sync s.disk).2.Held entry.record := by
    intro entry mem
    rcases live.waiting entry mem with begins | held
    · rw [← later.content] at begins
      exact synced.held begins
    · exact later.held _ held
  constructor
  · exact later.readable ok.readable
  · intro entry mem
    rcases mem_append.mp mem with old | new
    · exact later.held _ (ok.acked entry old)
    · apply held
      exact mem_append_right _ (mem_flatten.mpr ⟨batch, mem_of_getElem? taken, new⟩)
  · rintro _ ⟨⟩
    refine ⟨live.session.syncActive syncCount, ?_, ?_, ?_, ?_⟩
    · rw [Segment.sync_fst, later.content]
      exact live.intact
    · intro _
      rw [Segment.sync_fst]
      exact synced
    · rw [Segment.sync_fst]
      exact live.running
    · intro entry mem
      right
      apply held
      exact mem_of_mem_eraseIdx mem
  · exact nofun

theorem close : OK { s with wal := some (w.close s.disk).1, disk := (w.close s.disk).2 } := by
  have live := ok.live w running
  have session := live.session.close s.disk
  by_cases closed : w.closed
  · rw [WAL.close, if_pos closed, ← running]
    exact ok
  · rw [WAL.close_eq s.disk closed] at session ⊢
    have later := later_close w s.disk
    constructor
    · exact later.readable ok.readable
    · exact fun entry mem => later.held _ (ok.acked entry mem)
    · rintro _ ⟨⟩
      refine ⟨session, ?_, ?_, by rintro ⟨⟩, ?_⟩
      · rw [Segment.close_fst, later.content]
        exact live.intact
      · intro _
        rw [Segment.close_fst]
        exact fullySynced_close live.accurate
      · intro entry mem
        rw [Segment.close_fst, later.content]
        rcases live.waiting entry (mem_append_right _ mem) with begins | held
        · exact .inl begins
        · exact .inr (later.held _ held)
    · rintro ⟨⟩

end

theorem step (clean : s.Clean event) (eq : s.step event = some s') : s'.OK := by
  cases System.moves_of_step eq with
  | openWAL idle opened => exact ok.openWAL clean idle opened
  | write running room => exact ok.write running room clean
  | nonePending => exact ok
  | takePending running => exact ok.takePending running
  | syncBatch running taken => exact ok.syncBatch running taken _
  | close running => exact ok.close running
  | crash kept => exact ok.crash kept _

end

end System.OK

/-- In every run in which segments are only appended to behind whole records, and not while a
batch is committed, the log can be opened and every record whose write was acknowledged is read
from the file that holds it. -/
theorem acked_readAll_of_clean {s : System}
    (reachable : Runs.Reachable System.step System.Clean {} s) :
    Succeeds (WAL.openWAL s.disk) ∧
      ∀ entry ∈ s.acked, ∃ id file records, s.disk.lookup id = some file ∧
        readAll file.bytes = .ok records ∧ entry.record ∈ records := by
  have ok := reachable.invariant System.OK.start fun _ _ _ ok clean eq => ok.step clean eq
  refine ⟨ok.readable.openWAL, ?_⟩
  intro entry mem
  obtain ⟨id, file, known, begins⟩ := ok.acked entry mem
  obtain ⟨records, read, -⟩ := (ok.readable id file known).1.readAll
  exact ⟨id, file, records, known, read, (begins.mono (List.take_prefix _ _)).mem_readAll read⟩

/-- The file that is opened for appending is empty, and no batch waits. -/
def System.Fresh (s : System) : Event → Prop
  | .openWAL => ∀ next ∈ (WAL.recover s.disk).toOption, s.disk.content next = []
  | .write data ts => s.batches = [] ∧ ∀ w ∈ s.wal, ¬ w.Rotates (w.nextRecord data ts)
  | _ => True

instance (s : System) : DecidablePred s.Fresh := by
  rintro ⟨⟩ <;> delta System.Fresh <;> infer_instance

theorem System.Fresh.clean {s : System} (fresh : s.Fresh event) : s.Clean event := by
  cases event with
  | openWAL =>
    intro next recovered
    rw [fresh next (congrArg Except.toOption recovered)]
    exact ⟨[], nofun, rfl⟩
  | write data ts => exact ⟨fresh.1, fun w running _ full => absurd full (fresh.2 w running)⟩
  | takePending | syncBatch | close | crash => trivial

/-- One acknowledged write and a crash. -/
theorem acked_readAll_crashed :
    ∃ s, Runs.Reachable System.step System.Clean {} s ∧ s.acked ≠ [] ∧
      Succeeds (WAL.openWAL s.disk) := by
  obtain ⟨s, reachable, acked⟩ := Runs.exists_of_exec System.step System.Fresh {}
    [.openWAL, .write [120] 7, .takePending, .syncBatch 0, .crash fun _ => 0]
    (P := fun s => s.acked ≠ []) (by decide +kernel)
  have reachable := reachable.mono fun _ _ => System.Fresh.clean
  exact ⟨s, reachable, acked, (acked_readAll_of_clean reachable).1⟩

/-- A crash tears the header of the first segment.  The next process appends to the torn
file, and after its crash the log cannot be opened any more: the acknowledged record is
lost. -/
theorem acked_not_readAll_torn :
    ∃ s : System, s.Reachable ∧ ¬ Succeeds (WAL.openWAL s.disk) ∧
      ¬ ∀ entry ∈ s.acked, ∃ id file records, s.disk.lookup id = some file ∧
        readAll file.bytes = .ok records ∧ entry.record ∈ records := by
  obtain ⟨s, reachable, acked, fails, unreadable⟩ := Runs.exists_of_exec System.step
    (fun _ _ => True) {} [.openWAL, .crash fun _ => 10, .openWAL, .write [120] 7, .takePending,
      .syncBatch 0, .crash fun _ => 0]
    (P := fun s => s.acked ≠ [] ∧ (WAL.openWAL s.disk).toOption.isNone ∧
      ∀ file ∈ s.disk.entries, (readAll file.2.bytes).toOption.isNone)
    (by decide +kernel)
  refine ⟨s, reachable, ?_, fun all => ?_⟩
  · rintro ⟨result, opened⟩
    rw [opened] at fails
    nomatch fails
  · obtain ⟨entry, mem⟩ := exists_mem_of_ne_nil _ acked
    obtain ⟨id, file, records, known, read, -⟩ := all entry mem
    have broken := unreadable ⟨id, file⟩ (mem_lookup_iff.mp known)
    rw [read] at broken
    nomatch broken

end Hermes.Storage.Wal
