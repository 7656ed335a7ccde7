import Hermes.Storage.Wal.TornTails

/-!
# Reopening the write-ahead log

`recover` scans every segment file, but only for the highest sequence number; afterwards
`ReadFrom` knows the new active segment alone.  The segment is numbered by the next
sequence number, and a record is never written to a segment with a number above its own,
so nothing that was written before is read again.
-/

namespace Hermes.Storage.Wal

open List Option
open Clock (HLCTimestamp)

/-! ## Sound directories -/

/-- A directory whose files consist of whole records in their places. -/
def Sound (dir : Dir) : Prop :=
  ∀ id file, dir.lookup id = some file →
    ∃ records : List Record,
      (∀ r ∈ records, Placed id r) ∧ file.bytes = records.flatMap Record.encode

theorem Sound.empty : Sound ∅ := by
  intro id file known
  nomatch known

namespace Sound

variable {dir dir' : Dir} {id next : ℕ} (sound : Sound dir)

include sound

/-- The content of a segment, whether it exists or not. -/
theorem content (id : ℕ) :
    ∃ records : List Record, (∀ r ∈ records, Placed id r) ∧
      dir.content id = records.flatMap Record.encode := by
  unfold Dir.content
  cases known : dir.lookup id with
  | none => exact ⟨[], by simp, rfl⟩
  | some file => exact sound _ _ known

theorem of_content (same : ∀ q, dir'.content q = dir.content q) : Sound dir' := by
  intro id file known
  rw [← Dir.content_of_lookup known, same]
  exact sound.content id

theorem append {r : Record} (placed : Placed id r) : Sound (dir.append id r.encode) := by
  intro q file known
  rw [← Dir.content_of_lookup known]
  obtain ⟨records, placedAll, eq⟩ := sound.content q
  by_cases same : q = id
  · subst same
    refine ⟨records ++ [r], ?_, Dir.content_append_record eq r⟩
    rw [forall_mem_append, forall_mem_singleton]
    exact ⟨placedAll, placed⟩
  · rw [Dir.content_append_of_ne _ same]
    exact ⟨records, placedAll, eq⟩

theorem close (w : WAL) : Sound (w.close dir).2 := by
  by_cases closed : w.closed
  · rw [WAL.close, if_pos closed]
    exact sound
  · rw [WAL.close_eq dir closed]
    exact sound.of_content (System.OK.later_close w dir).content

/-- A crash that tears no record keeps a directory sound. -/
theorem crash {kept : ℕ → ℕ}
    (whole : ∀ id file, (dir.crash kept).lookup id = some file → Whole file.bytes) :
    Sound (dir.crash kept) := by
  intro id file known
  obtain ⟨left, storable, eq⟩ := whole id file known
  rw [Dir.lookup_crash] at known
  obtain ⟨before, present, rfl⟩ := map_eq_some_iff.mp known
  obtain ⟨records, placed, bytes⟩ := sound _ _ present
  -- what is left reads as a beginning of what was there
  have cut := readAll_take (fun r mem => (placed r mem).storable) (max before.synced (kept id))
  have intact := readAll_flatMap_encode storable
  rw [← bytes] at cut
  rw [← eq] at intact
  cases intact.symm.trans cut
  exact ⟨_, fun r mem => placed r (mem_of_mem_take mem), eq⟩

variable (recovered : WAL.recover dir = .ok next)

include recovered

/-- A sound directory has no data in the segment that is opened next. -/
theorem no_data :
    ∃ records : List Record, (∀ r ∈ records, Placed next r ∧ r.type ≠ .data) ∧
      dir.content next = records.flatMap Record.encode := by
  obtain ⟨records, placed, eq⟩ := sound.content next
  have read := readAll_flatMap_encode fun r mem => (placed r mem).storable
  rw [← eq] at read
  refine ⟨records, fun r mem => ⟨placed r mem, fun isData => ?_⟩, eq⟩
  have below := WAL.lt_of_recover recovered read mem isData
  have above := ((placed r mem).data isData).1
  omega

/-- In a sound directory the next sequence number takes eight bytes. -/
theorem recover_lt : 1 ≤ next ∧ next < 2 ^ 64 := by
  refine WAL.recover_lt ?_ recovered
  intro id file known records read r mem isData
  obtain ⟨written, placed, eq⟩ := sound id file known
  rw [eq, readAll_flatMap_encode fun r mem => (placed r mem).storable] at read
  cases read
  exact ((placed r mem).data isData).2

end Sound

namespace Session

variable {w w' : WAL} {dir dir' : Dir} (session : Session w) (sound : Sound dir)
  (room : w.nextSeq + 1 < 2 ^ 64)

include session sound room

/-- A record that takes the number before `nextSeq` goes to a segment that is not
above it, or does not get written. -/
theorem writeToActive {r : Record} (isData : r.type = .data) (sequence : r.sequence = w.nextSeq)
    {err : Option WalError}
    (eq : WAL.writeToActive { w with nextSeq := w.nextSeq + 1 } dir r = ((w', dir'), err)) :
    Session w' ∧ Sound dir' := by
  have puts := session.puts_of_writeToActive room eq
  have rotated : Sound (w.rotatedDir dir) :=
    (sound.of_content (w.active.later_sync dir).content).append
      (placed_header (session.nextId_lt room))
  refine ⟨(session.puts room puts).1, ?_⟩
  cases puts with
  | active fits =>
    have small := session.maxSize ▸ Nat.le_of_add_left_le (not_lt.mp fits)
    exact sound.append (placed_data room isData sequence session.active_le small)
  | rotated full fits =>
    have older := session.nextId_le full fits
    exact rotated.append (placed_data room isData sequence older (Nat.le_of_add_left_le fits))
  | refused => exact rotated

theorem write (data : Bytes) (ts : HLCTimestamp) :
    Session (w.write dir data ts).1.1 ∧ Sound (w.write dir data ts).1.2 := by
  rcases eq : w.write dir data ts with ⟨⟨w', dir'⟩, result⟩
  cases WAL.writes_of_write eq with
  | closed => exact ⟨session, sound⟩
  | failed _ put => exact session.writeToActive sound room rfl rfl put
  | done _ put =>
    obtain ⟨session', sound'⟩ := session.writeToActive sound room rfl rfl put
    exact ⟨session'.congr rfl rfl rfl rfl rfl rfl, sound'⟩

end Session

/-! ## Runs keep the numbers -/

/-- As long as no record was torn, the directory is sound and so are the numbers of
the open log. -/
def SystemOK (s : System) : Prop :=
  ¬ s.torn → Sound s.disk ∧ ∀ w, s.wal = some w → Session w

variable {s : System}

theorem SystemOK.of_running {w : WAL} (running : s.wal = some w)
    (holds : ¬ s.torn → Sound s.disk ∧ Session w) : SystemOK s := by
  intro clean
  obtain ⟨sound, session⟩ := holds clean
  refine ⟨sound, fun w' running' => ?_⟩
  cases running.symm.trans running'
  exact session

theorem SystemOK.openWAL (ok : SystemOK s) {w : WAL} {disk : Dir}
    (opened : WAL.openWAL s.disk = .ok (w, disk)) :
    SystemOK { s with wal := some w, disk := disk } := by
  apply SystemOK.of_running rfl
  intro clean
  obtain ⟨sound, _⟩ := ok clean
  obtain ⟨next, recovered, rfl, -⟩ := WAL.openWAL_eq opened
  obtain ⟨positive, small⟩ := sound.recover_lt recovered
  exact ⟨sound.append (placed_header small), .of_openWAL opened recovered positive small⟩

theorem SystemOK.step {s' : System} (ok : SystemOK s) {event : Event}
    (eq : s.step event = some s') :
    SystemOK s' := by
  cases System.moves_of_step eq with
  | openWAL _ opened => exact ok.openWAL opened
  | @write w data ts running room =>
    apply SystemOK.of_running rfl
    intro clean
    obtain ⟨sound, session⟩ := ok clean
    exact ((session w running).write sound room data ts).symm
  | nonePending => exact ok
  | @takePending w running =>
    apply SystemOK.of_running rfl
    intro clean
    obtain ⟨sound, session⟩ := ok clean
    exact ⟨sound, (session w running).congr rfl rfl rfl rfl rfl rfl⟩
  | @syncBatch w _ _ running _ =>
    apply SystemOK.of_running rfl
    intro clean
    obtain ⟨sound, session⟩ := ok clean
    exact ⟨sound.of_content (w.active.later_sync _).content, (session w running).syncActive _⟩
  | @close w running =>
    apply SystemOK.of_running rfl
    intro clean
    obtain ⟨sound, session⟩ := ok clean
    exact ⟨sound.close w, (session w running).close s.disk⟩
  | crash kept =>
    intro clean
    obtain ⟨before, whole⟩ := not_or.mp clean
    refine ⟨(ok before).1.crash fun id file known => ?_, nofun⟩
    by_contra broken
    exact whole ⟨id, file, known, broken⟩

theorem SystemOK.of_reachable (reachable : s.Reachable) : SystemOK s := by
  have start : SystemOK {} := fun _ => ⟨Sound.empty, nofun⟩
  exact reachable.invariant start fun _ _ _ ok _ eq => ok.step eq

/-! ## What a reopened log reads -/

/-- A log without torn records reads nothing when it has been reopened: the segment that it
appends to holds no data. -/
theorem SystemOK.readFrom_reopened {s' : System} (ok : SystemOK s) (clean : ¬ s.torn)
    (reopened : s.step .openWAL = some s') : s'.readFrom 1 = [] := by
  cases System.moves_of_step reopened with
  | openWAL _ opened =>
    obtain ⟨next, recovered, rfl, sealed, id, _⟩ := WAL.openWAL_eq opened
    obtain ⟨sound, _⟩ := ok clean
    obtain ⟨records, noData, content⟩ := sound.no_data recovered
    have storable : ∀ r ∈ records ++ [Segment.header next], r.Storable := by
      rw [forall_mem_append, forall_mem_singleton]
      exact ⟨fun r old => (noData r old).1.storable,
        (placed_header (sound.recover_lt recovered).2).storable⟩
    have read := readAll_flatMap_encode storable
    rw [flatMap_append, flatMap_singleton, ← content] at read
    simp only [System.readFrom, WAL.readFrom, sealed, id, nil_append, flatMap_cons, flatMap_nil,
      append_nil, Dir.content_append, WAL.entriesFrom, read]
    rw [map_eq_nil_iff, filter_eq_nil_iff]
    intro r mem
    rcases mem_append.mp mem with old | new
    · simp [(noData r old).2]
    · cases mem_singleton.mp new
      simp [Segment.header]

/-- If no crash has torn a record, the entries whose writes were acknowledged before the log
was reopened come back in order if and only if there are none. -/
theorem acked_readFrom_reopened_iff {s s' : System} (reachable : s.Reachable) (clean : ¬ s.torn)
    (reopened : s.step .openWAL = some s') :
    ((∀ entry ∈ s.acked, entry ∈ s'.readFrom 1) ∧
      (s'.readFrom 1).Pairwise (·.sequence < ·.sequence)) ↔ s.acked = [] := by
  rw [(SystemOK.of_reachable reachable).readFrom_reopened clean reopened]
  constructor
  · rintro ⟨all, _⟩
    exact eq_nil_iff_forall_not_mem.mpr fun entry mem => nomatch all entry mem
  · rintro none
    rw [none]
    exact ⟨nofun, Pairwise.nil⟩

/-- A crash before the first sync leaves empty files, in which no record is torn. -/
theorem not_torn_crash {dir : Dir} (unsynced : ∀ file ∈ dir.entries, file.2.synced = 0) :
    ¬ ∃ id file, (dir.crash fun _ => 0).lookup id = some file ∧ ¬ Whole file.bytes := by
  rintro ⟨id, file, known, broken⟩
  rw [Dir.lookup_crash] at known
  obtain ⟨before, present, rfl⟩ := map_eq_some_iff.mp known
  have nothing := unsynced ⟨id, before⟩ (AList.mem_lookup_iff.mp present)
  refine broken ⟨[], nofun, ?_⟩
  rw [File.crash, nothing]
  rfl

/-- A write that is not acknowledged before the process crashes. -/
theorem acked_readFrom_unacked : ∃ s₂ s s' : System, s₂.Reachable ∧
    (∃ w ∈ s₂.wal, w.pendingSync ≠ []) ∧ s₂.step (.crash fun _ => 0) = some s ∧
    s.step .openWAL = some s' ∧ (∀ entry ∈ s.acked, entry ∈ s'.readFrom 1) ∧
    (s'.readFrom 1).Pairwise (·.sequence < ·.sequence) := by
  obtain ⟨s₁, opened, s₂, wrote, waits, acked, unsynced, s, crashed, opens⟩ :
      ∃ s₁, System.step {} .openWAL = some s₁ ∧ ∃ s₂, s₁.step (.write [120] 7) = some s₂ ∧
        (∃ w ∈ s₂.wal, w.pendingSync ≠ []) ∧ s₂.acked = [] ∧
        (∀ file ∈ s₂.disk.entries, file.2.synced = 0) ∧
        ∃ s, s₂.step (.crash fun _ => 0) = some s ∧ (s.step .openWAL).isSome := by
    decide +kernel
  obtain ⟨s', reopened⟩ := isSome_iff_exists.mp opens
  have reachable₂ : s₂.Reachable := (Runs.Reachable.start.next trivial opened).next trivial wrote
  have reachable : s.Reachable := reachable₂.next trivial crashed
  cases System.moves_of_step opened
  cases System.moves_of_step wrote
  cases System.moves_of_step crashed
  have clean := not_or.mpr ⟨not_false, not_torn_crash unsynced⟩
  exact ⟨_, _, s', reachable₂, waits, crashed, reopened,
    (acked_readFrom_reopened_iff reachable clean reopened).mpr acked⟩

/-- One acknowledged write, a clean shutdown, and nothing is read afterwards. -/
theorem acked_not_read_after_close : ∃ s s' : System, s.Reachable ∧
    s.step .openWAL = some s' ∧ (∃ entry, entry ∈ s.acked) ∧
    ¬ ∀ entry ∈ s.acked, entry ∈ s'.readFrom 1 := by
  obtain ⟨s, reachable, s', reopened, acked, nothing⟩ := Runs.exists_of_exec System.step
    (fun _ _ => True) {} [.openWAL, .write [120] 7, .takePending, .syncBatch 0, .close,
      .crash fun _ => 0]
    (P := fun s => ∃ s', s.step .openWAL = some s' ∧
      s.acked = [{ sequence := 1, timestamp := 7, data := [120] }] ∧ s'.readFrom 1 = [])
    (by decide +kernel)
  refine ⟨s, s', reachable, reopened, ?_, ?_⟩
  · rw [acked]
    exact ⟨_, mem_singleton_self _⟩
  · intro all
    rw [acked, nothing] at all
    nomatch all _ (mem_singleton_self _)

end Hermes.Storage.Wal
