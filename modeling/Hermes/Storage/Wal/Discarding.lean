import Hermes.Storage.Wal.Checkpoint

/-!
# What checkpoints discard

A checkpoint is to remove a segment only if all its data records have been checkpointed.  It
looks at the last record of the segment, which may be a checkpoint with a lower number than
the data before it, and it removes a file by its number, which another segment may have as
well.  Where neither happens, every data record above the checkpoint stays in its file.
-/

namespace Hermes.Storage.Wal

open List
open Clock (HLCTimestamp)

/-- One of the files has the bytes of the record. -/
def Dir.Contains (dir : Dir) (r : Record) : Prop :=
  ∃ id file, dir.lookup id = some file ∧ r.encode <:+: file.bytes

variable {id : ℕ}

theorem Dir.contains_of_content {dir : Dir} {r : Record} (inside : r.encode <:+: dir.content id) :
    dir.Contains r := by
  unfold content at inside
  cases known : dir.lookup id with
  | none =>
    rw [known] at inside
    have length := inside.length_le
    rw [Record.length_encode, headerSize] at length
    exact absurd length (by simp)
  | some file =>
    rw [known] at inside
    exact ⟨id, file, known, inside⟩

/-! ## Where data records are -/

/-- A data record stands in the active segment, or in a sealed one whose last number is not
below its own. -/
structure WAL.Keeps (w : WAL) (dir : Dir) (id : ℕ) (r : Record) : Prop where
  content : r.encode <:+: dir.content id
  segment : id = w.active.id ∨ ∃ segment ∈ w.sealed, segment.id = id ∧ r.sequence ≤ segment.lastSeq

variable {seq : ℕ}

namespace WAL

variable {w w' : WAL} {dir dir' : Dir} {r : Record} {err : Option WalError}

/-- The segments of the log have different numbers. -/
def Distinct (w : WAL) : Prop :=
  ((w.sealed ++ [w.active]).map Segment.id).Nodup

theorem Distinct.congr (distinct : w.Distinct) (sealed : w'.sealed = w.sealed)
    (id : w'.active.id = w.active.id) : w'.Distinct := by
  unfold Distinct at distinct ⊢
  rw [map_append, map_singleton] at distinct ⊢
  rw [sealed, id]
  exact distinct

theorem Distinct.active_ne (distinct : w.Distinct) {segment : Segment}
    (mem : segment ∈ w.sealed) : segment.id ≠ w.active.id := by
  unfold Distinct at distinct
  rw [map_append] at distinct
  have disjoint := disjoint_of_nodup_append distinct
  intro same
  exact disjoint (mem_map_of_mem mem) (same ▸ mem_singleton_self _)

theorem Distinct.eq_of_id_eq (distinct : w.Distinct) {segment segment' : Segment}
    (mem : segment ∈ w.sealed) (mem' : segment' ∈ w.sealed) (same : segment.id = segment'.id) :
    segment = segment' :=
  inj_on_of_nodup_map distinct (mem_append_left _ mem) (mem_append_left _ mem') same

theorem Distinct.puts (distinct : w.Distinct) (puts : w.Puts dir r w' dir' err)
    (unused : w.Rotates r → ∀ segment ∈ w.sealed ++ [w.active], segment.id ≠ w.nextId) :
    w'.Distinct := by
  have rotated : w.Rotates r → ∀ active : Segment, active.id = w.nextId →
      ((w.sealed ++ [(w.active.sync dir).1] ++ [active]).map Segment.id).Nodup := by
    intro full active id
    have same : (w.sealed ++ [(w.active.sync dir).1]).map Segment.id =
        (w.sealed ++ [w.active]).map Segment.id := by
      simp only [map_append, map_singleton, Segment.sync_fst]
    rw [map_append, same, map_singleton, id]
    refine Nodup.append distinct (nodup_singleton _) ?_
    intro id old new
    obtain ⟨segment, mem, rfl⟩ := mem_map.mp old
    exact unused full segment mem (mem_singleton.mp new)
  cases puts with
  | active => exact distinct.congr rfl rfl
  | rotated full => exact rotated full _ rfl
  | refused full => exact rotated full _ rfl

/-- A record stays where it is, if the number of the segment that is sealed is not below its
own. -/
theorem Keeps.puts {r' : Record} (keeps : w.Keeps dir id r') (puts : w.Puts dir r w' dir' err)
    (covers : w.Rotates r → id = w.active.id → r'.sequence ≤ w.active.lastSeq) :
    w'.Keeps dir' id r' := by
  refine ⟨keeps.content.trans (puts.content_prefix id).isInfix, ?_⟩
  have rotated : w.Rotates r → ∃ segment ∈ w.sealed ++ [(w.active.sync dir).1],
      segment.id = id ∧ r'.sequence ≤ segment.lastSeq := by
    intro full
    rcases keeps.segment with active | ⟨segment, mem, facts⟩
    · refine ⟨(w.active.sync dir).1, mem_concat_self, ?_⟩
      rw [Segment.sync_fst]
      exact ⟨active.symm, covers full active⟩
    · exact ⟨segment, mem_append_left _ mem, facts⟩
  cases puts with
  | active => exact keeps.segment
  | rotated full => exact .inr (rotated full)
  | refused full => exact .inr (rotated full)

theorem Puts.keeps (puts : w.Puts dir r w' dir' none) : w'.Keeps dir' w'.active.id r := by
  cases puts with
  | active | rotated =>
    refine ⟨?_, .inl rfl⟩
    dsimp only [Segment.wrote, Segment.started]
    rw [Dir.content_append]
    exact (suffix_append _ _).isInfix

/-! ### Removing segments -/

theorem Distinct.purge (distinct : w.Distinct) : (w.purge dir seq).1.Distinct := by
  unfold Distinct at distinct ⊢
  rw [map_append] at distinct ⊢
  rw [WAL.purge, removeSealed_fst, Segment.sync_fst]
  exact distinct.sublist ((filter_sublist.map _).append_right _)

/-- A record above `seq` is not in a segment that is removed. -/
theorem Keeps.purge (keeps : w.Keeps dir id r) (distinct : w.Distinct) (higher : seq < r.sequence) :
    (w.purge dir seq).1.Keeps (w.purge dir seq).2 id r := by
  have remains :
      id ∉ (w.sealed.filter fun segment => segment.lastSeq ≤ seq).map Segment.id := by
    intro mem
    obtain ⟨segment, removed, rfl⟩ := mem_map.mp mem
    obtain ⟨sealed, old⟩ := mem_filter.mp removed
    have old := of_decide_eq_true old
    rcases keeps.segment with active | ⟨segment', sealed', same, covers⟩
    · exact distinct.active_ne sealed active
    · rw [distinct.eq_of_id_eq sealed' sealed same] at covers
      omega
  constructor
  · rw [WAL.purge, content_removeSealed remains, (w.active.later_sync dir).content]
    exact keeps.content
  · rw [WAL.purge, Segment.sync_fst, removeSealed_fst]
    refine keeps.segment.imp_right ?_
    rintro ⟨segment, sealed, same, covers⟩
    refine ⟨segment, mem_filter.mpr ⟨sealed, ?_⟩, same, covers⟩
    exact decide_eq_true (higher.trans_le covers)

end WAL

/-! ## The condition -/

namespace Journal

/-- The active segment of `w` can be sealed: the data records in it that are above `bound` are
not above its last number, and the number of the next segment is not in use. -/
structure MayRotate (s : Journal) (w : WAL) (bound : ℕ) : Prop where
  covers : ∀ x ∈ s.written, x.1 = w.active.id → bound < x.2.sequence →
    x.2.sequence ≤ w.active.lastSeq
  unused : ∀ segment ∈ w.sealed ++ [w.active], segment.id ≠ w.nextId

/-- Calls of one process.  The numbers of its checkpoints do not fall, and the log only rotates
where it may. -/
def Orderly (s : Journal) : JournalEvent → Prop
  | .system (.write data ts) =>
    ∀ w ∈ s.system.wal, w.Rotates (w.nextRecord data ts) → s.MayRotate w s.checkpointed
  | .system .takePending | .system (.syncBatch _) => True
  | .system .openWAL | .system .close | .system (.crash _) => False
  | .checkpoint seq => s.checkpointed ≤ seq ∧
    ∀ w ∈ s.system.wal, w.Rotates (checkpointRecord seq) → s.MayRotate w seq

/-! ## The invariant -/

/-- Every data record above the last checkpoint is kept. -/
structure Kept (s : Journal) (w : WAL) : Prop where
  running : s.system.wal = some w
  linked : s.unlinked = false
  segmentSize : w.segmentSize = defaultSegmentSize
  distinct : w.Distinct
  keeps : ∀ x ∈ s.written, s.checkpointed < x.2.sequence → w.Keeps s.system.disk x.1 x.2

variable {s s' : Journal} {w : WAL}

theorem Kept.opened {dir dir' : Dir} (opened : WAL.openWAL dir = .ok (w, dir')) :
    Kept { system := { disk := dir', wal := some w } } w := by
  obtain ⟨_, _, _, sealed, _, _, segmentSize, _⟩ := WAL.openWAL_eq opened
  refine ⟨rfl, rfl, segmentSize, ?_, nofun⟩
  unfold WAL.Distinct
  rw [sealed]
  exact nodup_singleton _

section

variable (kept : Kept s w)

include kept

/-- Only the segments, the directory and the history matter. -/
theorem Kept.congr {w' : WAL} (running : s'.system.wal = some w') (linked : s'.unlinked = false)
    (segmentSize : w'.segmentSize = w.segmentSize) (sealed : w'.sealed = w.sealed)
    (id : w'.active.id = w.active.id)
    (content : ∀ q, s'.system.disk.content q = s.system.disk.content q)
    (written : s'.written = s.written) (checkpointed : s'.checkpointed = s.checkpointed) :
    Kept s' w' := by
  refine ⟨running, linked, segmentSize.trans kept.segmentSize, kept.distinct.congr sealed id, ?_⟩
  intro x mem above
  rw [written] at mem
  rw [checkpointed] at above
  obtain ⟨inside, segment⟩ := kept.keeps x mem above
  constructor
  · rw [content]
    exact inside
  · rw [id, sealed]
    exact segment

/-- A record is written, and it may be a data record. -/
theorem Kept.puts {r : Record} {w' : WAL} {dir' : Dir} {err : Option WalError}
    (written : List (ℕ × Record)) {bound : ℕ} (above : s.checkpointed ≤ bound)
    (puts : w.Puts s.system.disk r w' dir' err) (may : w.Rotates r → s.MayRotate w bound)
    (new : ∀ x ∈ written, x ∈ s.written ∨ err = none ∧ x = (w'.active.id, r)) :
    w'.segmentSize = defaultSegmentSize ∧ w'.Distinct ∧
      ∀ x ∈ written, bound < x.2.sequence → w'.Keeps dir' x.1 x.2 := by
  refine ⟨?_, kept.distinct.puts puts fun full => (may full).unused, ?_⟩
  · cases puts <;> exact kept.segmentSize
  · intro x mem higher
    rcases new x mem with old | ⟨rfl, rfl⟩
    · refine (kept.keeps x old (above.trans_lt higher)).puts puts ?_
      intro full active
      exact (may full).covers x old active higher
    · exact puts.keeps

theorem Kept.write {data : Bytes} {ts : HLCTimestamp} (smallId : w.nextId < 2 ^ 64)
    (may : w.Rotates (w.nextRecord data ts) → s.MayRotate w s.checkpointed) :
    Kept { s with
      system := { s.system with
        wal := some (w.write s.system.disk data ts).1.1
        disk := (w.write s.system.disk data ts).1.2 }
      written := s.written ++ s.writes (.write data ts) } (w.write s.system.disk data ts).1.1 := by
  simp only [writes, kept.running]
  rcases eq : w.write s.system.disk data ts with ⟨⟨w', disk'⟩, result⟩
  have puts : ∀ {w' : WAL} {disk' : Dir} {err : Option WalError}, WAL.writeToActive
      { w with nextSeq := w.nextSeq + 1 } s.system.disk (w.nextRecord data ts) =
        ((w', disk'), err) →
      ∀ written : List (ℕ × Record),
        (∀ x ∈ written, x ∈ s.written ∨ err = none ∧ x = (w'.active.id, w.nextRecord data ts)) →
        w'.segmentSize = defaultSegmentSize ∧ w'.Distinct ∧
          ∀ x ∈ written, s.checkpointed < x.2.sequence → w'.Keeps disk' x.1 x.2 := by
    intro w' disk' err put written new
    have kept' : Kept { s with system := { s.system with
        wal := some { w with nextSeq := w.nextSeq + 1 } } } { w with nextSeq := w.nextSeq + 1 } :=
      kept.congr rfl kept.linked rfl rfl rfl (fun _ => rfl) rfl rfl
    exact kept'.puts written le_rfl (WAL.puts_of_writeToActive kept.segmentSize smallId put)
      (fun full => ⟨(may full).covers, (may full).unused⟩) new
  cases WAL.writes_of_write eq with
  | closed =>
    rw [append_nil]
    exact kept.congr rfl kept.linked rfl rfl rfl (fun _ => rfl) rfl rfl
  | failed _ put =>
    obtain ⟨segmentSize, distinct, keeps⟩ := puts put s.written fun x mem => .inl mem
    rw [append_nil]
    exact ⟨rfl, kept.linked, segmentSize, distinct, keeps⟩
  | done _ put =>
    obtain ⟨segmentSize, distinct, keeps⟩ := puts put _ fun x mem =>
      (mem_append.mp mem).imp_right fun new => ⟨rfl, mem_singleton.mp new⟩
    exact ⟨rfl, kept.linked, segmentSize, distinct.congr rfl rfl, fun x mem higher =>
      ⟨(keeps x mem higher).content, (keeps x mem higher).segment⟩⟩

theorem Kept.activeBy_notMem (may : w.Rotates (checkpointRecord seq) → s.MayRotate w seq) :
    w.activeBy seq ∉ w.removedBy seq := by
  unfold WAL.activeBy WAL.removedBy WAL.sealedBy
  split
  · rename_i full
    intro mem
    obtain ⟨segment, removed, same⟩ := mem_map.mp mem
    exact (may full).unused segment (mem_of_mem_filter removed) same
  · intro mem
    obtain ⟨segment, removed, same⟩ := mem_map.mp mem
    exact kept.distinct.active_ne (mem_of_mem_filter removed) same

theorem Kept.checkpoint (smallId : w.nextId < 2 ^ 64) (small : seq < 2 ^ 64)
    (above : s.checkpointed ≤ seq) (may : w.Rotates (checkpointRecord seq) → s.MayRotate w seq) :
    Kept { s with
      system := { s.system with
        wal := some (w.checkpoint s.system.disk seq).1.1
        disk := (w.checkpoint s.system.disk seq).1.2 }
      checkpointed := max s.checkpointed seq } (w.checkpoint s.system.disk seq).1.1 := by
  rw [max_eq_right above]
  rcases WAL.checkpoint_cases s.system.disk kept.segmentSize smallId small with
    ⟨-, failed⟩ | ⟨-, w₁, dir₁, puts, done⟩
  · rw [failed]
    exact ⟨rfl, kept.linked, kept.segmentSize, kept.distinct, fun x mem higher =>
      kept.keeps x mem (above.trans_lt higher)⟩
  · obtain ⟨segmentSize, distinct, keeps⟩ := kept.puts s.written above puts may
      fun x mem => .inl mem
    rw [done]
    refine ⟨rfl, kept.linked, segmentSize, distinct.purge, fun x mem higher => ?_⟩
    exact (keeps x mem higher).purge distinct higher

theorem Kept.step_checkpoint (orderly : s.Orderly (.checkpoint seq))
    (eq : s.step (.checkpoint seq) = some s') :
    ∃ w', Kept s' w' ∧ s'.written = s.written ∧ s'.checkpointed = seq := by
  obtain ⟨above, may⟩ := orderly
  have leaves : ∀ w' ∈ s.system.wal, w'.activeBy seq ∉ w'.removedBy seq := by
    intro w' running
    cases running.symm.trans kept.running
    exact kept.activeBy_notMem (may w running)
  obtain ⟨w₁, running, smallId, small, rfl⟩ := Journal.step_checkpoint kept.linked leaves eq
  cases running.symm.trans kept.running
  exact ⟨_, kept.checkpoint smallId small above (may w running), rfl, max_eq_right above⟩

theorem Kept.step {event : JournalEvent} (orderly : s.Orderly event) (eq : s.step event = some s') :
    ∃ w', Kept s' w' := by
  cases event with
  | system event =>
    obtain ⟨smallId, system, stepped, rfl⟩ := (step_system_iff kept.linked).mp eq
    cases System.moves_of_step stepped with
    | openWAL | close | crash => exact orderly.elim
    | @write w₁ data ts running =>
      cases running.symm.trans kept.running
      exact ⟨_, kept.write (smallId w running) (orderly w running)⟩
    | nonePending =>
      exact ⟨w, kept.congr kept.running kept.linked rfl rfl rfl (fun _ => rfl)
        (append_nil _) rfl⟩
    | @takePending w₁ running =>
      cases running.symm.trans kept.running
      exact ⟨_, kept.congr rfl kept.linked rfl rfl rfl (fun _ => rfl) (append_nil _) rfl⟩
    | @syncBatch w₁ _ _ running =>
      cases running.symm.trans kept.running
      exact ⟨_, kept.congr rfl kept.linked rfl rfl (by rw [Segment.sync_fst])
        (w.active.later_sync _).content (append_nil _) rfl⟩
  | checkpoint seq =>
    obtain ⟨w', kept', -⟩ := kept.step_checkpoint orderly eq
    exact ⟨w', kept'⟩

end

/-- After a checkpoint every data record above it is still in one of the files, if the calls
are orderly. -/
theorem contains_of_orderly {dir dir' : Dir} {seq : ℕ}
    (opened : WAL.openWAL dir = .ok (w, dir'))
    (reachable : Runs.Reachable step Orderly { system := { disk := dir', wal := some w } } s)
    (orderly : s.Orderly (.checkpoint seq)) (done : s.step (.checkpoint seq) = some s') :
    ∀ x ∈ s.written, seq < x.2.sequence → s'.system.disk.Contains x.2 := by
  have kept : ∃ w, Kept s w :=
    reachable.invariant (I := fun s => ∃ w, Kept s w) ⟨w, .opened opened⟩
      fun _ _ _ ⟨_, kept⟩ orderly eq => kept.step orderly eq
  obtain ⟨w₁, kept⟩ := kept
  obtain ⟨w₂, kept', written, checkpointed⟩ := kept.step_checkpoint orderly done
  intro x mem higher
  refine Dir.contains_of_content (kept'.keeps x ?_ ?_).content
  · rw [written]
    exact mem
  · rw [checkpointed]
    exact higher

/-- A record fills the segment, so that the next one goes to a second segment.  The checkpoint
between them removes the first segment. -/
theorem contains_of_orderly_rotated :
    ∃ dir w dir' s s' w₁ x, WAL.openWAL dir = .ok (w, dir') ∧
      Runs.Reachable step Orderly { system := { disk := dir', wal := some w } } s ∧
      s.Orderly (.checkpoint 1) ∧ s.step (.checkpoint 1) = some s' ∧
      s.system.wal = some w₁ ∧ w₁.removedBy 1 = [1] ∧ x ∈ s.written ∧ 1 < x.2.sequence ∧
      s'.system.disk.Contains x.2 := by
  obtain ⟨w, dir, data, s₁, opened, nextSeq, -, fits, wrote, lone₁, size, -, checkpointed,
    written⟩ := lone_written (show 54 + 67108810 ≤ defaultSegmentSize by decide)
  set w₁ := w.afterWrite data 0
  have full : w₁.Rotates (w₁.nextRecord [120] 7) := by
    rw [lone₁.rotates_nextRecord, size]
    decide
  have second : w₁.nextSeq = 2 := congrArg (· + 1) nextSeq
  have last : w₁.active.lastSeq = 1 := nextSeq
  obtain ⟨s₂, w₂, wrote₂, running₂, sealed, active, checkpointed₂, written₂⟩ :=
    lone₁.write_full (by rw [second]; decide) 7 full (by decide)
  have orderly : Orderly { system := { disk := dir, wal := some w } }
      (.system (.write data 0)) := by
    rintro w' ⟨⟩ rotates
    exact absurd rotates fits
  have orderly₁ : s₁.Orderly (.system (.write [120] 7)) := by
    intro w' running _
    cases running.symm.trans lone₁.running
    constructor
    · intro x mem _ _
      rw [written] at mem
      cases mem_singleton.mp mem
      exact le_rfl
    · intro segment mem
      rw [lone₁.sealed, nil_append, mem_singleton] at mem
      rw [mem, lone₁.id, lone₁.nextId]
      decide
  have fits₂ : ¬ w₂.Rotates (checkpointRecord 1) := by
    have size₂ : w₂.active.size =
        (Segment.header 2).encode.length + (w₁.nextRecord [120] 7).encode.length := by
      rw [active]
      exact congrArg (· + _) (Nat.zero_add _)
    have maxSize : w₂.active.maxSize = defaultSegmentSize := by
      rw [active]
      rfl
    rw [WAL.Rotates, size₂, maxSize, length_nextRecord]
    decide
  have orderly₂ : s₂.Orderly (.checkpoint 1) := by
    refine ⟨?_, fun w' running rotates => ?_⟩
    · rw [checkpointed₂, checkpointed]
      exact Nat.zero_le 1
    · cases running.symm.trans running₂
      exact absurd rotates fits₂
  have removed : w₂.removedBy 1 = [1] := by
    rw [WAL.removedBy, WAL.sealedBy, if_neg fits₂, sealed, Segment.sync_fst, filter_singleton,
      decide_eq_true last.le]
    exact congrArg (fun id => [id]) lone₁.id
  obtain ⟨s₃, done⟩ : ∃ s₃, s₂.step (.checkpoint 1) = some s₃ := by
    have small : w₂.nextId < 2 ^ 64 := by
      rw [WAL.nextId, sealed, length_singleton]
      decide
    simp only [step, running₂, if_pos (And.intro small (show 1 < 2 ^ 64 by decide))]
    exact ⟨_, rfl⟩
  have reachable := (Runs.Reachable.start.next orderly wrote).next orderly₁ wrote₂
  have mem : (2, w₁.nextRecord [120] 7) ∈ s₂.written := by
    rw [written₂]
    exact mem_concat_self
  have above : 1 < (w₁.nextRecord [120] 7).sequence := second.ge
  exact ⟨∅, w, dir, s₂, s₃, w₂, _, opened, reachable, orderly₂, done, running₂, removed, mem, above,
    contains_of_orderly opened reachable orderly₂ done _ mem above⟩

/-- A record that all but fills the segment, and two checkpoints below it.  The record of the
first is the last that the segment takes, so the second removes the segment. -/
theorem not_contains_checkpoint :
    ∃ dir w dir' s s' x, WAL.openWAL dir = .ok (w, dir') ∧
      Runs.Reachable step anyCall { system := { disk := dir', wal := some w } } s ∧
      s.step (.checkpoint 0) = some s' ∧ x ∈ s.written ∧ 0 < x.2.sequence ∧
      ¬ s'.system.disk.Contains x.2 := by
  obtain ⟨w, dir, data, s₁, opened, nextSeq, length, -, wrote, lone₁, size, -, -, written₁⟩ :=
    lone_written (show 54 + 67108777 ≤ defaultSegmentSize by decide)
  have digits : (Nat.toDigits 10 0).length = 1 := by decide
  have fits₁ : ¬ (w.afterWrite data 0).Rotates (checkpointRecord 0) := by
    rw [lone₁.rotates_checkpointRecord, size]
    decide
  obtain ⟨s₂, w₂, done₁, lone₂, size₂, last, written₂⟩ :=
    lone₁.checkpoint (show 0 < 2 ^ 64 by decide) fits₁
  -- the segment is full to the last byte
  have full : w₂.Rotates (checkpointRecord 0) := by
    rw [lone₂.rotates_checkpointRecord, size₂, size]
    decide
  obtain ⟨s₃, -, done₂, -, -, -, -, files⟩ :=
    lone₂.checkpoint_full (show 0 < 2 ^ 64 by decide) full last.le
  have reachable : Runs.Reachable step anyCall { system := { disk := dir, wal := some w } } s₂ :=
    .next (.next .start (by trivial) wrote) (by trivial) done₁
  refine ⟨∅, w, dir, s₂, s₃, (1, w.nextRecord data 0), opened, reachable, done₂, ?_, ?_, ?_⟩
  · rw [written₂, written₁]
    exact mem_singleton_self _
  · show 0 < w.nextSeq
    rw [nextSeq]
    decide
  · rintro ⟨id, file, known, inside⟩
    have short := inside.length_le
    have header : (Nat.toDigits 10 2).length = 1 := by decide
    rw [files id file known, length_append, length_header, length_checkpointRecord,
      length_nextRecord] at short
    omega

end Journal

end Hermes.Storage.Wal
