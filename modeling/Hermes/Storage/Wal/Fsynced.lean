import Hermes.Storage.Wal.GroupCommit

/-!
# Acknowledged records are synced

A segment whose flag is clear, or is about to be cleared, holds nothing that has not been
synced, and neither does a sealed one.  Writing to a segment between the `fsync` and the
clearing of the flag breaks this, and the next `Sync` then answers without an `fsync`.
-/

namespace Hermes.Storage.Wal

open List
open Clock (HLCTimestamp)

/-! ## What has been synced -/

namespace Dir

/-- The number of bytes of a file that an `fsync` has seen. -/
def synced (dir : Dir) (id : ℕ) : ℕ :=
  ((dir.lookup id).map File.synced).getD 0

variable {dir dir' : Dir} {id q : ℕ}

theorem synced_append (bytes : Bytes) : (dir.append id bytes).synced q = dir.synced q := by
  by_cases same : q = id
  · rw [same, synced, lookup_append_self, synced]
    cases dir.lookup id <;> rfl
  · rw [synced, lookup_append_of_ne bytes same, synced]

theorem synced_sync_self : (dir.sync id).synced id = (dir.content id).length := by
  rw [synced, lookup_sync, content]
  cases dir.lookup id with
  | none => rfl
  | some file => simp

theorem synced_sync_of_ne (other : q ≠ id) : (dir.sync id).synced q = dir.synced q := by
  rw [synced, lookup_sync, synced]
  cases dir.lookup q with
  | none => rfl
  | some file => simp [other]

/-- The files have been written to and synced, but nothing has been lost. -/
structure Grows (dir dir' : Dir) : Prop where
  length : ∀ q, (dir.content q).length ≤ (dir'.content q).length
  synced : ∀ q n, n ≤ (dir.content q).length → n ≤ dir.synced q → n ≤ dir'.synced q

theorem Grows.refl (dir : Dir) : Grows dir dir where
  length _ := le_rfl
  synced _ _ _ le := le

theorem grows_append (dir : Dir) (id : ℕ) (bytes : Bytes) : Grows dir (dir.append id bytes) where
  length q := by
    by_cases same : q = id
    · rw [same, content_append, length_append]
      exact Nat.le_add_right _ _
    · rw [content, content, lookup_append_of_ne bytes same]
  synced q n _ covered := by
    rw [synced_append]
    exact covered

theorem grows_sync (dir : Dir) (id : ℕ) : Grows dir (dir.sync id) where
  length q := by rw [content_sync]
  synced q n le covered := by
    by_cases same : q = id
    · rw [same] at le ⊢
      rw [synced_sync_self]
      exact le
    · rw [synced_sync_of_ne same]
      exact covered

end Dir

namespace Ticket

/-- The record is in its file. -/
def InFile (t : Ticket) (disk : Dir) : Prop :=
  t.stop ≤ (disk.content t.file).length

/-- An `fsync` of the file has begun after the record was written to it. -/
def Fsynced (t : Ticket) (disk : Dir) : Prop :=
  t.stop ≤ disk.synced t.file
  deriving Decidable

variable {t : Ticket} {disk disk' : Dir}

theorem InFile.grows (inFile : t.InFile disk) (grows : disk.Grows disk') : t.InFile disk' :=
  inFile.trans (grows.length t.file)

theorem Fsynced.grows (fsynced : t.Fsynced disk) (inFile : t.InFile disk)
    (grows : disk.Grows disk') : t.Fsynced disk' :=
  grows.synced t.file t.stop inFile fsynced

end Ticket

/-! ## The condition and the invariant -/

def Flusher.batch : Flusher → List Ticket
  | .fired => []
  | .taken batch => batch
  | .syncing batch _ _ => batch
  | .synced batch _ => batch
  | .done => []

/-- The record of the call that holds the lock of the log, once it is written. -/
def Holder.tickets : Option Holder → List Ticket
  | some (.written ticket) => [ticket]
  | _ => []

namespace Group

instance (f : Flusher) (g : ℕ) : Decidable (∃ batch, f = .syncing batch g .clear) :=
  match f with
  | .syncing _ segment point => decidable_of_iff (segment = g ∧ point = .clear) (by simp)
  | .fired | .taken _ | .synced _ _ | .done => .isFalse (by simp)

/-- Some run of `flushPendingSync` is between the `fsync` of a segment and the clearing of
its flag. -/
def Clearing (s : Group) (g : ℕ) : Prop :=
  ∃ f ∈ s.flushers, ∃ batch, f = .syncing batch g .clear
  deriving Decidable

/-- The entry whose record an event tries to write. -/
def writes (s : Group) : GroupEvent → Option WALEntry
  | .write data ts => some { sequence := s.nextSeq, timestamp := ts, data := data }
  | .retry =>
    match s.holder with
    | some (.created entry) => some entry
    | _ => none
  | _ => none

/-- The record of an entry fits into the active segment. -/
def Fits (s : Group) (entry : WALEntry) : Prop :=
  (s.segment s.active).size + entry.record.encode.length ≤ (s.segment s.active).maxSize
  deriving Decidable

/-- No record is written to a segment between the `fsync` of a `Sync` and the clearing of
the flag. -/
def Undisturbed (s : Group) (event : GroupEvent) : Prop :=
  ∀ entry ∈ s.writes event, s.Fits entry → ¬ s.Clearing s.active
  deriving Decidable

/-- The records whose calls wait for an answer. -/
def tickets (s : Group) : List Ticket :=
  Holder.tickets s.holder ++ s.pendingSync ++ s.flushers.flatMap Flusher.batch

/-- Nothing is left to sync in a segment: its flag says so, or a `Sync` is about to say so,
or it has been sealed. -/
def Settled (s : Group) (g : ℕ) : Prop :=
  (s.segment g).syncNeeded = false ∨ g < s.active ∨ s.Clearing g ∨
    g = s.active ∧ ∃ entry,
      s.holder = some (.sealing entry .clear) ∨ s.holder = some (.sealed entry)

/-- What a run of `flushPendingSync` knows about its batch. -/
def Answers (disk : Dir) : Flusher → Prop
  | .syncing batch g _ => ∀ t ∈ batch, t.segment = g ∨ t.Fsynced disk
  | .synced batch true => ∀ t ∈ batch, t.Fsynced disk
  | _ => True

structure OK (s : Group) : Prop where
  opened : ∀ g, (s.segment g).closed = false
  known : ∀ t ∈ s.tickets, t.segment ≤ s.active ∧ t.file = (s.segment t.segment).id ∧
    t.InFile s.disk
  settled : ∀ t ∈ s.tickets, s.Settled t.segment → t.Fsynced s.disk
  flushers : ∀ f ∈ s.flushers, Answers s.disk f
  acked : ∀ t ∈ s.acked, t.InFile s.disk ∧ t.Fsynced s.disk

theorem mem_tickets {s : Group} {t : Ticket} :
    t ∈ s.tickets ↔ t ∈ Holder.tickets s.holder ∨ t ∈ s.pendingSync ∨
      ∃ f ∈ s.flushers, t ∈ f.batch := by
  rw [tickets, mem_append, mem_append, or_assoc, mem_flatMap]

/-- Nothing becomes settled while the segments stay as they are, unless a call comes to the
clearing of a flag or has sealed the active segment. -/
theorem Settled.of_same {s s' : Group} {g : ℕ} (now : s'.Settled g)
    (segment : s'.segment = s.segment) (active : s'.active = s.active)
    (clearing : s'.Clearing g → s.Clearing g)
    (holder : ∀ entry, s'.holder = some (.sealing entry .clear) ∨
      s'.holder = some (.sealed entry) → s'.holder = s.holder) : s.Settled g := by
  rcases now with flag | sealed | clears | ⟨top, entry, holds⟩
  · rw [segment] at flag
    exact .inl flag
  · rw [active] at sealed
    exact .inr (.inl sealed)
  · exact .inr (.inr (.inl (clearing clears)))
  · rw [active] at top
    rw [holder entry holds] at holds
    exact .inr (.inr (.inr ⟨top, entry, holds⟩))

/-! ## Steps -/

/-- What a step of `Sync` does. -/
structure SyncStepped (s s' : Segment) (dir dir' : Dir) (point : SyncPoint)
    (outcome : SyncOutcome) : Prop where
  id : s'.id = s.id
  closed : s'.closed = s.closed
  grows : dir.Grows dir'
  flag : s'.syncNeeded = false → s.syncNeeded = false ∨ point = .clear
  fsynced : outcome = .goesOn .clear → ∀ t : Ticket, t.file = s.id → t.InFile dir → t.Fsynced dir'
  returns : outcome = .returns true → s.syncNeeded = false ∨ s.closed = true ∨ point = .clear

variable {point : SyncPoint} {outcome : SyncOutcome}

theorem syncStepped_of_syncStep {s s' : Segment} {dir dir' : Dir} {ok : Bool}
    (eq : s.syncStep dir ok point = ((s', dir'), outcome)) :
    SyncStepped s s' dir dir' point outcome := by
  cases point with
  | check =>
    simp only [Segment.syncStep] at eq
    split at eq
    · rename_i skip
      cases eq
      refine ⟨rfl, rfl, .refl _, .inl, nofun, fun _ => ?_⟩
      rcases Bool.or_eq_true_iff.mp skip with clean | closed
      · exact .inl (by simpa using clean)
      · exact .inr (.inl closed)
    · cases eq
      exact ⟨rfl, rfl, .refl _, .inl, nofun, nofun⟩
  | fsync =>
    simp only [Segment.syncStep] at eq
    split at eq
    · cases eq
      refine ⟨rfl, rfl, Dir.grows_sync _ _, .inl, fun _ t file inFile => ?_,
        nofun⟩
      unfold Ticket.Fsynced
      unfold Ticket.InFile at inFile
      rw [file] at inFile ⊢
      rw [Dir.synced_sync_self]
      exact inFile
    · cases eq
      exact ⟨rfl, rfl, .refl _, .inl, nofun, nofun⟩
  | clear =>
    cases eq
    exact ⟨rfl, rfl, .refl _, fun _ => .inr rfl, nofun, fun _ => .inr (.inr rfl)⟩

theorem syncSegment_eq_some {s s' : Group} {g : ℕ} {ok : Bool}
    (eq : s.syncSegment g point ok = some (s', outcome)) :
    ∃ segment disk, SyncStepped (s.segment g) segment s.disk disk point outcome ∧
      s' = { s with disk := disk, segment := Function.update s.segment g segment } := by
  unfold syncSegment at eq
  split at eq
  · nomatch eq
  · cases eq
    exact ⟨_, _, syncStepped_of_syncStep rfl, rfl⟩

variable {f : Flusher}

theorem Answers.grows {disk disk' : Dir} (answers : Answers disk f)
    (inFile : ∀ t ∈ f.batch, t.InFile disk) (grows : disk.Grows disk') : Answers disk' f := by
  cases f with
  | fired | taken batch | done => trivial
  | syncing batch g point =>
    intro t mem
    exact (answers t mem).imp_right fun fsynced => fsynced.grows (inFile t mem) grows
  | synced batch result =>
    cases result with
    | false => trivial
    | true => exact fun t mem => (answers t mem).grows (inFile t mem) grows

namespace OK

variable {s s' : Group} {j : ℕ}

theorem mem_of_batch (at_j : s.flushers[j]? = some f) (t : Ticket)
    (mem : t ∈ s.pendingSync ∨ t ∈ f.batch) : t ∈ s.tickets :=
  mem_tickets.mpr (.inr (mem.imp_right fun batch => ⟨f, mem_of_getElem? at_j, batch⟩))

section

variable (ok : s.OK)

include ok

theorem inFile (mem : f ∈ s.flushers) : ∀ t ∈ f.batch, t.InFile s.disk :=
  fun t memT => (ok.known t (mem_tickets.mpr (.inr (.inr ⟨f, mem, memT⟩)))).2.2

/-- A step that writes no record: the files grow, calls that wait stay or are answered, and
what becomes settled is synced. -/
theorem of_grows (grows : s.disk.Grows s'.disk) (opened : ∀ g, (s'.segment g).closed = false)
    (ids : ∀ g ≤ s.active, (s'.segment g).id = (s.segment g).id) (active : s.active ≤ s'.active)
    (tickets : ∀ t ∈ s'.tickets, t ∈ s.tickets)
    (settled : ∀ t ∈ s'.tickets, s'.Settled t.segment → s.Settled t.segment ∨ t.Fsynced s'.disk)
    (flushers : ∀ f ∈ s'.flushers, f ∈ s.flushers ∨ Answers s'.disk f)
    (acked : ∀ t ∈ s'.acked, t ∈ s.acked ∨ t ∈ s.tickets ∧ t.Fsynced s'.disk) : s'.OK := by
  constructor
  · exact opened
  · intro t mem
    obtain ⟨segment, file, inFile⟩ := ok.known t (tickets t mem)
    exact ⟨segment.trans active, by rw [ids _ segment, file], inFile.grows grows⟩
  · intro t mem now
    rcases settled t mem now with before | fsynced
    · have old := tickets t mem
      exact (ok.settled t old before).grows (ok.known t old).2.2 grows
    · exact fsynced
  · intro f mem
    rcases flushers f mem with old | new
    · exact (ok.flushers f old).grows (ok.inFile old) grows
    · exact new
  · intro t mem
    rcases acked t mem with old | ⟨old, fsynced⟩
    · obtain ⟨inFile, fsynced⟩ := ok.acked t old
      exact ⟨inFile.grows grows, fsynced.grows inFile grows⟩
    · exact ⟨(ok.known t old).2.2.grows grows, fsynced⟩

/-- Steps that only move the calls along. -/
theorem of_same (disk : s'.disk = s.disk) (segment : s'.segment = s.segment)
    (active : s'.active = s.active) (tickets : ∀ t ∈ s'.tickets, t ∈ s.tickets)
    (settled : ∀ g, s'.Settled g → s.Settled g)
    (flushers : ∀ f ∈ s'.flushers, f ∈ s.flushers ∨ Answers s.disk f)
    (acked : ∀ t ∈ s'.acked, t ∈ s.acked ∨ t ∈ s.tickets ∧ t.Fsynced s.disk) : s'.OK := by
  refine ok.of_grows ?_ ?_ ?_ (le_of_eq active.symm) tickets
    (fun t _ now => .inl (settled _ now)) ?_ ?_
  · rw [disk]
    exact .refl _
  · rw [segment]
    exact ok.opened
  · intro g _
    rw [segment]
  · rw [disk]
    exact flushers
  · rw [disk]
    exact acked

variable {holder : Option Holder}

theorem holder_eq (tickets : Holder.tickets holder = [])
    (idle : ∀ entry, holder ≠ some (.sealing entry .clear) ∧ holder ≠ some (.sealed entry)) :
    OK { s with holder := holder } := by
  refine ok.of_same rfl rfl rfl ?_ ?_ (fun f mem => .inl mem) (fun t mem => .inl mem)
  · intro t mem
    rw [mem_tickets] at mem ⊢
    rw [tickets] at mem
    exact .inr (mem.resolve_left (not_mem_nil))
  · intro g now
    refine now.of_same rfl rfl id ?_
    rintro entry (sealing | sealed)
    · exact absurd sealing (idle entry).1
    · exact absurd sealed (idle entry).2

/-- Writing a record while no `Sync` is about to clear the flag of the segment. -/
theorem writeRecord {entry : WALEntry} (quiet : s.Fits entry → ¬ s.Clearing s.active)
    (eq : s.writeRecord entry = some s') : s'.OK := by
  unfold Group.writeRecord at eq
  by_cases full : (s.segment s.active).maxSize <
      (s.segment s.active).size + entry.record.encode.length
  · rw [Segment.writeRecord_of_lt _ full] at eq
    nomatch eq
  · rw [Segment.writeRecord_of_le _ (not_lt.mp full)] at eq
    cases eq
    have quiet := quiet (not_lt.mp full)
    have grows := Dir.grows_append s.disk (s.segment s.active).id entry.record.encode
    constructor
    · exact (Function.forall_update_iff s.segment fun _ segment => segment.closed = false).mpr
        ⟨ok.opened s.active, fun g _ => ok.opened g⟩
    · intro t mem
      rcases mem_tickets.mp mem with new | old
      · rw [mem_singleton.mp new]
        refine ⟨le_rfl, ?_, le_rfl⟩
        dsimp only
        rw [Function.update_self]
      · obtain ⟨segment, file, inFile⟩ := ok.known t (mem_tickets.mpr (.inr old))
        refine ⟨segment, ?_, inFile.grows grows⟩
        dsimp only
        by_cases same : t.segment = s.active
        · rw [file, same, Function.update_self]
          rfl
        · rw [file, Function.update_of_ne same]
    · intro t mem now
      -- the segment that was written to is not settled
      have other : t.segment ≠ s.active := by
        intro same
        rw [same] at now
        rcases now with flag | sealed | clearing | ⟨_, entry, sealing | sealed⟩
        · dsimp only at flag
          rw [Function.update_self] at flag
          nomatch flag
        · exact lt_irrefl _ sealed
        · exact quiet clearing
        · nomatch sealing
        · nomatch sealed
      rcases mem_tickets.mp mem with new | old
      · rw [mem_singleton.mp new] at other
        exact absurd rfl other
      · have before : t ∈ s.tickets := mem_tickets.mpr (.inr old)
        refine (ok.settled t before ?_).grows (ok.known t before).2.2 grows
        rcases now with flag | sealed | clearing | ⟨same, _⟩
        · dsimp only at flag
          rw [Function.update_of_ne other] at flag
          exact .inl flag
        · exact .inr (.inl sealed)
        · exact .inr (.inr (.inl clearing))
        · exact absurd same other
    · intro f mem
      exact (ok.flushers f mem).grows (ok.inFile mem) grows
    · intro t mem
      obtain ⟨inFile, fsynced⟩ := ok.acked t mem
      exact ⟨inFile.grows grows, fsynced.grows inFile grows⟩

theorem write {data : Bytes} {ts : HLCTimestamp} (undisturbed : s.Undisturbed (.write data ts))
    (eq : s.step (.write data ts) = some s') : s'.OK := by
  have advanced : OK { s with nextSeq := s.nextSeq + 1 } := { ok with }
  simp only [step] at eq
  split at eq
  · nomatch eq
  · split at eq
    · rename_i written
      cases eq
      exact advanced.writeRecord (undisturbed _ rfl) written
    · cases eq
      refine advanced.holder_eq rfl fun entry => ⟨?_, ?_⟩ <;> exact nofun

theorem retry (undisturbed : s.Undisturbed .retry) (eq : s.step .retry = some s') : s'.OK := by
  simp only [step] at eq
  split at eq
  · rename_i entry holder
    have writes : entry ∈ s.writes .retry := by
      simp [Group.writes, holder]
    split at eq
    · rename_i written
      cases eq
      exact ok.writeRecord (undisturbed entry writes) written
    · cases eq
      refine ok.holder_eq rfl fun entry => ⟨?_, ?_⟩ <;> exact nofun
  · nomatch eq

theorem create (eq : s.step .create = some s') : s'.OK := by
  simp only [step] at eq
  split at eq
  · rename_i entry holder
    split at eq
    · nomatch eq
    · rename_i segment disk created
      cases eq
      unfold Segment.new Segment.writeRecord at created
      dsimp only at created
      split at created
      · nomatch created
      · cases created
        have others : ∀ g ≤ s.active, ∀ segment,
            Function.update s.segment (s.active + 1) segment g = s.segment g := by
          intro g le segment
          rw [Function.update_of_ne (Nat.ne_of_lt (Nat.lt_succ_of_le le))]
        have tickets : ∀ t ∈ s.pendingSync ++ s.flushers.flatMap Flusher.batch,
            t ∈ s.tickets := fun t mem => by
          rw [Group.tickets, append_assoc]
          exact mem_append_right _ mem
        refine ok.of_grows (Dir.grows_append _ _ _) ?_ ?_ (Nat.le_succ _) tickets ?_
          (fun f mem => .inl mem) (fun t mem => .inl mem)
        · exact (Function.forall_update_iff s.segment fun _ segment => segment.closed = false).mpr
            ⟨rfl, fun g _ => ok.opened g⟩
        · intro g le
          dsimp only
          rw [others g le]
        · intro t mem now
          left
          have le := (ok.known t (tickets t mem)).1
          -- the old active segment has just been synced, and is sealed now
          rcases lt_or_eq_of_le le with sealed | active
          · exact .inr (.inl sealed)
          · exact .inr (.inr (.inr ⟨active, entry, .inr holder⟩))
  · nomatch eq

theorem enqueue (eq : s.step .enqueue = some s') : s'.OK := by
  simp only [step] at eq
  split at eq
  · rename_i ticket holder
    cases eq
    refine ok.of_same rfl rfl rfl ?_ ?_ (fun f mem => .inl mem) (fun t mem => .inl mem)
    · intro t mem
      rw [mem_tickets] at mem ⊢
      rw [holder]
      rcases mem with none | pending | batch
      · nomatch none
      · rcases mem_append.mp pending with old | new
        · exact .inr (.inl old)
        · exact .inl new
      · exact .inr (.inr batch)
    · intro g now
      refine now.of_same rfl rfl id ?_
      rintro entry (sealing | sealed)
      · nomatch sealing
      · nomatch sealed
  · nomatch eq

variable {flushers : List Flusher}

/-- A run of `flushPendingSync` starts or goes on without a step of `Sync`. -/
theorem with_flusher {pending : List Ticket} {syncTimer : Bool} {armed syncCount : ℕ}
    {acked : List Ticket} (others : ∀ f' ∈ flushers, f' ∈ s.flushers ∨ f' = f)
    (tickets : ∀ t, t ∈ pending ∨ t ∈ f.batch → t ∈ s.tickets)
    (starts : ∀ batch g, f ≠ .syncing batch g .clear) (answers : Answers s.disk f)
    (told : ∀ t ∈ acked, t ∈ s.acked ∨ t ∈ s.tickets ∧ t.Fsynced s.disk) :
    OK { s with
      pendingSync := pending
      syncTimer := syncTimer
      armed := armed
      flushers := flushers
      syncCount := syncCount
      acked := acked } := by
  refine ok.of_same rfl rfl rfl ?_ ?_ ?_ told
  · intro t mem
    rcases mem_tickets.mp mem with holder | pending | ⟨f', memF, batch⟩
    · exact mem_tickets.mpr (.inl holder)
    · exact tickets t (.inl pending)
    · rcases others f' memF with old | rfl
      · exact mem_tickets.mpr (.inr (.inr ⟨f', old, batch⟩))
      · exact tickets t (.inr batch)
  · intro g now
    refine now.of_same rfl rfl ?_ fun _ _ => rfl
    rintro ⟨f', memF, batch, eq⟩
    rcases others f' memF with old | rfl
    · exact ⟨f', old, batch, eq⟩
    · exact absurd eq (starts batch g)
  · intro f' mem
    rcases others f' mem with old | rfl
    · exact .inl old
    · exact .inr answers

theorem fire (eq : s.step .fire = some s') : s'.OK := by
  simp only [step] at eq
  split at eq
  · nomatch eq
  · cases eq
    refine ok.with_flusher (f := .fired) ?_ ?_ nofun trivial
      (fun t mem => .inl mem)
    · intro f mem
      exact (mem_append.mp mem).imp_right mem_singleton.mp
    · rintro t (pending | none)
      · exact mem_tickets.mpr (.inr (.inl pending))
      · nomatch none

theorem take (eq : s.step (.take j) = some s') : s'.OK := by
  simp only [step] at eq
  split at eq
  · cases eq
    refine ok.with_flusher (fun _ => mem_or_eq_of_mem_set) ?_ ?_ ?_ (fun t mem => .inl mem)
    · rintro t (none | batch)
      · nomatch none
      · split at batch
        · nomatch batch
        · exact mem_tickets.mpr (.inr (.inl batch))
    · intro batch g same
      split at same <;> nomatch same
    · split <;> trivial
  · nomatch eq

/-- The segment that is looked up is the one the records are in, or these are in segments
that have been sealed since. -/
theorem load (eq : s.step (.load j) = some s') : s'.OK := by
  simp only [step] at eq
  split at eq
  · rename_i batch at_j
    cases eq
    refine ok.with_flusher (fun _ => mem_or_eq_of_mem_set)
      (fun t mem => mem_of_batch at_j t mem) nofun ?_
      (fun t mem => .inl mem)
    intro t mem
    have waiting := mem_of_batch at_j t (.inr mem)
    rcases lt_or_eq_of_le (ok.known t waiting).1 with sealed | active
    · exact .inr (ok.settled t waiting (.inr (.inl sealed)))
    · exact .inl active
  · nomatch eq

theorem answer (eq : s.step (.answer j) = some s') : s'.OK := by
  simp only [step] at eq
  split at eq
  · rename_i batch result _ at_j
    cases eq
    refine ok.with_flusher (fun _ => mem_or_eq_of_mem_set) ?_ nofun
      trivial ?_
    · rintro t (pending | none)
      · exact mem_tickets.mpr (.inr (.inl pending))
      · nomatch none
    · intro t mem
      cases result with
      | false => exact .inl mem
      | true =>
        rcases mem_append.mp mem with old | new
        · exact .inl old
        · exact .inr ⟨mem_of_batch at_j t (.inr new),
            ok.flushers _ (mem_of_getElem? at_j) t new⟩
  · nomatch eq

section

variable {g : ℕ} {segment : Segment} {disk : Dir} {point : SyncPoint} {outcome : SyncOutcome}
  (stepped : SyncStepped (s.segment g) segment s.disk disk point outcome)
  (clearing : point = .clear → s.Settled g)

include stepped clearing

/-- A step of `Sync`, by whichever call. -/
theorem synced
    (same : Holder.tickets holder = Holder.tickets s.holder)
    (batches : ∀ f ∈ flushers, f ∈ s.flushers ∨
      (∀ t ∈ f.batch, t ∈ s.tickets) ∧ Answers disk f)
    (settled : ∀ g', (∃ f ∈ flushers, ∃ batch, f = .syncing batch g' .clear) ∨
        (g' = s.active ∧ ∃ entry,
          holder = some (.sealing entry .clear) ∨ holder = some (.sealed entry)) →
      s.Settled g' ∨ g' = g ∧ outcome = .goesOn .clear) :
    OK { s with
      disk := disk
      segment := Function.update s.segment g segment
      holder := holder
      flushers := flushers } := by
  have ids : ∀ g', (Function.update s.segment g segment g').id = (s.segment g').id :=
    (Function.forall_update_iff s.segment fun g' segment => segment.id = (s.segment g').id).mpr
      ⟨stepped.id, fun _ _ => rfl⟩
  have waiting : ∀ t, t ∈ Holder.tickets holder ∨ t ∈ s.pendingSync ∨
      (∃ f ∈ flushers, t ∈ f.batch) → t ∈ s.tickets := by
    rintro t (holder | pending | ⟨f, memF, batch⟩)
    · rw [same] at holder
      exact mem_tickets.mpr (.inl holder)
    · exact mem_tickets.mpr (.inr (.inl pending))
    · rcases batches f memF with old | ⟨all, -⟩
      · exact mem_tickets.mpr (.inr (.inr ⟨f, old, batch⟩))
      · exact all t batch
  refine ok.of_grows stepped.grows ?_ (fun g' _ => ids g') le_rfl
    (fun t mem => waiting t (mem_tickets.mp mem)) ?_ ?_ (fun t mem => .inl mem)
  · exact (Function.forall_update_iff s.segment fun _ segment => segment.closed = false).mpr
      ⟨stepped.closed.trans (ok.opened g), fun g' _ => ok.opened g'⟩
  · intro t mem now
    obtain ⟨-, file, inFile⟩ := ok.known t (waiting t (mem_tickets.mp mem))
    have later : (s.Settled t.segment ∨ t.segment = g ∧ outcome = .goesOn .clear) →
        s.Settled t.segment ∨ t.Fsynced disk := by
      rintro (before | ⟨this, goesOn⟩)
      · exact .inl before
      · exact .inr (stepped.fsynced goesOn t (by rw [file, this]) inFile)
    rcases now with flag | sealed | clears | holds
    · left
      dsimp only at flag
      by_cases this : t.segment = g
      · rw [this, Function.update_self] at flag
        rw [this]
        rcases stepped.flag flag with before | isClear
        · exact .inl before
        · exact clearing isClear
      · rw [Function.update_of_ne this] at flag
        exact .inl flag
    · exact .inl (.inr (.inl sealed))
    · exact later (settled t.segment (.inl clears))
    · exact later (settled t.segment (.inr holds))
  · intro f mem
    exact (batches f mem).imp_right fun new => new.2

/-- What `Sync` says without an error is true. -/
theorem settled_of_returns (returns : outcome = .returns true) : s.Settled g := by
  rcases stepped.returns returns with clean | closed | isClear
  · exact .inl clean
  · rw [ok.opened g] at closed
    nomatch closed
  · exact clearing isClear

theorem synced_set (waiting : ∀ t ∈ f.batch, t ∈ s.tickets) (answers : Answers disk f)
    (clears : ∀ batch g', f = .syncing batch g' .clear → g' = g ∧ outcome = .goesOn .clear) :
    OK { s with
      disk := disk
      segment := Function.update s.segment g segment
      flushers := s.flushers.set j f } := by
  refine ok.synced stepped clearing rfl ?_ ?_
  · intro f' memF
    rcases mem_or_eq_of_mem_set memF with old | rfl
    · exact .inl old
    · exact .inr ⟨waiting, answers⟩
  · rintro g' (⟨f', memF, batch, isClearing⟩ | holds)
    · rcases mem_or_eq_of_mem_set memF with old | rfl
      · exact .inl (.inr (.inr (.inl ⟨f', old, batch, isClearing⟩)))
      · exact .inr (clears batch g' isClearing)
    · exact .inl (.inr (.inr (.inr holds)))

end

variable {result : Bool}

theorem sync (eq : s.step (.sync j result) = some s') : s'.OK := by
  simp only [step] at eq
  split at eq
  · rename_i batch g point at_j
    have mem := mem_of_getElem? at_j
    have waiting : ∀ t ∈ batch, t ∈ s.tickets := fun t memT => mem_of_batch at_j t (.inr memT)
    have clearing : point = .clear → s.Settled g := by
      rintro rfl
      exact .inr (.inr (.inl ⟨_, mem, batch, rfl⟩))
    split at eq
    · nomatch eq
    · rename_i s₁ point' moved
      cases eq
      obtain ⟨segment, disk, stepped, rfl⟩ := syncSegment_eq_some moved
      refine ok.synced_set (f := .syncing batch g point') stepped clearing waiting
        ((ok.flushers _ mem).grows (ok.inFile mem) stepped.grows) ?_
      intro _ _ isClearing
      cases isClearing
      exact ⟨rfl, rfl⟩
    · rename_i s₁ result' moved
      cases eq
      obtain ⟨segment, disk, stepped, rfl⟩ := syncSegment_eq_some moved
      refine ok.synced_set (f := .synced batch result') stepped clearing waiting ?_
        nofun
      cases result' with
      | false => trivial
      | true =>
        have settled := ok.settled_of_returns stepped clearing rfl
        intro t memT
        have inFile := (ok.known t (waiting t memT)).2.2
        rcases ok.flushers _ mem t memT with this | fsynced
        · rw [← this] at settled
          exact (ok.settled t (waiting t memT) settled).grows inFile stepped.grows
        · exact fsynced.grows inFile stepped.grows
  · nomatch eq

theorem syncSealed (eq : s.step (.syncSealed result) = some s') : s'.OK := by
  simp only [step] at eq
  split at eq
  · rename_i entry point holder
    have clearing : point = .clear → s.Settled s.active := by
      rintro rfl
      exact .inr (.inr (.inr ⟨rfl, entry, .inl holder⟩))
    have noTicket : Holder.tickets s.holder = [] := by
      rw [holder]
      rfl
    split at eq
    · nomatch eq
    -- `Sync` goes on, has returned or has failed; what it knows is with the holder of the lock
    all_goals
      rename_i moved
      cases eq
      obtain ⟨segment, disk, stepped, rfl⟩ := syncSegment_eq_some moved
      refine ok.synced stepped clearing noTicket.symm (fun f mem => .inl mem) ?_
      rintro g' (clears | ⟨rfl, holds⟩)
      · exact .inl (.inr (.inr (.inl clears)))
    · obtain ⟨entry', isClearing | isSealed⟩ := holds
      · cases isClearing
        exact .inr ⟨rfl, rfl⟩
      · nomatch isSealed
    · exact .inl (ok.settled_of_returns stepped clearing rfl)
    · obtain ⟨entry', isClearing | isSealed⟩ := holds
      · nomatch isClearing
      · nomatch isSealed
  · nomatch eq

theorem step {event : GroupEvent} (undisturbed : s.Undisturbed event)
    (eq : s.step event = some s') : s'.OK := by
  cases event with
  | write data ts => exact ok.write undisturbed eq
  | syncSealed result => exact ok.syncSealed eq
  | create => exact ok.create eq
  | retry => exact ok.retry undisturbed eq
  | enqueue => exact ok.enqueue eq
  | fire => exact ok.fire eq
  | take j => exact ok.take eq
  | load j => exact ok.load eq
  | sync j result => exact ok.sync eq
  | answer j => exact ok.answer eq

end

theorem start {dir disk : Dir} {w : WAL} (opened : WAL.openWAL dir = .ok (w, disk)) :
    OK (Group.start w disk) := by
  obtain ⟨_, -, -, -, -, -, -, -, -, -, -, active, -⟩ := WAL.openWAL_eq opened
  constructor
  · exact fun _ => active
  · exact nofun
  · exact nofun
  · exact nofun
  · exact nofun

end OK

end Group

/-- In every run in which no record is written between the `fsync` of a `Sync` and the
clearing of the flag, every record whose `Write` returned without an error was in its file
when an `fsync` of that file began. -/
theorem acked_fsynced {dir disk : Dir} {w : WAL} (opened : WAL.openWAL dir = .ok (w, disk))
    {s : Group} (reachable : Runs.Reachable Group.step Group.Undisturbed (.start w disk) s) :
    ∀ t ∈ s.acked, t.Fsynced s.disk := by
  have ok : s.OK := reachable.invariant (.start opened)
    fun s event s' ok undisturbed happens => ok.step undisturbed happens
  exact fun t mem => (ok.acked t mem).2

/-- A process in an empty directory carries out some steps. -/
theorem exists_of_group_exec (allowed : Group → GroupEvent → Prop)
    [∀ s, DecidablePred (allowed s)] (events : List GroupEvent) (P : Group → Prop)
    (runs : ∃ w disk, WAL.openWAL ∅ = .ok (w, disk) ∧
      ∃ s, Runs.exec Group.step allowed (.start w disk) events = some s ∧ P s) :
    ∃ w disk s, WAL.openWAL ∅ = .ok (w, disk) ∧
      Runs.Reachable Group.step allowed (.start w disk) s ∧ P s := by
  obtain ⟨w, disk, opened, runs⟩ := runs
  obtain ⟨s, ends⟩ := Runs.exists_of_exec Group.step allowed (.start w disk) events runs
  exact ⟨w, disk, s, opened, ends⟩

/-- The record of a second call gets into the file before the `fsync` for the first one, and
the call waits for a sync of its own. -/
theorem acked_fsynced_overlapping :
    ∃ w disk s, WAL.openWAL ∅ = .ok (w, disk) ∧
      Runs.Reachable Group.step Group.Undisturbed (.start w disk) s ∧
      s.acked.map (fun t => t.entry.data) = [[7], [8]] ∧ ∀ t ∈ s.acked, t.Fsynced s.disk := by
  obtain ⟨w, disk, s, opened, reachable, answered⟩ := exists_of_group_exec Group.Undisturbed
    [.write [7] 5, .enqueue, .fire, .take 0, .load 0, .sync 0 true, .write [8] 6, .sync 0 true,
      .enqueue, .sync 0 true, .answer 0, .fire, .take 1, .load 1, .sync 1 true, .answer 1]
    (fun s => s.acked.map (fun t => t.entry.data) = [[7], [8]]) (by decide +kernel)
  exact ⟨w, disk, s, opened, reachable, answered, acked_fsynced opened reachable⟩

/-- The second record is written after the `fsync` for the first one and before that `Sync`
clears the flag; the next `Sync` finds nothing to do.  There is one segment, which is never
sealed. -/
theorem acked_not_fsynced :
    ∃ w disk s, WAL.openWAL ∅ = .ok (w, disk) ∧
      Runs.Reachable Group.step (fun _ _ => True) (.start w disk) s ∧
      s.active = 0 ∧ ∃ t ∈ s.acked, t.entry.data = [8] ∧ ¬ t.Fsynced s.disk := by
  exact exists_of_group_exec (fun _ _ => True)
    [.write [7] 5, .enqueue, .fire, .take 0, .load 0, .sync 0 true, .sync 0 true,
      .write [8] 6, .enqueue, .sync 0 true, .answer 0,
      .fire, .take 1, .load 1, .sync 1 true, .answer 1] _ (by decide +kernel)

end Hermes.Storage.Wal
