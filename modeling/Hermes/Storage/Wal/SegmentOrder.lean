import Hermes.Storage.Wal.TornTails

/-!
# The order of the segments

`Open` numbers a segment by the next sequence number, `rotateSegment` by counting the
segments of the process.  The two rules agree only in the first process of a directory.
When rotations are left to it and every process leaves data in its last segment, each new
segment comes behind all the others, and the files in the order of their names hold the
data in the order in which it was written.
-/

namespace Hermes.Storage.Wal

open AList List Option
open Clock (HLCTimestamp)

/-! ## The numbers in a file -/

/-- The numbers of the data records that can be read from a file. -/
def numbers (bytes : Bytes) : List ℕ :=
  (WAL.entriesFrom 0 bytes).map WALEntry.sequence

def dataNumbers (records : List Record) : List ℕ :=
  (records.filter fun r => decide (r.type = .data)).map Record.sequence

variable {records : List Record} {n : ℕ}

theorem mem_dataNumbers :
    n ∈ dataNumbers records ↔ ∃ r ∈ records, r.type = .data ∧ r.sequence = n := by
  simp [dataNumbers, and_assoc]

theorem dataNumbers_concat (records : List Record) (r : Record) :
    dataNumbers (records ++ [r]) =
      dataNumbers records ++ if r.type = .data then [r.sequence] else [] := by
  by_cases isData : r.type = .data <;> simp [dataNumbers, isData]

theorem numbers_take (storable : ∀ r ∈ records, r.Storable) (n : ℕ) :
    numbers ((records.flatMap Record.encode).take n) =
      dataNumbers (records.take (wholeRecords records n)) := by
  simp [numbers, WAL.entriesFrom, readAll_take storable n, dataNumbers]

theorem numbers_flatMap (storable : ∀ r ∈ records, r.Storable) :
    numbers (records.flatMap Record.encode) = dataNumbers records := by
  simp [numbers, WAL.entriesFrom, readAll_flatMap_encode storable, dataNumbers]

theorem mem_numbers {bytes : Bytes} :
    n ∈ numbers bytes ↔ ∃ records, readAll bytes = .ok records ∧
      ∃ r ∈ records, r.type = .data ∧ r.sequence = n := by
  unfold numbers WAL.entriesFrom
  cases readAll bytes with
  | error err => simp
  | ok records => simp [and_assoc]

/-- Records of segment `id` with growing numbers. -/
structure Filed (id : ℕ) (records : List Record) : Prop where
  placed : ∀ r ∈ records, Placed id r
  increasing : (dataNumbers records).Pairwise (· < ·)

variable {r : Record}

namespace Filed

theorem nil (id : ℕ) : Filed id [] where
  placed _ mem := nomatch mem
  increasing := .nil

variable {id : ℕ} (filed : Filed id records)

include filed

theorem storable : ∀ r ∈ records, r.Storable :=
  fun r mem => (filed.placed r mem).storable

theorem concat (placed : Placed id r)
    (above : r.type = .data → ∀ n ∈ dataNumbers records, n < r.sequence) :
    Filed id (records ++ [r]) := by
  constructor
  · rw [forall_mem_append, forall_mem_singleton]
    exact ⟨filed.placed, placed⟩
  · rw [dataNumbers_concat]
    split
    · rename_i isData
      refine pairwise_append.mpr ⟨filed.increasing, pairwise_singleton _ _, ?_⟩
      intro n mem n' mem'
      rw [mem_singleton.mp mem']
      exact above isData n mem
    · rw [append_nil]
      exact filed.increasing

end Filed

/-- What a crash may leave of records that were written in order. -/
def InOrder (id : ℕ) (bytes : Bytes) : Prop :=
  ∃ (records : List Record) (n : ℕ), Filed id records ∧
    bytes = (records.flatMap Record.encode).take n

namespace InOrder

variable {id : ℕ} {bytes : Bytes}

theorem of_filed (filed : Filed id records) : InOrder id (records.flatMap Record.encode) :=
  ⟨records, _, filed, take_length.symm⟩

section

variable (inOrder : InOrder id bytes)

include inOrder

theorem pairwise : (numbers bytes).Pairwise (· < ·) := by
  obtain ⟨records, m, filed, rfl⟩ := inOrder
  rw [numbers_take filed.storable]
  exact filed.increasing.sublist
    (((take_sublist _ _).filter _).map _)

theorem bounds_of_mem (mem : n ∈ numbers bytes) : id ≤ n ∧ n + 1 < 2 ^ 64 := by
  obtain ⟨records, m, filed, rfl⟩ := inOrder
  rw [numbers_take filed.storable, mem_dataNumbers] at mem
  obtain ⟨r, memR, isData, rfl⟩ := mem
  exact (filed.placed r (mem_of_mem_take memR)).data isData

theorem take (k : ℕ) : InOrder id (bytes.take k) := by
  obtain ⟨records, m, filed, rfl⟩ := inOrder
  exact ⟨records, min k m, filed, take_take⟩

theorem mem_of_mem_take {k : ℕ} (mem : n ∈ numbers (bytes.take k)) : n ∈ numbers bytes := by
  obtain ⟨records, m, filed, rfl⟩ := inOrder
  rw [take_take, numbers_take filed.storable, mem_dataNumbers] at mem
  rw [numbers_take filed.storable, mem_dataNumbers]
  obtain ⟨r, memR, isData, eq⟩ := mem
  have fewer : wholeRecords records (min k m) ≤ wholeRecords records m :=
    le_wholeRecords (wholeRecords_le _ _)
      ((length_flatMap_take_wholeRecords _ _).trans (min_le_right _ _))
  exact ⟨r, (take_prefix_take_left fewer).subset memR, isData, eq⟩

end

end InOrder

/-! ## Directories -/

namespace Dir

/-- The numbers of the data records of all the files, in the order of their names. -/
def sequences (dir : Dir) : List ℕ :=
  dir.keys.mergeSort.flatMap fun id => numbers (dir.content id)

variable {dir : Dir} {id q : ℕ}

theorem content_of_not_mem_keys (absent : q ∉ dir.keys) : dir.content q = [] := by
  rw [content, lookup_eq_none.mpr (fun mem => absent (mem_keys.mp mem))]
  rfl

theorem mem_keys_append (bytes : Bytes) :
    q ∈ (dir.append id bytes).keys ↔ q = id ∨ q ∈ dir.keys := by
  rw [← AList.mem_keys, append, AList.mem_insert, AList.mem_keys]

theorem mem_keys_sync : q ∈ (dir.sync id).keys ↔ q ∈ dir.keys := by
  rw [← AList.mem_keys, ← AList.mem_keys, ← AList.lookup_isSome, ← AList.lookup_isSome,
    lookup_sync, isSome_map]

theorem mem_keys_syncSegment (segment : Segment) :
    q ∈ (segment.sync dir).2.keys ↔ q ∈ dir.keys := by
  unfold Segment.sync
  split
  · exact Iff.rfl
  · exact mem_keys_sync

theorem content_crash (dir : Dir) (kept : ℕ → ℕ) (q : ℕ) :
    ∃ k, (dir.crash kept).content q = (dir.content q).take k := by
  unfold content
  rw [lookup_crash]
  cases dir.lookup q with
  | none => exact ⟨0, rfl⟩
  | some file => exact ⟨max file.synced (kept q), rfl⟩

end Dir

/-- A directory whose files hold the data in the order in which it was written. -/
structure Ordered (dir : Dir) : Prop where
  filed : ∀ id, InOrder id (dir.content id)
  apart : ∀ id id', id < id' → ∀ n ∈ numbers (dir.content id),
    ∀ n' ∈ numbers (dir.content id'), n < n'

variable {dir dir' : Dir} {id bound : ℕ}

namespace Ordered

theorem empty : Ordered ∅ where
  filed id := .of_filed (.nil id)
  apart _ _ _ _ mem := nomatch mem

/-- A number in a file that has been written to was there before or is that of the new
record. -/
theorem mem_numbers_append {q : ℕ} (filed : Filed id records)
    (content : dir.content id = records.flatMap Record.encode) (placed : Placed id r)
    (mem : n ∈ numbers ((dir.append id r.encode).content q)) :
    n ∈ numbers (dir.content q) ∨ q = id ∧ r.type = .data ∧ n = r.sequence := by
  by_cases same : q = id
  · have storable : ∀ r' ∈ records ++ [r], r'.Storable := by
      rw [forall_mem_append, forall_mem_singleton]
      exact ⟨filed.storable, placed.storable⟩
    rw [same, Dir.content_append_record content, numbers_flatMap storable, dataNumbers_concat,
      mem_append] at mem
    rcases mem with old | new
    · rw [same, content, numbers_flatMap filed.storable]
      exact .inl old
    · split at new
      · rename_i isData
        exact .inr ⟨same, isData, mem_singleton.mp new⟩
      · nomatch new
  · rw [Dir.content_append_of_ne _ same] at mem
    exact .inl mem

variable (ordered : Ordered dir)

include ordered

theorem of_content (same : ∀ q, dir'.content q = dir.content q) : Ordered dir' where
  filed id := by
    rw [same]
    exact ordered.filed id
  apart id id' := by
    rw [same, same]
    exact ordered.apart id id'

theorem sequences_pairwise : dir.sequences.Pairwise (· ≤ ·) := by
  have sorted : dir.keys.mergeSort.Pairwise (· ≤ ·) := by
    have transitive : ∀ a b c : ℕ, decide (a ≤ b) → decide (b ≤ c) → decide (a ≤ c) := by
      simpa using fun a b c => le_trans
    have total : ∀ a b : ℕ, decide (a ≤ b) || decide (b ≤ a) := by
      simpa using le_total
    simpa using pairwise_mergeSort transitive total dir.keys
  have distinct : dir.keys.mergeSort.Nodup :=
    (mergeSort_perm _ _).nodup_iff.mpr dir.keys_nodup
  refine pairwise_flatMap.mpr ⟨?_, ?_⟩
  · intro id _
    exact (ordered.filed id).pairwise.imp le_of_lt
  · refine (sorted.and distinct).imp ?_
    rintro id id' ⟨le, ne⟩ n mem n' mem'
    exact (ordered.apart id id' (lt_of_le_of_ne le ne) n mem n' mem').le

theorem crash (kept : ℕ → ℕ) : Ordered (dir.crash kept) := by
  constructor
  · intro id
    obtain ⟨k, eq⟩ := dir.content_crash kept id
    rw [eq]
    exact (ordered.filed id).take k
  · intro id id' lt n mem n' mem'
    obtain ⟨k, eq⟩ := dir.content_crash kept id
    obtain ⟨k', eq'⟩ := dir.content_crash kept id'
    rw [eq] at mem
    rw [eq'] at mem'
    exact ordered.apart id id' lt n ((ordered.filed id).mem_of_mem_take mem) n'
      ((ordered.filed id').mem_of_mem_take mem')

end Ordered

/-- The last file has whole records, and all numbers are below a bound. -/
structure Ends (dir : Dir) (id bound : ℕ) : Prop where
  ordered : Ordered dir
  last : ∀ q ∈ dir.keys, q ≤ id
  whole : ∃ records, Filed id records ∧ dir.content id = records.flatMap Record.encode
  below : ∀ q, ∀ n ∈ numbers (dir.content q), n < bound

/-- A file that comes behind the others can be begun. -/
theorem Ordered.ends (ordered : Ordered dir) (fresh : ∀ q ∈ dir.keys, q < id)
    (below : ∀ q, ∀ n ∈ numbers (dir.content q), n < bound) : Ends dir id bound where
  ordered := ordered
  last q mem := (fresh q mem).le
  whole := ⟨[], .nil id,
    Dir.content_of_not_mem_keys fun present => lt_irrefl _ (fresh id present)⟩
  below := below

/-- Writing to the last file. -/
theorem Ends.append (ends : Ends dir id bound) {bound' : ℕ} (placed : Placed id r)
    (le : bound ≤ bound') (next : r.type = .data → bound ≤ r.sequence ∧ r.sequence < bound') :
    Ends (dir.append id r.encode) id bound' := by
  obtain ⟨records, filed, content⟩ := ends.whole
  have above : r.type = .data → ∀ q, ∀ n ∈ numbers (dir.content q), n < r.sequence :=
    fun isData q n mem => (ends.below q n mem).trans_le (next isData).1
  have filed' : Filed id (records ++ [r]) := by
    refine filed.concat placed fun isData => ?_
    rw [← numbers_flatMap filed.storable, ← content]
    exact above isData id
  have content' := Dir.content_append_record content r
  refine ⟨⟨?_, ?_⟩, ?_, ⟨_, filed', content'⟩, ?_⟩
  · intro q
    by_cases same : q = id
    · rw [same, content']
      exact .of_filed filed'
    · rw [Dir.content_append_of_ne _ same]
      exact ends.ordered.filed q
  · intro q q' lt n mem n' mem'
    rcases Ordered.mem_numbers_append filed content placed mem' with old' | ⟨rfl, isData, rfl⟩
    · rcases Ordered.mem_numbers_append filed content placed mem with old | ⟨rfl, -, -⟩
      · exact ends.ordered.apart q q' lt n old n' old'
      · -- nothing is behind the last file
        have absent : q' ∉ dir.keys := fun present => not_le.mpr lt (ends.last q' present)
        rw [Dir.content_of_not_mem_keys absent] at old'
        nomatch old'
    · rw [Dir.content_append_of_ne _ (ne_of_lt lt)] at mem
      exact above isData q n mem
  · intro q present
    rcases (Dir.mem_keys_append _).mp present with rfl | old
    · exact le_rfl
    · exact ends.last q old
  · intro q n mem
    rcases Ordered.mem_numbers_append filed content placed mem with old | ⟨-, isData, rfl⟩
    · exact (ends.below q n old).trans_le le
    · exact (next isData).2

/-! ## The condition -/

/-- The numbers of the segments that a process has created. -/
def WAL.ownIds (w : WAL) : List ℕ :=
  w.sealed.map Segment.id ++ [w.active.id]

/-- `Open` finds data in the last segment of the directory, if there is one; and the log
only rotates in a process that has created all the segments of the directory. -/
def System.Advances (s : System) : Event → Prop
  | .openWAL => ∀ id ∈ s.disk.keys, (∀ q ∈ s.disk.keys, q ≤ id) →
    numbers (s.disk.content id) ≠ []
  | .write data ts => ∀ w ∈ s.wal, w.Rotates (w.nextRecord data ts) →
    ∀ id ∈ s.disk.keys, id ∈ w.ownIds
  | _ => True

instance (s : System) : DecidablePred s.Advances := by
  rintro ⟨⟩ <;> delta System.Advances <;> infer_instance

/-- The segment that is created between two states, by opening the log or by a
rotation. -/
def System.created (s s' : System) : Option ℕ :=
  match s.wal, s'.wal with
  | _, none => none
  | none, some w' => some w'.active.id
  | some w, some w' => if w.sealed.length < w'.sealed.length then some w'.active.id else none

/-! ## The invariant -/

/-- The log of a process writes to the last segment.  If there are only segments of this
process, they are numbered by counting. -/
structure Tip (disk : Dir) (w : WAL) : Prop where
  session : Session w
  ends : Ends disk w.active.id w.nextSeq
  counted : (∃ q ∈ disk.keys, q ∉ w.ownIds) ∨ ∀ id ∈ w.ownIds, id ≤ w.sealed.length + 1

structure System.InLine (s : System) : Prop where
  ordered : Ordered s.disk
  tip : ∀ w ∈ s.wal, w.closed = false → Tip s.disk w

/-! ### Opening -/

namespace Ordered

section

variable {next : ℕ} (recovered : WAL.recover dir = .ok next)

include recovered

theorem numbers_lt (q n : ℕ) (mem : n ∈ numbers (dir.content q)) : n < next := by
  obtain ⟨records, read, r, memR, isData, rfl⟩ := mem_numbers.mp mem
  exact WAL.lt_of_recover recovered read memR isData

theorem exists_segment (later : next ≠ 1) : ∃ q, q ∈ dir.keys := by
  have found : ∃ maxSeq, next = maxSeq + 1 ∧ (maxSeq = 0 ∨ ∃ q, q ∈ dir.keys) := by
    refine WAL.recover_induction (.inl rfl) ?_ recovered
    intro id file known _ _ _ _ _
    refine .inr ⟨id, mem_keys.mp (lookup_isSome.mp ?_)⟩
    rw [known]
    rfl
  obtain ⟨maxSeq, rfl, rfl | some⟩ := found
  · exact absurd rfl later
  · exact some

theorem recover_lt (ordered : Ordered dir) : 1 ≤ next ∧ next < 2 ^ 64 := by
  refine WAL.recover_lt ?_ recovered
  intro id file known records read r mem isData
  rw [← Dir.content_of_lookup known] at read
  exact ((ordered.filed id).bounds_of_mem
    (mem_numbers.mpr ⟨records, read, r, mem, isData, rfl⟩)).2

/-- With data in the last segment, the next number is above all the segments. -/
theorem lt_of_recover (ordered : Ordered dir)
    (advances : ∀ id ∈ dir.keys, (∀ q ∈ dir.keys, q ≤ id) → numbers (dir.content id) ≠ [])
    {q : ℕ} (present : q ∈ dir.keys) : q < next := by
  obtain ⟨m, memM, most⟩ := dir.keys.toFinset.exists_max_image id ⟨q, mem_toFinset.mpr present⟩
  have highest : ∀ q ∈ dir.keys, q ≤ m := fun q mem => most q (mem_toFinset.mpr mem)
  obtain ⟨n, mem⟩ := exists_mem_of_ne_nil _ (advances m (mem_toFinset.mp memM) highest)
  calc
    q ≤ m := highest q present
    _ ≤ n := ((ordered.filed m).bounds_of_mem mem).1
    _ < next := numbers_lt recovered m n mem

end

theorem openWAL (ordered : Ordered dir)
    (advances : ∀ id ∈ dir.keys, (∀ q ∈ dir.keys, q ≤ id) → numbers (dir.content id) ≠ [])
    {w : WAL} (opened : WAL.openWAL dir = .ok (w, dir')) :
    (∀ q ∈ dir.keys, q < w.active.id) ∧ Tip dir' w := by
  obtain ⟨next, recovered, rfl, sealed, id, nextSeq, -⟩ := WAL.openWAL_eq opened
  obtain ⟨positive, small⟩ := recover_lt recovered ordered
  have fresh : ∀ q ∈ dir.keys, q < next := fun q => lt_of_recover recovered ordered advances
  have ends := (ordered.ends fresh (numbers_lt recovered)).append (placed_header small) le_rfl
    nofun
  have own : w.ownIds = [next] := by
    rw [WAL.ownIds, sealed, map_nil, nil_append, id]
  refine ⟨by rwa [id], .of_openWAL opened recovered positive small, ?_, ?_⟩
  · rw [id, nextSeq]
    exact ends
  · rw [own, sealed]
    by_cases first : next = 1
    · right
      intro id mem
      rw [mem_singleton.mp mem, first]
      exact le_rfl
    · left
      obtain ⟨q, present⟩ := exists_segment recovered first
      refine ⟨q, (Dir.mem_keys_append _).mpr (.inr present), fun mem => ?_⟩
      exact ne_of_lt (fresh q present) (mem_singleton.mp mem)

end Ordered

/-! ### Writing -/

namespace Tip

variable {w w' : WAL}

theorem counted_rotated (counted : ∀ id ∈ w.ownIds, id ≤ w.sealed.length + 1) :
    ∀ id ∈ (w.sealed ++ [(w.active.sync dir).1]).map Segment.id ++ [w.nextId],
      id ≤ (w.sealed ++ [(w.active.sync dir).1]).length + 1 := by
  intro id mem
  rw [map_append, Segment.sync_fst] at mem
  rw [length_append]
  rcases mem_append.mp mem with old | new
  · exact Nat.le_succ_of_le (counted id old)
  · exact le_of_eq (mem_singleton.mp new)

variable (tip : Tip dir w)

include tip

/-- A rotation in the first process of a directory comes to a new segment behind all the
others. -/
theorem rotate (own : ∀ id ∈ dir.keys, id ∈ w.ownIds) (small : w.nextId < 2 ^ 64) :
    (∀ q ∈ dir.keys, q < w.nextId) ∧ (∀ id ∈ w.ownIds, id ≤ w.sealed.length + 1) ∧
      Ends (w.rotatedDir dir) w.nextId w.nextSeq := by
  have counted : ∀ id ∈ w.ownIds, id ≤ w.sealed.length + 1 := by
    rcases tip.counted with ⟨q, present, foreign⟩ | counted
    · exact absurd (own q present) foreign
    · exact counted
  have fresh : ∀ q ∈ dir.keys, q < w.nextId := fun q present =>
    Nat.lt_succ_of_le (counted q (own q present))
  have later := w.active.later_sync dir
  have synced : Ends (w.active.sync dir).2 w.nextId w.nextSeq := by
    refine (tip.ends.ordered.of_content later.content).ends
      (fun q mem => fresh q ((Dir.mem_keys_syncSegment _).mp mem)) ?_
    intro q
    rw [later.content]
    exact tip.ends.below q
  exact ⟨fresh, counted,
    synced.append (placed_header small) le_rfl nofun⟩

/-- Writing the record with the next number. -/
theorem puts (room : w.nextSeq + 1 < 2 ^ 64) (isData : r.type = .data)
    (sequence : r.sequence = w.nextSeq) (own : w.Rotates r → ∀ id ∈ dir.keys, id ∈ w.ownIds)
    {err : Option WalError}
    (eq : WAL.writeToActive { w with nextSeq := w.nextSeq + 1 } dir r = ((w', dir'), err)) :
    (w.sealed.length < w'.sealed.length → ∀ q ∈ dir.keys, q < w'.active.id) ∧ Tip dir' w' := by
  have session := tip.session
  have small := session.nextId_lt room
  have puts := session.puts_of_writeToActive room eq
  obtain ⟨session', -, -⟩ := session.puts room puts
  have next : r.type = .data → w.nextSeq ≤ r.sequence ∧ r.sequence < w.nextSeq + 1 := by
    rw [sequence]
    exact fun _ => ⟨le_rfl, Nat.lt_succ_self _⟩
  cases puts with
  | active fits =>
    have short := session.maxSize ▸ Nat.le_of_add_left_le (not_lt.mp fits)
    have ends := tip.ends.append
      (Session.placed_data room isData sequence session.active_le short) (Nat.le_succ _) next
    refine ⟨fun longer => absurd longer (lt_irrefl _), session', ends, ?_⟩
    rcases tip.counted with ⟨q, present, foreign⟩ | counted
    · exact .inl ⟨q, (Dir.mem_keys_append _).mpr (.inr present), foreign⟩
    · exact .inr counted
  | rotated full fits =>
    obtain ⟨fresh, counted, begun⟩ := tip.rotate (own full) small
    have older := session.nextId_le full fits
    have ends := begun.append
      (Session.placed_data room isData sequence older (Nat.le_of_add_left_le fits))
      (Nat.le_succ _) next
    exact ⟨fun _ => fresh, session', ends, .inr (counted_rotated counted)⟩
  | refused full =>
    obtain ⟨fresh, counted, begun⟩ := tip.rotate (own full) small
    have below := fun q n mem => Nat.lt_succ_of_lt (begun.below q n mem)
    exact ⟨fun _ => fresh, session', { begun with below }, .inr (counted_rotated counted)⟩

/-- Other changes to the log, and syncing files, leave the order alone. -/
theorem congr (session : Session w') (content : ∀ q, dir'.content q = dir.content q)
    (keys : ∀ q, q ∈ dir'.keys ↔ q ∈ dir.keys) (id : w'.active.id = w.active.id)
    (sealed : w'.sealed = w.sealed) (nextSeq : w'.nextSeq = w.nextSeq) : Tip dir' w' := by
  have own : w'.ownIds = w.ownIds := by
    rw [WAL.ownIds, WAL.ownIds, sealed, id]
  refine ⟨session, ⟨tip.ends.ordered.of_content content, ?_, ?_, ?_⟩, ?_⟩
  · intro q present
    rw [id]
    exact tip.ends.last q ((keys q).mp present)
  · rw [id, content]
    exact tip.ends.whole
  · intro q
    rw [content, nextSeq]
    exact tip.ends.below q
  · simp only [own, sealed, keys]
    exact tip.counted

end Tip

/-! ## Runs -/

namespace System.InLine

variable {s : System} {w : WAL}

theorem start : InLine {} where
  ordered := .empty
  tip _ running := nomatch running

section

variable (line : s.InLine) (running : s.wal = some w)

include line running

theorem write (room : w.nextSeq + 1 < 2 ^ 64) {data : Bytes} {ts : HLCTimestamp}
    (advances : s.Advances (.write data ts)) :
    (w.sealed.length < (w.write s.disk data ts).1.1.sealed.length →
        ∀ q ∈ s.disk.keys, q < (w.write s.disk data ts).1.1.active.id) ∧
      InLine { s with
        wal := some (w.write s.disk data ts).1.1
        disk := (w.write s.disk data ts).1.2 } := by
  have own := advances w running
  rcases eq : w.write s.disk data ts with ⟨⟨w', dir'⟩, result⟩
  cases WAL.writes_of_write eq with
  | closed =>
    rw [← running]
    exact ⟨fun longer => absurd longer (lt_irrefl _), line⟩
  | failed opened put =>
    obtain ⟨fresh, tip⟩ := (line.tip w running opened).puts room rfl rfl own put
    refine ⟨fresh, tip.ends.ordered, ?_⟩
    rintro _ ⟨⟩ _
    exact tip
  | done opened put =>
    obtain ⟨fresh, tip⟩ := (line.tip w running opened).puts room rfl rfl own put
    refine ⟨fresh, tip.ends.ordered, ?_⟩
    rintro _ ⟨⟩ _
    exact tip.congr (tip.session.congr rfl rfl rfl rfl rfl rfl) (fun _ => rfl)
      (fun _ => Iff.rfl) rfl rfl rfl

theorem takePending (batches : List (List WALEntry)) :
    InLine { s with wal := some { w with pendingSync := [] }, batches := batches } := by
  refine ⟨line.ordered, ?_⟩
  rintro _ ⟨⟩ opened
  have tip := line.tip w running opened
  exact tip.congr (tip.session.congr rfl rfl rfl rfl rfl rfl) (fun _ => rfl)
    (fun _ => Iff.rfl) rfl rfl rfl

theorem syncBatch (syncCount : ℕ) (batches : List (List WALEntry)) (acked : List WALEntry) :
    InLine { s with
      wal := some { w with active := (w.active.sync s.disk).1, syncCount := syncCount }
      disk := (w.active.sync s.disk).2
      batches := batches
      acked := acked } := by
  have later := w.active.later_sync s.disk
  refine ⟨line.ordered.of_content later.content, ?_⟩
  rintro _ ⟨⟩ opened
  have tip := line.tip w running opened
  exact tip.congr (tip.session.syncActive syncCount) later.content
    (fun _ => Dir.mem_keys_syncSegment _) (by rw [Segment.sync_fst]) rfl rfl

theorem close : InLine { s with wal := some (w.close s.disk).1, disk := (w.close s.disk).2 } := by
  by_cases closed : w.closed
  · rw [WAL.close, if_pos closed, ← running]
    exact line
  · rw [WAL.close_eq s.disk closed]
    refine ⟨line.ordered.of_content (System.OK.later_close w s.disk).content, ?_⟩
    rintro _ ⟨⟩ opened
    cases opened

end

theorem step (line : s.InLine) {event : Event} (advances : s.Advances event) {s' : System}
    (eq : s.step event = some s') :
    (∀ id, s.created s' = some id → ∀ q ∈ s.disk.keys, q < id) ∧ s'.InLine := by
  cases System.moves_of_step eq with
  | openWAL idle opened =>
    obtain ⟨fresh, tip⟩ := line.ordered.openWAL advances opened
    constructor
    · intro id created
      rw [System.created, idle] at created
      cases created
      exact fresh
    · refine ⟨tip.ends.ordered, ?_⟩
      rintro _ ⟨⟩ _
      exact tip
  | write running room =>
    obtain ⟨fresh, line'⟩ := line.write running room advances
    refine ⟨?_, line'⟩
    intro id created
    simp only [System.created, running] at created
    split at created
    · rename_i longer
      cases created
      exact fresh longer
    · cases created
  | nonePending =>
    refine ⟨?_, line⟩
    intro id created
    unfold System.created at created
    cases running : s.wal <;> simp [running] at created
  | takePending running =>
    refine ⟨?_, line.takePending running _⟩
    intro id created
    simp [System.created, running] at created
  | syncBatch running taken =>
    refine ⟨?_, line.syncBatch running _ _ _⟩
    intro id created
    simp [System.created, running] at created
  | @close w running =>
    refine ⟨?_, line.close running⟩
    intro id created
    have same : (w.close s.disk).1.sealed.length = w.sealed.length := by
      by_cases closed : w.closed
      · rw [WAL.close, if_pos closed]
      · rw [WAL.close_eq s.disk closed]
        exact (length_closeAll w.sealed [] s.disk).trans (zero_add _)
    simp [System.created, running, same] at created
  | crash kept =>
    refine ⟨?_, line.ordered.crash kept, by rintro _ ⟨⟩⟩
    intro id created
    simp [System.created] at created

end System.InLine

/-- In every run in which `Open` finds data in the last segment and the log only rotates in
the process that has created all the segments, a new segment comes behind all the others,
its file is a new one, and the data records that are read from the files in the order of
their names have growing numbers. -/
theorem segments_ascend {s s' : System} {event : Event}
    (reachable : Runs.Reachable System.step System.Advances {} s) (advances : s.Advances event)
    (happens : s.step event = some s') :
    (∀ id, s.created s' = some id → (∀ q ∈ s.disk.keys, q < id) ∧ id ∉ s.disk.keys) ∧
      s.disk.sequences.Pairwise (· ≤ ·) ∧ s'.disk.sequences.Pairwise (· ≤ ·) := by
  have line : s.InLine := reachable.invariant .start
    fun s event s' line advances happens => (line.step advances happens).2
  obtain ⟨fresh, line'⟩ := line.step advances happens
  refine ⟨fun id created => ⟨fresh id created, fun present => ?_⟩,
    line.ordered.sequences_pairwise, line'.ordered.sequences_pairwise⟩
  exact lt_irrefl id (fresh id created id present)

/-- A process that is started again after one write opens the second segment. -/
theorem segments_ascend_reopened :
    ∃ s s' : System, Runs.Reachable System.step System.Advances {} s ∧
      s.Advances .openWAL ∧ s.step .openWAL = some s' ∧ s.created s' = some 2 ∧
      s.disk.keys = [1] ∧ (∀ q ∈ s.disk.keys, q < 2) ∧ s'.disk.sequences.Pairwise (· ≤ ·) := by
  obtain ⟨s, reachable, advances, s', happens, created, keys⟩ :=
    Runs.exists_of_exec System.step System.Advances {}
    [.openWAL, .write [7] 5, .takePending, .syncBatch 0, .close, .crash fun _ => 0]
    (P := fun s => s.Advances .openWAL ∧
      ∃ s', s.step .openWAL = some s' ∧ s.created s' = some 2 ∧ s.disk.keys = [1])
    (by decide +kernel)
  obtain ⟨fresh, -, sorted⟩ := segments_ascend reachable advances happens
  exact ⟨s, s', reachable, advances, happens, created, keys, (fresh 2 created).1, sorted⟩

/-- A process that ends before its first write leaves the segment that the next process
opens again. -/
theorem segment_opened_twice :
    ∃ s s' : System, Runs.Reachable System.step (fun _ _ => True) {} s ∧
      s.step .openWAL = some s' ∧ s.created s' = some 1 ∧ 1 ∈ s.disk.keys := by
  obtain ⟨s, reachable, s', next⟩ := Runs.exists_of_exec System.step (fun _ _ => True) {}
    [.openWAL, .close, .crash fun _ => 0]
    (P := fun s => ∃ s', s.step .openWAL = some s' ∧ s.created s' = some 1 ∧ 1 ∈ s.disk.keys)
    (by decide +kernel)
  exact ⟨s, s', reachable, next⟩

end Hermes.Storage.Wal
