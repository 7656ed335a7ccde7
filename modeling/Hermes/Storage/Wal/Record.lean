import Hermes.Data.Bytes
import Hermes.Data.Except

/-!
# Records of the write-ahead log

A record is stored as a little-endian payload length, a big-endian checksum, a type
byte, a little-endian sequence number and the data.  Sequence numbers are counters
that only ever grow by one; they are natural numbers here and take eight bytes in a
file.
-/

namespace Hermes.Storage.Wal

open List

/-- The type of a record, a 32-bit number in the source. -/
inductive RecordType where
  | data
  | checkpoint
  | segmentHeader
  /-- Any number that has no name. -/
  | unknown (code : UInt32) (unnamed : code ≠ 1 ∧ code ≠ 2 ∧ code ≠ 3)
  deriving DecidableEq, Repr

namespace RecordType

def code : RecordType → UInt32
  | data => 1
  | checkpoint => 2
  | segmentHeader => 3
  | unknown code _ => code

def ofCode (n : UInt32) : RecordType :=
  if one : n = 1 then data
  else if two : n = 2 then checkpoint
  else if three : n = 3 then segmentHeader
  else unknown n ⟨one, two, three⟩

theorem ofCode_code (t : RecordType) : ofCode t.code = t := by
  cases t with
  | data | checkpoint | segmentHeader => rfl
  | unknown n unnamed =>
    obtain ⟨one, two, three⟩ := unnamed
    simp [code, ofCode, one, two, three]

/-- The byte that `Encode` writes for a type: the lowest of the four. -/
def toByte (t : RecordType) : UInt8 :=
  t.code.toUInt8

def ofByte (b : UInt8) : RecordType :=
  ofCode b.toUInt32

theorem ofByte_toByte {t : RecordType} (small : t.code < 256) : ofByte t.toByte = t := by
  have same : t.code.toUInt8.toUInt32 = t.code := by
    apply UInt32.toNat_inj.mp
    exact Nat.mod_eq_of_lt (UInt32.lt_iff_toNat_lt.mp small)
  rw [ofByte, toByte, same, ofCode_code]

end RecordType

def headerSize : ℕ := 17

def maxRecordSize : ℕ := 64 * 1024 * 1024

/-- A record; its checksum is computed when it is encoded. -/
structure Record where
  type : RecordType
  sequence : ℕ
  data : Bytes
  deriving DecidableEq, Repr

/-- The bytes that the checksum of a record covers. -/
def crcBuf (type : RecordType) (sequence : ℕ) (data : Bytes) : Bytes :=
  type.toByte :: (beBytes 8 sequence ++ data)

/-- What `Decode` reports instead of a record. -/
inductive DecodeError where
  | recordTooShort
  | corruption (sequence : ℕ) (storedCRC computedCRC : UInt32)
  deriving DecidableEq, Repr

namespace Record

def crc (r : Record) : UInt32 :=
  checksum (crcBuf r.type r.sequence r.data)

/-- `Encode`; the payload length is cut to 32 bits. -/
def encode (r : Record) : Bytes :=
  leBytes 4 (4 + 1 + 8 + r.data.length) ++
    (beBytes 4 r.crc.toNat ++ (r.type.toByte :: (leBytes 8 r.sequence ++ r.data)))

def decode (buf : Bytes) : Except DecodeError Record :=
  if buf.length < headerSize then .error .recordTooShort
  else
    let storedCRC := UInt32.ofNat (beValue ((buf.drop 4).take 4))
    let type := RecordType.ofByte (buf.getD 8 0)
    let sequence := leValue ((buf.drop 9).take 8)
    let data := buf.drop 17
    let computedCRC := checksum (crcBuf type sequence data)
    if computedCRC ≠ storedCRC then .error (.corruption sequence storedCRC computedCRC)
    else .ok { type := type, sequence := sequence, data := data }

@[simp]
theorem length_encode (r : Record) : r.encode.length = headerSize + r.data.length := by
  simp only [encode, headerSize, length_append, length_cons, length_leBytes,
    length_beBytes]
  omega

/-- The records that can be read back: of a type the log writes, with a sequence
number of eight bytes and a payload that `ReadAll` accepts. -/
structure Storable (r : Record) : Prop where
  type : RecordType.ofByte r.type.toByte = r.type
  sequence : r.sequence < 2 ^ 64
  size : 4 + 1 + 8 + r.data.length ≤ maxRecordSize

theorem payload_lt {r : Record} (storable : r.Storable) : 4 + 1 + 8 + r.data.length < 256 ^ 4 := by
  have size := storable.size
  unfold maxRecordSize at size
  omega

theorem decode_encode {r : Record} (storable : r.Storable) : decode r.encode = .ok r := by
  have fromCRC : r.encode.drop 4 =
      beBytes 4 r.crc.toNat ++ (r.type.toByte :: (leBytes 8 r.sequence ++ r.data)) :=
    drop_left' (length_leBytes _ _)
  have fromType : r.encode.drop 8 = r.type.toByte :: (leBytes 8 r.sequence ++ r.data) := by
    exact drop_left' (length_beBytes _ _)
  have fromSequence : r.encode.drop 9 = leBytes 8 r.sequence ++ r.data := by
    rfl
  have fromData : r.encode.drop 17 = r.data := by
    exact drop_left' (length_leBytes _ _)
  have typeByte : r.encode.getD 8 0 = r.type.toByte := by
    rfl
  have stored : UInt32.ofNat (beValue ((r.encode.drop 4).take 4)) = r.crc := by
    rw [fromCRC, take_left' (length_beBytes _ _), beValue_beBytes r.crc.toNat_lt]
    exact UInt32.ofNat_toNat
  have sequence : leValue ((r.encode.drop 9).take 8) = r.sequence := by
    rw [fromSequence, take_left' (length_leBytes _ _), leValue_leBytes storable.sequence]
  have long : ¬ r.encode.length < headerSize := by
    rw [length_encode]
    omega
  rw [decode]
  simp only [stored, typeByte, storable.type, sequence]
  exact if_neg (not_not.mpr rfl)

end Record

/-! ## Reading a file -/

/-- The loop of `ReadAll` over the bytes that are left.  Every round consumes at
least the four bytes of a length, so the number of bytes bounds the rounds.  A record
that is cut short ends the loop, a checksum that does not match drops everything. -/
def readRecords : (rounds : ℕ) → Bytes → Except DecodeError (List Record)
  | 0, _ => .ok []
  | rounds + 1, bytes =>
    if bytes.length < 4 then .ok []
    else
      let payloadLen := leValue (bytes.take 4)
      if payloadLen > maxRecordSize then .ok []
      else if (bytes.drop 4).length < payloadLen then .ok []
      else
        match Record.decode (bytes.take (4 + payloadLen)) with
        | .error (.corruption sequence storedCRC computedCRC) =>
          .error (.corruption sequence storedCRC computedCRC)
        | .error .recordTooShort => .ok []
        | .ok record => do
          let rest ← readRecords rounds (bytes.drop (4 + payloadLen))
          return record :: rest

/-- `ReadAll`. -/
def readAll (bytes : Bytes) : Except DecodeError (List Record) :=
  readRecords bytes.length bytes

section Reading

variable {r : Record} {records : List Record} {rest : Bytes} {rounds : ℕ}

theorem take_four_encode (r : Record) (rest : Bytes) :
    (r.encode ++ rest).take 4 = leBytes 4 (4 + 1 + 8 + r.data.length) := by
  exact take_left' (length_leBytes _ _)

/-- A whole record at the front is read, and reading goes on behind it. -/
theorem readRecords_encode_append (storable : r.Storable) :
    readRecords (rounds + 1) (r.encode ++ rest) =
      (do
        let rest ← readRecords rounds rest
        return r :: rest) := by
  have payload : leValue ((r.encode ++ rest).take 4) = 4 + 1 + 8 + r.data.length := by
    rw [take_four_encode, leValue_leBytes (Record.payload_lt storable)]
  have length : r.encode.length = 4 + (4 + 1 + 8 + r.data.length) := by
    rw [Record.length_encode, headerSize]
    omega
  have size := storable.size
  rw [readRecords, if_neg (by rw [length_append]; omega)]
  simp only [payload]
  rw [if_neg (by omega), if_neg (by rw [length_drop, length_append]; omega),
    take_left' length, drop_left' length, Record.decode_encode storable]

/-- A record that was cut short ends the reading. -/
theorem readRecords_torn (storable : r.Storable) {n : ℕ} (cut : n < r.encode.length) :
    readRecords rounds (r.encode.take n) = .ok [] := by
  cases rounds with
  | zero => rfl
  | succ rounds =>
    have length : (r.encode.take n).length = n := by
      rw [length_take]
      omega
    have size := storable.size
    rw [readRecords]
    by_cases short : n < 4
    · rw [if_pos (by rw [length]; exact short)]
    · have payload : leValue ((r.encode.take n).take 4) = 4 + 1 + 8 + r.data.length := by
        have whole := take_four_encode r []
        rw [append_nil] at whole
        rw [take_take, Nat.min_eq_left (Nat.not_lt.mp short), whole,
          leValue_leBytes (Record.payload_lt storable)]
      rw [if_neg (by rw [length]; exact short)]
      rw [Record.length_encode, headerSize] at cut
      rw [if_neg (by omega), if_pos (by rw [length_drop]; omega)]

/-- The number of records that are whole in the first `n` bytes of a file. -/
def wholeRecords : List Record → ℕ → ℕ
  | [], _ => 0
  | r :: rest, n =>
    if n < r.encode.length then 0 else wholeRecords rest (n - r.encode.length) + 1

theorem readRecords_take (storable : ∀ r ∈ records, r.Storable) {n : ℕ}
    (enough : ((records.flatMap Record.encode).take n).length ≤ rounds) :
    readRecords rounds ((records.flatMap Record.encode).take n) =
      .ok (records.take (wholeRecords records n)) := by
  induction records generalizing n rounds with
  | nil =>
    rw [flatMap_nil, take_nil]
    cases rounds <;> rfl
  | cons r rest ih =>
    have storableR := storable r (by simp)
    rw [flatMap_cons] at enough ⊢
    rw [wholeRecords]
    split
    · rename_i cut
      rw [take_append_of_le_length (Nat.le_of_lt cut), readRecords_torn storableR cut,
        take_zero]
    · rename_i whole
      have split : (r.encode ++ rest.flatMap Record.encode).take n =
          r.encode ++ (rest.flatMap Record.encode).take (n - r.encode.length) := by
        rw [take_append, take_of_length_le (Nat.not_lt.mp whole)]
      rw [split] at enough ⊢
      have nonempty : 0 < r.encode.length := by
        rw [Record.length_encode, headerSize]
        omega
      rw [length_append] at enough
      cases rounds with
      | zero => omega
      | succ rounds =>
        rw [readRecords_encode_append storableR,
          ih (fun r mem => storable r (mem_cons_of_mem _ mem)) (by omega)]
        rfl

/-- Reading what is left of a file of whole records, after it was cut anywhere, gives
exactly the records that are still whole. -/
theorem readAll_take (storable : ∀ r ∈ records, r.Storable) (n : ℕ) :
    readAll ((records.flatMap Record.encode).take n) =
      .ok (records.take (wholeRecords records n)) :=
  readRecords_take storable (Nat.le_refl _)

theorem wholeRecords_length (records : List Record) :
    wholeRecords records (records.flatMap Record.encode).length = records.length := by
  induction records with
  | nil => rfl
  | cons r rest ih =>
    rw [wholeRecords, flatMap_cons, length_append, if_neg (by omega),
      Nat.add_sub_cancel_left, ih, length_cons]

theorem readAll_flatMap_encode (storable : ∀ r ∈ records, r.Storable) :
    readAll (records.flatMap Record.encode) = .ok records := by
  have whole := readAll_take storable (records.flatMap Record.encode).length
  rw [take_length, wholeRecords_length, take_length] at whole
  exact whole

/-! ## The longest prefix that is whole -/

theorem wholeRecords_le (records : List Record) (n : ℕ) :
    wholeRecords records n ≤ records.length := by
  induction records generalizing n with
  | nil => exact Nat.le_refl 0
  | cons r rest ih =>
    rw [wholeRecords]
    split
    · omega
    · exact Nat.succ_le_succ (ih _)

theorem length_flatMap_take_wholeRecords (records : List Record) (n : ℕ) :
    ((records.take (wholeRecords records n)).flatMap Record.encode).length ≤ n := by
  induction records generalizing n with
  | nil => simp
  | cons r rest ih =>
    rw [wholeRecords]
    split
    · simp
    · rw [take_succ_cons, flatMap_cons, length_append]
      have tail := ih (n - r.encode.length)
      omega

theorem le_wholeRecords {n j : ℕ} (le : j ≤ records.length)
    (fits : ((records.take j).flatMap Record.encode).length ≤ n) : j ≤ wholeRecords records n := by
  induction records generalizing n j with
  | nil => exact le
  | cons r rest ih =>
    cases j with
    | zero => exact Nat.zero_le _
    | succ j =>
      rw [take_succ_cons, flatMap_cons, length_append] at fits
      rw [wholeRecords, if_neg (by omega)]
      exact Nat.succ_le_succ (ih (Nat.le_of_succ_le_succ le) (by omega))

/-- Of a file that was cut anywhere, `ReadAll` returns the longest prefix of the records
that is whole, if the type of every record fits into the byte that the format has for
it.  The sequence number of a record is a 64-bit number. -/
theorem readAll_take_eq_longest (records : List Record) (n : ℕ)
    (type : ∀ r ∈ records, r.type.code < 256) (sequence : ∀ r ∈ records, r.sequence < 2 ^ 64)
    (size : ∀ r ∈ records, 4 + 1 + 8 + r.data.length ≤ maxRecordSize) :
    ∃ k ≤ records.length,
      readAll ((records.flatMap Record.encode).take n) = .ok (records.take k) ∧
      ((records.take k).flatMap Record.encode).length ≤ n ∧
      ∀ j ≤ records.length, ((records.take j).flatMap Record.encode).length ≤ n → j ≤ k := by
  have storable : ∀ r ∈ records, r.Storable := fun r mem =>
    { type := RecordType.ofByte_toByte (type r mem)
      sequence := sequence r mem
      size := size r mem }
  exact ⟨wholeRecords records n, wholeRecords_le records n, readAll_take storable n,
    length_flatMap_take_wholeRecords records n, fun j le fits => le_wholeRecords le fits⟩

end Reading

/-- Two records, of which the second is cut inside its checksum. -/
theorem readAll_take_eq_longest_torn :
    readAll (([{ type := .data, sequence := 1, data := [7] },
        { type := .checkpoint, sequence := 2, data := [] }] : List Record).flatMap
          Record.encode |>.take 24) = .ok [{ type := .data, sequence := 1, data := [7] }] := by
  obtain ⟨k, le, read, fits, longest⟩ := readAll_take_eq_longest
    [{ type := .data, sequence := 1, data := [7] },
      { type := .checkpoint, sequence := 2, data := [] }] 24
    (by decide) (by decide) (by decide)
  have first : 1 ≤ k := longest 1 (by decide) (by decide +kernel)
  have last : k ≠ 2 := by
    rintro rfl
    exact absurd fits (by decide +kernel)
  have one : k = 1 := by
    rw [length_cons, length_singleton] at le
    omega
  rw [read, one, take_succ_cons, take_zero]

/-- A record of a type that has no byte of its own. -/
def wideRecord : Record where
  type := .ofCode 257
  sequence := 1
  data := []

/-- The type of a record is cut to its lowest byte: a record of type 257 comes back as a
data record. -/
theorem readAll_take_wide_type :
    4 + 1 + 8 + wideRecord.data.length ≤ maxRecordSize ∧
      17 ≤ ([wideRecord].flatMap Record.encode).length ∧
      readAll (([wideRecord].flatMap Record.encode).take 17) =
        .ok [{ type := .data, sequence := 1, data := [] }] ∧
      ∀ k, readAll (([wideRecord].flatMap Record.encode).take 17) ≠
        .ok ([wideRecord].take k) := by
  have read : readAll (([wideRecord].flatMap Record.encode).take 17) =
      .ok [{ type := .data, sequence := 1, data := [] }] := by
    decide +kernel
  refine ⟨by decide, by decide +kernel, read, ?_⟩
  rw [read]
  intro k same
  have equal := Except.ok.inj same
  cases k with
  | zero => nomatch equal
  | succ k =>
    rw [take_succ_cons, take_nil] at equal
    exact absurd equal (by decide)

end Hermes.Storage.Wal
