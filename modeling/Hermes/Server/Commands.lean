import Hermes.Server.Node

/-!
# From commands to writes

A committed entry carries bytes.  The validator looks at the type and asks for five
bytes; the decoder takes the key and the value by their lengths and returns empty ones
where there are not enough bytes.  So what is accepted need not be the encoding of a
command, and what is executed need not be what a command says.
-/

open Hermes.Raft (LogEntry)
open Hermes.Storage (Command CommandType decodeCommand newPutCommand validateCommand)
open Hermes.Storage.Memtable (Key)

namespace Hermes.Server

open List

/-! ## The fields of a command -/

section Fields

variable (data : Bytes)

/-- The length in front of the key. -/
def keyLength : ℕ :=
  leValue ((data.drop 1).take 4)

/-- The length in front of the value. -/
def valueLength : ℕ :=
  leValue ((data.drop (5 + keyLength data)).take 4)

/-- The version in the last eight bytes. -/
def versionField : ℤ :=
  (leValue (data.drop (data.length - 8)) : ℤ).bmod (2 ^ 64)

/-- The bytes that follow the key and the two lengths make up the value and a version.
The length of a value has 32 bits; only a deletion does not need its value.  A
compare-and-swap command expects no version. -/
structure Framed : Prop where
  long : 17 + keyLength data ≤ data.length
  value : (data.length - 17 - keyLength data) % 2 ^ 32 = valueLength data
  whole : data.head? ≠ some CommandType.delete.toByte →
    data.length - 17 - keyLength data < 2 ^ 32
  unconditional : data.head? = some CommandType.cas.toByte → versionField data = -1

end Fields

section Encoding

variable (c : Command)

theorem wordRange : 256 ^ 4 = 2 ^ 32 :=
  rfl

theorem length_encode : c.encode.length = 17 + c.key.length + c.value.length := by
  simp only [Command.encode, length_cons, length_append, length_leBytes]
  omega

theorem keyLength_encode : keyLength c.encode = c.key.length % 2 ^ 32 := by
  rw [keyLength, Command.encode, drop_one, tail_cons,
    take_left' (length_leBytes 4 _), leValue_leBytes_mod, wordRange]

theorem drop_encode : c.encode.drop (5 + c.key.length) = leBytes 4 c.value.length ++
    (c.value ++ leBytes 8 (c.version % 2 ^ 64).toNat) := by
  rw [← drop_drop, c.drop_five, drop_left' rfl]

theorem valueLength_encode (key : c.key.length < 2 ^ 32) :
    valueLength c.encode = c.value.length % 2 ^ 32 := by
  rw [valueLength, keyLength_encode, Nat.mod_eq_of_lt key, drop_encode,
    take_left' (length_leBytes 4 _), leValue_leBytes_mod, wordRange]

theorem drop_encode_version : c.encode.drop (c.encode.length - 8)
    = leBytes 8 (c.version % 2 ^ 64).toNat := by
  have place : c.encode.length - 8 = 5 + c.key.length + (4 + c.value.length) := by
    rw [length_encode]
    omega
  have split : leBytes 4 c.value.length ++ (c.value ++ leBytes 8 (c.version % 2 ^ 64).toNat)
      = (leBytes 4 c.value.length ++ c.value) ++ leBytes 8 (c.version % 2 ^ 64).toNat :=
    (append_assoc _ _ _).symm
  rw [place, ← drop_drop, drop_encode, split]
  apply drop_left'
  rw [length_append, length_leBytes]

theorem versionField_encode : versionField c.encode = c.version.bmod (2 ^ 64) := by
  have value : (leValue (leBytes 8 (c.version % 2 ^ 64).toNat) : ℤ) = c.version % 2 ^ 64 := by
    rw [leValue_leBytes (by omega), Int.toNat_of_nonneg (by omega)]
  unfold versionField
  rewrite [drop_encode_version]
  simp only [Int.bmod_def]
  omega

/-- The decoder cuts the key and the value where the lengths in front of them say. -/
theorem decodeCommand_encode_mod :
    ∃ value, decodeCommand c.encode =
        (c.key.take (c.key.length % 2 ^ 32), value, decide (c.type = .delete)) ∧
      value.length < 2 ^ 32 := by
  have keyLen : leValue ((c.encode.drop 1).take 4) = c.key.length % 2 ^ 32 := keyLength_encode c
  have cut : c.key.length % 2 ^ 32 ≤ c.key.length := Nat.mod_le _ _
  unfold decodeCommand
  rw [if_neg (not_lt.mpr c.length_encode)]
  simp only [keyLen, c.drop_five, c.isDelete_encode]
  rw [if_neg (by rw [length_append]; omega), take_append_of_le_length cut]
  -- whatever follows the key, the value has at most the length in front of it
  generalize (c.key ++ (leBytes 4 c.value.length ++
    (c.value ++ leBytes 8 (c.version % 2 ^ 64).toNat))).drop (c.key.length % 2 ^ 32) = rest
  split
  · exact ⟨[], rfl, by decide⟩
  · refine ⟨_, rfl, ?_⟩
    have bound := leValue_lt (rest.take 4)
    have short : (rest.take 4).length = 4 := by
      rw [length_take]
      omega
    rw [short] at bound
    split
    · rw [length_take]
      omega
    · exact Nat.two_pow_pos 32

end Encoding

/-- The command whose fields some bytes have. -/
def commandOf (type : CommandType) (data : Bytes) : Command where
  type := type
  key := (data.drop 5).take (keyLength data)
  value := (data.drop (9 + keyLength data)).take (data.length - 17 - keyLength data)
  version := versionField data

theorem version_commandOf (type : CommandType) (data : Bytes) :
    (commandOf type data).version = versionField data := by
  rw [commandOf]

theorem drop_eq_append (data : Bytes) (i n : ℕ) :
    data.drop i = (data.drop i).take n ++ data.drop (i + n) := by
  rw [← drop_drop (l := data), take_append_drop]

/-- The validator accepts the types of commands. -/
theorem exists_type_of_valid {data : Bytes} (valid : validateCommand data = none) :
    ∃ (type : CommandType) (rest : Bytes), data = type.toByte :: rest := by
  unfold validateCommand at valid
  split at valid
  · nomatch valid
  cases data with
  | nil => nomatch valid
  | cons b rest =>
    dsimp only [head?_cons] at valid
    split at valid
    · rename_i known
      rcases known with rfl | rfl | rfl
      · exact ⟨.put, rest, rfl⟩
      · exact ⟨.delete, rest, rfl⟩
      · exact ⟨.cas, rest, rfl⟩
    · nomatch valid

theorem CommandType.toByte_injective {type other : CommandType}
    (same : type.toByte = other.toByte) : type = other := by
  cases type <;> cases other <;> first | rfl | nomatch same

theorem toNat_bmod {n : ℕ} (bound : n < 256 ^ 8) : ((n : ℤ).bmod (2 ^ 64) % 2 ^ 64).toNat = n := by
  rw [Int.bmod_def]
  omega

theorem keyLength_lt (data : Bytes) : keyLength data < 2 ^ 32 := by
  have bound := leValue_lt ((data.drop 1).take 4)
  have short : ((data.drop 1).take 4).length ≤ 4 := length_take_le 4 _
  exact bound.trans_le (Nat.pow_le_pow_right (by decide) short)

namespace Framed

variable {data : Bytes} (framed : Framed data) (type : CommandType)
include framed

theorem length_key : (commandOf type data).key.length = keyLength data := by
  have := framed.long
  rw [commandOf, length_take, length_drop]
  omega

omit framed in
theorem length_value : (commandOf type data).value.length = data.length - 17 - keyLength data := by
  rw [commandOf, length_take, length_drop]
  omega

/-- Framed bytes are the encoding of the command whose fields they have. -/
theorem eq_encode (first : data.head? = some type.toByte) :
    data = (commandOf type data).encode := by
  have long := framed.long
  have keyField : leBytes 4 (commandOf type data).key.length = (data.drop 1).take 4 := by
    have four : ((data.drop 1).take 4).length = 4 := by
      rw [length_take, length_drop]
      omega
    apply eq_of_leValue_eq
    · rw [length_leBytes, four]
    · rw [framed.length_key, leValue_leBytes (keyLength_lt data)]
      rfl
  have valueField : leBytes 4 (commandOf type data).value.length
      = (data.drop (5 + keyLength data)).take 4 := by
    apply eq_of_leValue_eq
    · rw [length_leBytes, length_take, length_drop]
      omega
    · rw [length_value, leValue_leBytes_mod]
      exact framed.value
  have version : leBytes 8 ((commandOf type data).version % 2 ^ 64).toNat
      = data.drop (data.length - 8) := by
    have eight : (data.drop (data.length - 8)).length = 8 := by
      rw [length_drop]
      omega
    have bytes := leBytes_leValue (data.drop (data.length - 8))
    have bound := leValue_lt (data.drop (data.length - 8))
    rw [eight] at bytes bound
    have number : (versionField data % 2 ^ 64).toNat = leValue (data.drop (data.length - 8)) := by
      exact toNat_bmod bound
    rw [version_commandOf, number]
    exact bytes
  have behindType : data = type.toByte :: data.drop 1 := by
    cases data with
    | nil => nomatch first
    | cons b rest =>
      cases first
      rfl
  have behindKey : data.drop 5 = (commandOf type data).key ++ data.drop (5 + keyLength data) :=
    drop_eq_append data 5 (keyLength data)
  have behindLength : data.drop (5 + keyLength data)
      = (data.drop (5 + keyLength data)).take 4 ++ data.drop (9 + keyLength data) := by
    rw [show 9 + keyLength data = 5 + keyLength data + 4 by omega]
    exact drop_eq_append data _ 4
  have behindValue : data.drop (9 + keyLength data)
      = (commandOf type data).value ++ data.drop (data.length - 8) := by
    rw [show data.length - 8 = 9 + keyLength data + (data.length - 17 - keyLength data) by omega]
    exact drop_eq_append data _ _
  rw [Command.encode, keyField, valueField, version, ← behindValue, ← behindLength, ← behindKey,
    ← drop_eq_append data 1 4]
  exact behindType

end Framed

/-! ## What a command is to do -/

/-- The write of a command.  A compare-and-swap command that expects a version writes
only if the key has it; what the version of a key is, is left open. -/
def Performs (version : Store → Key → ℤ) (c : Command) (store : Store)
    (result : Store × Option String) : Prop :=
  match c.type with
  | .put => result = store.write c.key c.value false
  | .delete => result = store.write c.key [] true
  | .cas =>
    if c.version = -1 ∨ version store c.key = c.version then
      result = store.write c.key c.value false
    else result.1.system = store.system

variable {store : Store}

/-- A command that expects no version performs its write. -/
theorem performs_iff {version : Store → Key → ℤ} {c : Command} {result : Store × Option String}
    (unconditional : c.type = .cas → c.version = -1) :
    Performs version c store result ↔
      result = if c.type = .delete then store.write c.key [] true
        else store.write c.key c.value false := by
  unfold Performs
  cases type : c.type with
  | put | delete => exact Iff.rfl
  | cas =>
    rw [if_pos (.inl (unconditional type))]
    exact Iff.rfl

/-- Whatever version of a key is expected: the key may have another one, and a write may
have an effect. -/
def Discerning (version : Store → Key → ℤ) : Prop :=
  ∀ key expected written value, ∃ store, version store key ≠ expected ∧
    (store.write written value false).1.system ≠ store.system

/-! ## What is done -/

variable {deleted : Bool}

namespace Store

/-- A write that is taken is in memory. -/
theorem lookup_write {d : Draw} (drawn : store.draws 0 = some d)
    (isOpen : store.system.engine.closed = false) (key : Key) (value : Bytes) (deleted : Bool)
    (k : Key) :
    Storage.lookup (store.write key value deleted).1.system.engine.memory k =
      if k = key then some (Storage.Engine.writtenEntry key value deleted d.ts d.seq)
      else Storage.lookup store.system.engine.memory k := by
  obtain ⟨e, taken⟩ : ∃ e, store.system.engine.putWithTimestamp key value deleted d.coins d.ts
      d.seq = .ok e := by
    unfold Storage.Engine.putWithTimestamp
    rw [isOpen]
    exact ⟨_, (apply_ite Except.ok _ _ _).symm⟩
  unfold write
  rw [drawn]
  dsimp only
  rw [taken]
  exact Storage.Engine.lookup_putWithTimestamp taken k

theorem write_leaves (store : Store) (key : Key) (value : Bytes) (deleted : Bool) :
    (store.write key value deleted).1.draws = (fun i => store.draws (i + 1)) ∧
      (store.write key value deleted).1.system.engine.closed = store.system.engine.closed := by
  unfold write
  split
  · exact ⟨rfl, rfl⟩
  · split
    · exact ⟨rfl, rfl⟩
    · rename_i taken
      exact ⟨rfl, (Storage.Engine.levels_putWithTimestamp taken).2⟩

/-- An empty store whose writes are taken and numbered. -/
def empty : Store where
  system := .start {}
  draws i := some { coins := [], ts := .ofNat (i + 1), seq := i + 1 }

theorem lookup_write_empty (key : Key) (value : Bytes) (deleted : Bool) (k : Key) :
    Storage.lookup (empty.write key value deleted).1.system.engine.memory k =
      if k = key then some (Storage.Engine.writtenEntry key value deleted 1 1) else none :=
  @lookup_write empty { coins := [], ts := 1, seq := 1 } rfl rfl key value deleted k

/-- Different writes have different effects on an empty store. -/
theorem write_empty_injective {key key' : Key} {value value' : Bytes}
    (same : empty.write key value deleted = empty.write key' value' deleted) :
    key = key' ∧ (deleted = false → value = value') := by
  have found := lookup_write_empty key value deleted key
  rw [same, lookup_write_empty, if_pos rfl] at found
  split at found
  · rename_i equal
    refine ⟨equal, ?_⟩
    rintro rfl
    have values := congrArg (Option.map Storage.Memtable.Entry.value) found
    exact (Option.some.inj values).symm
  · nomatch found

end Store

section Applying

variable {version : Store → Key → ℤ} {entry : LogEntry}

/-- What `Apply` does with an entry that the validator accepts. -/
theorem apply_eq (carries : entry.type ≠ .noop) (valid : validateCommand entry.data = none)
    {key : Key} {value : Bytes} (decoded : decodeCommand entry.data = (key, value, deleted))
    (store : Store) :
    hermesStateMachine.apply store entry =
      if deleted then store.write key [] true else store.write key value false := by
  have some_data : entry.data ≠ [] := by
    intro none
    rw [none] at valid
    nomatch valid
  simp only [hermesStateMachine, valid, decoded, carries, some_data, or_self, if_false]

theorem Framed.performs (framed : Framed entry.data) (carries : entry.type ≠ .noop)
    (valid : validateCommand entry.data = none) :
    ∃ c : Command, entry.data = c.encode ∧
      ∀ store, Performs version c store (hermesStateMachine.apply store entry) := by
  obtain ⟨type, rest, first⟩ := exists_type_of_valid valid
  have head : entry.data.head? = some type.toByte := by rw [first, head?_cons]
  have encoded := framed.eq_encode type head
  have keyFits : (commandOf type entry.data).key.length < 2 ^ 32 := by
    rw [framed.length_key]
    exact keyLength_lt entry.data
  refine ⟨commandOf type entry.data, encoded, fun store => ?_⟩
  have same : (commandOf type entry.data).type = type := rfl
  rw [performs_iff, same]
  · by_cases deletes : type = .delete
    · obtain ⟨value, decoded, -⟩ := decodeCommand_encode_mod (commandOf type entry.data)
      rw [Nat.mod_eq_of_lt keyFits, take_length, ← encoded, same] at decoded
      rw [apply_eq carries valid decoded, if_pos (decide_eq_true deletes), if_pos deletes]
    · have valueFits : (commandOf type entry.data).value.length < 2 ^ 32 := by
        rw [Framed.length_value]
        apply framed.whole
        rw [head]
        exact fun equal => deletes (CommandType.toByte_injective (Option.some.inj equal))
      have decoded := Storage.decodeCommand_encode _ keyFits valueFits
      rw [← encoded] at decoded
      rw [apply_eq carries valid decoded, if_neg (by rwa [decide_eq_true_iff]), if_neg deletes]
  · rintro rfl
    rw [version_commandOf]
    exact framed.unconditional head

/-- A command that is executed as it says has framed bytes. -/
theorem Performs.framed (discerning : Discerning version) (carries : entry.type ≠ .noop)
    (valid : validateCommand entry.data = none) {c : Command} (encoded : entry.data = c.encode)
    (performs : ∀ store, Performs version c store (hermesStateMachine.apply store entry)) :
    Framed entry.data := by
  obtain ⟨value, decoded, short⟩ := decodeCommand_encode_mod c
  rw [← encoded] at decoded
  have unconditional : c.type = .cas → c.version = -1 := by
    intro swaps
    by_contra expects
    -- in a store with another version the command must not write, but it does
    obtain ⟨store, other, effect⟩ := discerning c.key c.version _ value
    have performed := performs store
    rw [apply_eq carries valid decoded] at performed
    unfold Performs at performed
    rw [swaps] at performed
    rw [if_neg (not_or.mpr ⟨expects, other⟩)] at performed
    exact effect performed
  have performed := (performs_iff unconditional).mp (performs Store.empty)
  rw [apply_eq carries valid decoded] at performed
  have lengths : c.key.length < 2 ^ 32 ∧ (c.type ≠ .delete → c.value.length < 2 ^ 32) := by
    have whole : c.key.take (c.key.length % 2 ^ 32) = c.key → c.key.length < 2 ^ 32 := by
      intro same
      have length := congrArg length same
      rw [length_take] at length
      omega
    by_cases deletes : c.type = .delete
    · rw [if_pos (decide_eq_true deletes), if_pos deletes] at performed
      exact ⟨whole (Store.write_empty_injective performed).1, fun other => absurd deletes other⟩
    · rw [if_neg (by rwa [decide_eq_true_iff]), if_neg deletes] at performed
      obtain ⟨key, values⟩ := Store.write_empty_injective performed
      refine ⟨whole key, fun _ => ?_⟩
      rw [← values rfl]
      exact short
  have keyLen : keyLength entry.data = c.key.length := by
    rw [encoded, keyLength_encode, Nat.mod_eq_of_lt lengths.1]
  have behind : entry.data.length - 17 - keyLength entry.data = c.value.length := by
    rw [keyLen, encoded, length_encode]
    omega
  have head : entry.data.head? = some c.type.toByte := by
    rw [encoded]
    rfl
  refine ⟨?_, ?_, ?_, ?_⟩
  · rw [keyLen, encoded, length_encode]
    omega
  · rw [behind, encoded, valueLength_encode c lengths.1]
  · rw [behind, head]
    intro other
    exact lengths.2 fun deletes => other (by rw [deletes])
  · rw [head]
    intro same
    have swaps := CommandType.toByte_injective (Option.some.inj same)
    rw [encoded, versionField_encode, unconditional swaps]
    decide

end Applying

/-- What the validator accepts is the encoding of a command that is then executed, exactly
if the lengths account for all bytes and no version is expected. -/
theorem apply_performs_iff (version : Store → Key → ℤ) (discerning : Discerning version)
    (entry : LogEntry) (carries : entry.type ≠ .noop) :
    (validateCommand entry.data = none → ∃ c : Command, entry.data = c.encode ∧
        ∀ store, Performs version c store (hermesStateMachine.apply store entry)) ↔
      validateCommand entry.data ≠ none ∨ Framed entry.data := by
  by_cases valid : validateCommand entry.data = none
  · constructor
    · intro accepted
      obtain ⟨c, encoded, performs⟩ := accepted valid
      exact .inr (Performs.framed discerning carries valid encoded performs)
    · rintro (invalid | framed) -
      · exact absurd valid invalid
      · exact framed.performs carries valid
  · exact iff_of_true (fun accepted => absurd accepted valid) (.inl valid)

/-- The timestamp of a key in memory. -/
def timestampOf (store : Store) (key : Key) : ℤ :=
  ((Storage.lookup store.system.engine.memory key).map fun entry => entry.timestamp.toInt).getD 0

theorem discerning_timestampOf : Discerning timestampOf := by
  intro key expected written value
  have changes : ∀ (store : Store) (d : Draw), store.draws 0 = some d →
      store.system.engine.closed = false →
      (∀ entry ∈ Storage.lookup store.system.engine.memory written, entry.timestamp ≠ d.ts) →
        (store.write written value false).1.system ≠ store.system := by
    intro store d drawn isOpen older same
    have found := Store.lookup_write drawn isOpen written value false written
    rw [same, if_pos rfl] at found
    exact older _ found rfl
  by_cases zero : expected = 0
  · -- the key has the timestamp 1
    obtain ⟨draws, isOpen⟩ := Store.write_leaves Store.empty key [] false
    refine ⟨(Store.empty.write key [] false).1, ?_, changes _ { coins := [], ts := 2, seq := 2 }
      (by rw [draws]; rfl) isOpen ?_⟩
    · rw [timestampOf, Store.lookup_write_empty, if_pos rfl, zero]
      show (1 : Int64).toInt ≠ 0
      decide
    · rw [Store.lookup_write_empty]
      split
      · intro _ mem
        cases mem
        show (1 : Int64) ≠ 2
        decide
      · rintro _ none
        nomatch none
  · refine ⟨Store.empty, fun same => zero same.symm, changes _ { coins := [], ts := 1, seq := 1 }
      rfl rfl ?_⟩
    rintro _ none
    nomatch none

/-- A put of a value. -/
theorem apply_performs_put :
    Discerning timestampOf ∧
      ((validateCommand (newPutCommand [97] [120]) = none →
          ∃ c : Command, newPutCommand [97] [120] = c.encode ∧
            ∀ store, Performs timestampOf c store
              (hermesStateMachine.apply store { data := newPutCommand [97] [120] })) ↔
        validateCommand (newPutCommand [97] [120]) ≠ none ∨ Framed (newPutCommand [97] [120])) :=
  ⟨discerning_timestampOf, apply_performs_iff timestampOf discerning_timestampOf
    { data := newPutCommand [97] [120] } (by decide)⟩

/-- A put that is cut within its key is accepted and executed as a write to the empty key;
cut within its value, it is executed with an empty value. -/
theorem apply_truncated :
    let inKey := (newPutCommand [97, 98, 99] [120]).take 7
    let inValue := (newPutCommand [97] [120, 121]).take 11
    (validateCommand inKey = none ∧ (∀ c : Command, inKey ≠ c.encode) ∧
        Storage.lookup
          (hermesStateMachine.apply Store.empty { data := inKey }).1.system.engine.memory [] =
            some { key := [], value := [], timestamp := 1, sequence := 1 }) ∧
      (validateCommand inValue = none ∧ (∀ c : Command, inValue ≠ c.encode) ∧
        Storage.lookup
          (hermesStateMachine.apply Store.empty { data := inValue }).1.system.engine.memory [97] =
            some { key := [97], value := [], timestamp := 1, sequence := 1 }) := by
  have short : ∀ (data : Bytes) (c : Command), data.length < 17 → data ≠ c.encode := by
    rintro _ c cut rfl
    rw [length_encode] at cut
    omega
  exact ⟨⟨by decide, fun c => short _ c (by decide), by decide⟩,
    ⟨by decide, fun c => short _ c (by decide), by decide⟩⟩

end Hermes.Server
