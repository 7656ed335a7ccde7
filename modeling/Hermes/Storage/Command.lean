import Hermes.Storage.Memtable

/-!
# Commands

A command is what a client's write becomes on its way through the replicated log: a
type byte, the key and the value with their lengths in front, and a version that only
compare-and-swap commands use.
-/

namespace Hermes.Storage

open Memtable List

inductive CommandType where
  | put
  | delete
  /-- Compare and swap. -/
  | cas
  deriving DecidableEq, Repr

def CommandType.toByte : CommandType → UInt8
  | put => 1
  | delete => 2
  | cas => 3

structure Command where
  type : CommandType
  key : Key
  value : Bytes
  version : ℤ
  deriving DecidableEq, Repr

/-- `Encode`; the lengths are cut to 32 bits. -/
def Command.encode (c : Command) : Bytes :=
  c.type.toByte :: (leBytes 4 c.key.length ++ (c.key ++ (leBytes 4 c.value.length ++
    (c.value ++ leBytes 8 (c.version % 2 ^ 64).toNat))))

/-- `DecodeCommand`: the key, the value and whether the key is to be deleted.  What is
too short for a key is the empty key with an empty value. -/
def decodeCommand (data : Bytes) : Key × Bytes × Bool :=
  if data.length < 5 then ([], [], false)
  else
    let deleted : Bool := data.head? = some CommandType.delete.toByte
    let keyLen := leValue ((data.drop 1).take 4)
    let rest := data.drop 5
    if rest.length < keyLen then ([], [], false)
    else
      let key := rest.take keyLen
      let rest := rest.drop keyLen
      if rest.length < 4 then (key, [], deleted)
      else
        let valLen := leValue (rest.take 4)
        let rest := rest.drop 4
        (key, if valLen > 0 ∧ valLen ≤ rest.length then rest.take valLen else [], deleted)

def encodeCommand (key : Key) (value : Bytes) (deleted : Bool) : Bytes :=
  { type := if deleted then .delete else .put
    key := key
    value := value
    version := -1 : Command }.encode

def newPutCommand (key : Key) (value : Bytes) : Bytes :=
  encodeCommand key value false

def newDeleteCommand (key : Key) : Bytes :=
  encodeCommand key [] true

/-- `ValidateCommand`: the text of the error, if there is one. -/
def validateCommand (data : Bytes) : Option String :=
  if data.length < 5 then some ("command too short: " ++ toString data.length ++ " bytes")
  else
    match data.head? with
    | none => some "command too short: 0 bytes"
    | some b =>
      if b = CommandType.put.toByte ∨ b = CommandType.delete.toByte ∨
          b = CommandType.cas.toByte then none
      else some ("unknown command type: " ++ toString b)

theorem Command.length_encode (c : Command) : 5 ≤ c.encode.length := by
  simp only [encode, length_cons, length_append, length_leBytes]
  omega

/-- The bytes behind the length of the key. -/
theorem Command.drop_five (c : Command) : c.encode.drop 5 = c.key ++ (leBytes 4 c.value.length ++
    (c.value ++ leBytes 8 (c.version % 2 ^ 64).toNat)) :=
  drop_left' (length_leBytes 4 _)

theorem Command.isDelete_encode (c : Command) :
    decide (c.encode.head? = some CommandType.delete.toByte) = decide (c.type = .delete) := by
  unfold encode
  cases c.type <;> rfl

/-- Decoding gives back what was encoded, if the lengths fit. -/
theorem decodeCommand_encode (c : Command) (key : c.key.length < 2 ^ 32)
    (value : c.value.length < 2 ^ 32) :
    decodeCommand c.encode = (c.key, c.value, decide (c.type = .delete)) := by
  have keyLen : leValue ((c.encode.drop 1).take 4) = c.key.length := by
    rw [Command.encode, drop_one, tail_cons, take_left' (length_leBytes 4 _),
      leValue_leBytes (by omega)]
  have valLen : leValue ((leBytes 4 c.value.length ++
      (c.value ++ leBytes 8 (c.version % 2 ^ 64).toNat)).take 4) = c.value.length := by
    rw [take_left' (length_leBytes 4 _), leValue_leBytes (by omega)]
  unfold decodeCommand
  rw [if_neg (not_lt.mpr c.length_encode)]
  simp only [c.drop_five, keyLen, c.isDelete_encode]
  rw [if_neg (by rw [length_append]; omega), take_left' rfl, drop_left' rfl]
  simp only [valLen, drop_left' (length_leBytes 4 _)]
  rw [if_neg (by rw [length_append, length_leBytes]; omega)]
  congr 2
  split
  · exact take_left' rfl
  · rename_i none
    rw [length_append] at none
    exact (eq_nil_of_length_eq_zero (by omega)).symm

theorem length_encodeCommand (key : Key) (value : Bytes) (deleted : Bool) :
    (encodeCommand key value deleted).length = key.length + value.length + 17 := by
  simp only [encodeCommand, Command.encode, length_cons, length_append, length_leBytes]
  omega

theorem decodeCommand_encodeCommand {key : Key} {value : Bytes} (deleted : Bool)
    (small : (encodeCommand key value deleted).length < 2 ^ 32) :
    decodeCommand (encodeCommand key value deleted) = (key, value, deleted) := by
  rw [length_encodeCommand] at small
  rw [encodeCommand, decodeCommand_encode _ (by dsimp only; omega) (by dsimp only; omega)]
  cases deleted <;> rfl

theorem validateCommand_encode (c : Command) : validateCommand c.encode = none := by
  unfold validateCommand
  unfold Command.encode
  cases c.type <;> rfl

end Hermes.Storage
