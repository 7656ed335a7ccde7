import Mathlib

/-!
# Numbers as bytes

Fixed-width encodings of natural numbers in both byte orders, what decoding gives
back, and the checksum of a sequence of bytes.
-/

namespace Hermes

open List

abbrev Bytes := List UInt8

/-- The `width` lowest bytes of a number, lowest first. -/
def leBytes : (width : ℕ) → ℕ → Bytes
  | 0, _ => []
  | width + 1, n => UInt8.ofNat n :: leBytes width (n / 256)

/-- The number whose bytes are given, lowest first. -/
def leValue : Bytes → ℕ
  | [] => 0
  | b :: rest => b.toNat + 256 * leValue rest

/-- The `width` lowest bytes of a number, highest first. -/
def beBytes (width n : ℕ) : Bytes :=
  (leBytes width n).reverse

/-- The number whose bytes are given, highest first. -/
def beValue (bytes : Bytes) : ℕ :=
  leValue bytes.reverse

@[simp]
theorem length_leBytes (width n : ℕ) : (leBytes width n).length = width := by
  induction width generalizing n with
  | zero => rfl
  | succ width ih => rw [leBytes, length_cons, ih]

@[simp]
theorem length_beBytes (width n : ℕ) : (beBytes width n).length = width := by
  rw [beBytes, length_reverse, length_leBytes]

/-- A number that does not fit into its bytes is cut. -/
theorem leValue_leBytes_mod (width n : ℕ) : leValue (leBytes width n) = n % 256 ^ width := by
  induction width generalizing n with
  | zero => rw [Nat.pow_zero, Nat.mod_one, leBytes, leValue]
  | succ width ih =>
    have low : (UInt8.ofNat n).toNat = n % 256 := UInt8.toNat_ofNat
    rw [leBytes, leValue, ih, low, Nat.pow_succ, Nat.mul_comm (256 ^ width), Nat.mod_mul]

/-- Decoding a number that fits into its bytes gives it back. -/
theorem leValue_leBytes {width n : ℕ} (fits : n < 256 ^ width) : leValue (leBytes width n) = n := by
  rw [leValue_leBytes_mod, Nat.mod_eq_of_lt fits]

/-- The value of some bytes is below the bound of their number. -/
theorem leValue_lt (bytes : Bytes) : leValue bytes < 256 ^ bytes.length := by
  induction bytes with
  | nil => exact Nat.one_pos
  | cons b rest ih =>
    have := b.toNat_lt
    rw [leValue, length_cons, Nat.pow_succ]
    omega

/-- Encoding the value of some bytes gives them back. -/
theorem leBytes_leValue (bytes : Bytes) : leBytes bytes.length (leValue bytes) = bytes := by
  induction bytes with
  | nil => rfl
  | cons b rest ih =>
    have low : UInt8.ofNat (leValue (b :: rest)) = b := by
      rw [← UInt8.toNat_inj, UInt8.toNat_ofNat', leValue]
      have := b.toNat_lt
      omega
    have high : leValue (b :: rest) / 256 = leValue rest := by
      rw [leValue]
      have := b.toNat_lt
      omega
    rw [length_cons, leBytes, low, high, ih]

theorem eq_of_leValue_eq {bytes others : Bytes} (length : bytes.length = others.length)
    (same : leValue bytes = leValue others) : bytes = others := by
  rw [← leBytes_leValue bytes, ← leBytes_leValue others, length, same]

theorem beValue_beBytes {width n : ℕ} (fits : n < 256 ^ width) : beValue (beBytes width n) = n := by
  rw [beValue, beBytes, reverse_reverse, leValue_leBytes fits]

/-- One bit of the division that computes a checksum, with the reversed Castagnoli
polynomial. -/
def crcBit (crc : UInt32) : UInt32 :=
  if crc &&& 1 = 1 then (crc >>> 1) ^^^ 0x82f63b78 else crc >>> 1

/-- One byte of it. -/
def crcByte (crc : UInt32) (b : UInt8) : UInt32 :=
  crcBit^[8] (crc ^^^ b.toUInt32)

/-- `crc32.Checksum` with the Castagnoli table. -/
def checksum (bytes : Bytes) : UInt32 :=
  bytes.foldl crcByte 0xffffffff ^^^ 0xffffffff

end Hermes
