import Hermes.Data.Bytes
import Hermes.Data.Except

/-!
# Bloom filters

The filter of a table: a set of keys kept as bits, with `k` bits for every key.  The
number of bits and of hash functions come from floating-point formulas, which are a
parameter here.
-/

namespace Hermes.Storage

open List

/-- The run-time panics of the storage code. -/
inductive Panic where
  | divideByZero
  | indexOutOfRange
  | sliceOutOfRange
  | negativeLength
  deriving DecidableEq, Repr

namespace Bloom

/-- The formulas of `New` for a false positive rate of one per cent. -/
structure Sizing where
  /-- The bits for `n` keys, rounded up. -/
  bits : ℕ → ℕ
  /-- The hash functions for `m` bits and `n` keys, rounded to the nearest number. -/
  hashes : ℕ → ℕ → ℕ
  bits_zero : bits 0 = 0
  bits_pos : ∀ n, 0 < n → 0 < bits n

/-- The formulas with six decimals. -/
def Sizing.decimal : Sizing where
  bits n := (n * 9585059 + 999999) / 1000000
  hashes m n := (2 * m * 693147 + n * 1000000) / (2 * n * 1000000)
  bits_zero := rfl
  bits_pos := by
    omega

structure BloomFilter where
  bitset : List UInt64
  m : ℕ
  k : ℕ
  count : ℕ := 0
  deriving DecidableEq, Repr

/-- `hash128`: the FNV hash of a key and a mix of its bits. -/
def hash128 (key : Bytes) : UInt64 × UInt64 :=
  let h1 := key.foldl (fun h b => (h ^^^ b.toUInt64) * 1099511628211) 14695981039346656037
  let h2 := h1 ^^^ (h1 >>> 33)
  let h2 := h2 * 0xff51afd7ed558ccd
  let h2 := h2 ^^^ (h2 >>> 33)
  let h2 := h2 * 0xc4ceb9fe1a85ec53
  let h2 := h2 ^^^ (h2 >>> 33)
  (h1, h2)

namespace BloomFilter

/-- `New`. -/
def new (sizing : Sizing) (n : ℕ) : BloomFilter :=
  let m := (sizing.bits n + 63) / 64 * 64
  let k := sizing.hashes m n
  let k := if k < 1 then 1 else k
  let k := if k > 20 then 20 else k
  { bitset := List.replicate (m / 64) 0, m := m, k := k }

/-- The bit of hash function `i`; without bits there is a division by zero. -/
def position (bf : BloomFilter) (hash : UInt64 × UInt64) (i : ℕ) : Except Panic ℕ :=
  if bf.m = 0 then .error .divideByZero
  else .ok ((hash.1 + UInt64.ofNat i * hash.2).toNat % bf.m)

def setBit (bf : BloomFilter) (pos : ℕ) : Except Panic BloomFilter :=
  match bf.bitset[pos / 64]? with
  | none => .error .indexOutOfRange
  | some word =>
    .ok { bf with bitset := bf.bitset.set (pos / 64) (word ||| 1 <<< UInt64.ofNat (pos % 64)) }

def getBit (bf : BloomFilter) (pos : ℕ) : Except Panic Bool :=
  match bf.bitset[pos / 64]? with
  | none => .error .indexOutOfRange
  | some word => .ok ((word >>> UInt64.ofNat (pos % 64)) &&& 1 = 1)

/-- `Add`. -/
def add (bf : BloomFilter) (key : Bytes) : Except Panic BloomFilter := do
  let bf ← (List.range bf.k).foldlM
    (fun bf i => do bf.setBit (← bf.position (hash128 key) i)) bf
  return { bf with count := bf.count + 1 }

/-- The loop of `Contains`, which stops at the first bit that is not set. -/
def containsFrom (bf : BloomFilter) (hash : UInt64 × UInt64) : List ℕ → Except Panic Bool
  | [] => .ok true
  | i :: rest => do
    if ← bf.getBit (← bf.position hash i) then bf.containsFrom hash rest else return false

def contains (bf : BloomFilter) (key : Bytes) : Except Panic Bool :=
  bf.containsFrom (hash128 key) (List.range bf.k)

def serialize (bf : BloomFilter) : Bytes :=
  leBytes 8 bf.m ++ (leBytes 8 bf.k ++ bf.bitset.flatMap fun word => leBytes 8 word.toNat)

/-- `Deserialize` of at least sixteen bytes; words that the data does not hold are
zero. -/
def deserialize (data : Bytes) : Option BloomFilter :=
  if data.length < 16 then none
  else
    let m := leValue (data.take 8)
    let k := leValue ((data.drop 8).take 8)
    let word := fun i =>
      if 16 + i * 8 + 8 > data.length then 0
      else UInt64.ofNat (leValue ((data.drop (16 + i * 8)).take 8))
    some { bitset := (List.range (m / 64)).map word, m := m, k := k }

/-- The filters whose bits all have a place. -/
structure Fits (bf : BloomFilter) : Prop where
  pos : 0 < bf.m
  words : bf.bitset.length * 64 = bf.m

theorem fits_new (sizing : Sizing) {n : ℕ} (positive : 0 < n) : (new sizing n).Fits := by
  have bits := sizing.bits_pos n positive
  constructor
  · show 0 < (sizing.bits n + 63) / 64 * 64
    omega
  · show (replicate ((sizing.bits n + 63) / 64 * 64 / 64) (0 : UInt64)).length * 64 =
      (sizing.bits n + 63) / 64 * 64
    rw [length_replicate]
    omega

variable {bf : BloomFilter}

theorem Fits.position (fits : bf.Fits) (hash : UInt64 × UInt64) (i : ℕ) :
    ∃ pos, bf.position hash i = .ok pos ∧ pos / 64 < bf.bitset.length := by
  refine ⟨_, if_neg (Nat.pos_iff_ne_zero.mp fits.pos), ?_⟩
  have below := Nat.mod_lt (hash.1 + UInt64.ofNat i * hash.2).toNat fits.pos
  have words := fits.words
  omega

theorem Fits.setBit (fits : bf.Fits) {pos : ℕ}
    (inside : pos / 64 < bf.bitset.length) : ∃ bf', bf.setBit pos = .ok bf' ∧ bf'.Fits := by
  unfold BloomFilter.setBit
  rw [getElem?_eq_getElem inside]
  refine ⟨_, rfl, fits.pos, ?_⟩
  rw [length_set]
  exact fits.words

/-- Adding a key to a filter that has bits does not panic. -/
theorem Fits.add (fits : bf.Fits) (key : Bytes) : ∃ bf', bf.add key = .ok bf' ∧ bf'.Fits := by
  have loop := foldlM_succeeds (P := Fits)
    (f := fun bf i => do BloomFilter.setBit bf (← bf.position (hash128 key) i))
    (l := range bf.k) fits (by
      intro bf i fits _
      obtain ⟨pos, found, inside⟩ := fits.position (hash128 key) i
      obtain ⟨bf', set, fits'⟩ := fits.setBit inside
      exact ⟨bf', bind_eq_ok.mpr ⟨pos, found, set⟩, fits'⟩)
  obtain ⟨bf', run, fits'⟩ := loop
  exact ⟨{ bf' with count := bf'.count + 1 }, bind_eq_ok.mpr ⟨bf', run, rfl⟩, fits'.pos,
    fits'.words⟩

theorem Fits.containsFrom (fits : bf.Fits) (hash : UInt64 × UInt64)
    (rounds : List ℕ) : ∃ b, bf.containsFrom hash rounds = .ok b := by
  induction rounds with
  | nil => exact ⟨true, rfl⟩
  | cons i rest ih =>
    obtain ⟨pos, found, inside⟩ := fits.position hash i
    have bit : ∃ b, bf.getBit pos = .ok b := by
      unfold getBit
      rw [getElem?_eq_getElem inside]
      exact ⟨_, rfl⟩
    obtain ⟨b, got⟩ := bit
    rw [BloomFilter.containsFrom, found]
    simp only [bind, Except.bind, got]
    cases b with
    | true => exact ih
    | false => exact ⟨false, rfl⟩

theorem Fits.contains (fits : bf.Fits) (key : Bytes) : ∃ b, bf.contains key = .ok b :=
  fits.containsFrom (hash128 key) (range bf.k)

/-- Adding a key keeps the number of words. -/
theorem length_bitset_add {bf bf' : BloomFilter} {key : Bytes} (added : bf.add key = .ok bf') :
    bf'.bitset.length = bf.bitset.length := by
  obtain ⟨set, loop, same⟩ := bind_eq_ok.mp added
  cases same
  refine foldlM_induction (P := fun other => other.bitset.length = bf.bitset.length) rfl ?_ loop
  intro bf₁ i bf₂ kept _ round
  obtain ⟨pos, -, set⟩ := bind_eq_ok.mp round
  unfold setBit at set
  split at set
  · nomatch set
  · cases set
    rw [← kept]
    exact length_set

theorem length_serialize (bf : BloomFilter) : bf.serialize.length = 16 + 8 * bf.bitset.length := by
  have words : (bf.bitset.flatMap fun word => leBytes 8 word.toNat).length
      = 8 * bf.bitset.length := by
    simp [Nat.mul_comm]
  unfold serialize
  rw [length_append, length_append, length_leBytes, length_leBytes]
  omega

/-- The filter that a compaction asks for, which expects no keys, cannot take one. -/
theorem add_new_zero (sizing : Sizing) (key : Bytes) :
    (new sizing 0).add key = .error .divideByZero := by
  have empty : (new sizing 0).m = 0 := by
    show (sizing.bits 0 + 63) / 64 * 64 = 0
    rw [sizing.bits_zero]
  have some_hash : ∃ k, (new sizing 0).k = k + 1 := by
    apply Nat.exists_eq_succ_of_ne_zero
    unfold new
    dsimp only
    split <;> split <;> omega
  obtain ⟨k, hashes⟩ := some_hash
  unfold add
  rw [hashes, range_succ_eq_map, foldlM_cons]
  unfold position
  rw [if_pos empty]
  rfl

end BloomFilter

end Bloom

end Hermes.Storage
