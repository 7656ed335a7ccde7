import Hermes.Storage.Bloom

/-!
# Filters find what they were given

A filter may find keys that were never added, but it never misses one that was: the bits
of a key stay set, and writing the filter to bytes and reading it back changes none.
This does not depend on the hash function, which is a parameter here.
-/

namespace Hermes.Storage.Bloom.BloomFilter

open List

/-! ## Definitions for any hash function -/

section Hashing

variable (hash : Bytes → UInt64 × UInt64)

/-- `NewWithParams`. -/
def newWithParams (m k : UInt64) : BloomFilter :=
  let m := (m + 63) / 64 * 64
  { bitset := List.replicate (m.toNat / 64) 0, m := m.toNat, k := k.toNat }

/-- `Add` with a hash function. -/
def addWith (bf : BloomFilter) (key : Bytes) : Except Panic BloomFilter := do
  let bf ← (List.range bf.k).foldlM
    (fun bf i => do bf.setBit (← bf.position (hash key) i)) bf
  return { bf with count := bf.count + 1 }

/-- `Contains` with a hash function. -/
def containsWith (bf : BloomFilter) (key : Bytes) : Except Panic Bool :=
  bf.containsFrom (hash key) (List.range bf.k)

theorem add_eq_addWith (bf : BloomFilter) (key : Bytes) : bf.add key = bf.addWith hash128 key :=
  rfl

theorem contains_eq_containsWith (bf : BloomFilter) (key : Bytes) :
    bf.contains key = bf.containsWith hash128 key :=
  rfl

end Hashing

/-! ## Bits -/

/-- A bit of a word, as the code takes it. -/
theorem shiftRight_and_one (word : UInt64) {i : ℕ} (inside : i < 64) :
    (word >>> UInt64.ofNat i) &&& 1 = 1 ↔ word.toNat.testBit i = true := by
  have amount : (UInt64.ofNat i).toNat % 64 = i := by
    rw [UInt64.toNat_ofNat']
    omega
  have one : (1 : UInt64).toNat = 2 ^ 1 - 1 := rfl
  rw [← UInt64.toNat_inj, UInt64.toNat_and, UInt64.toNat_shiftRight, amount, one,
    Nat.and_two_pow_sub_one_eq_mod, Nat.testBit_eq_decide_div_mod_eq, Nat.shiftRight_eq_div_pow,
    decide_eq_true_iff, Nat.pow_one]

/-- Setting a bit sets that bit and no other one. -/
theorem testBit_or_shiftLeft (word : UInt64) {i j : ℕ} (insideI : i < 64) (insideJ : j < 64) :
    (word ||| 1 <<< UInt64.ofNat j).toNat.testBit i = (word.toNat.testBit i || decide (j = i)) := by
  have amount : (UInt64.ofNat j).toNat % 64 = j := by
    rw [UInt64.toNat_ofNat']
    omega
  have one : (1 : UInt64).toNat = 1 := rfl
  rw [UInt64.toNat_or, UInt64.toNat_shiftLeft, amount, one, Nat.shiftLeft_eq, Nat.one_mul,
    Nat.testBit_or, Nat.testBit_mod_two_pow, Nat.testBit_two_pow, decide_eq_true insideI,
    Bool.true_and]

/-- The bit at a position is set. -/
def IsSet (bf : BloomFilter) (pos : ℕ) : Prop :=
  bf.getBit pos = .ok true

variable {bf : BloomFilter}

theorem isSet_iff {pos : ℕ} :
    bf.IsSet pos ↔ ∃ word, bf.bitset[pos / 64]? = some word ∧ word.toNat.testBit (pos % 64) := by
  have inside : pos % 64 < 64 := Nat.mod_lt pos (by decide)
  unfold IsSet getBit
  cases bf.bitset[pos / 64]? with
  | none => simp
  | some word =>
    rw [Except.ok.injEq, decide_eq_true_iff, shiftRight_and_one word inside]
    simp

/-- The filters that have the bits and the hash functions of another one. -/
structure SameShape (bf bf' : BloomFilter) : Prop where
  fits : bf'.Fits
  bits : bf'.m = bf.m
  hashes : bf'.k = bf.k

/-- Setting a bit keeps the others. -/
theorem Fits.setBit_spec (fits : bf.Fits) {pos : ℕ} (inside : pos < bf.m) :
    ∃ bf', bf.setBit pos = .ok bf' ∧ SameShape bf bf' ∧ bf'.IsSet pos ∧
      ∀ p, bf.IsSet p → bf'.IsSet p := by
  have within : pos / 64 < bf.bitset.length := by
    have := fits.words
    omega
  have place := getElem?_eq_getElem within
  unfold BloomFilter.setBit
  rw [place]
  generalize bf.bitset[pos / 64] = word at place
  refine ⟨_, rfl, ⟨⟨fits.pos, ?_⟩, rfl, rfl⟩, ?_, ?_⟩
  · rw [length_set]
    exact fits.words
  · rw [isSet_iff]
    refine ⟨_, getElem?_set_self within, ?_⟩
    rw [testBit_or_shiftLeft word (Nat.mod_lt pos (by decide)) (Nat.mod_lt pos (by decide))]
    simp
  · intro p set
    rw [isSet_iff] at set ⊢
    obtain ⟨other, found, bit⟩ := set
    by_cases same : pos / 64 = p / 64
    · rw [← same, place] at found
      cases found
      rw [← same]
      refine ⟨_, getElem?_set_self within, ?_⟩
      rw [testBit_or_shiftLeft word (Nat.mod_lt p (by decide)) (Nat.mod_lt pos (by decide)), bit,
        Bool.true_or]
    · exact ⟨other, (getElem?_set_ne same).trans found, bit⟩

/-! ## Keys -/

/-- The bit of hash function `i`. -/
def probe (m : ℕ) (hash : UInt64 × UInt64) (i : ℕ) : ℕ :=
  (hash.1 + UInt64.ofNat i * hash.2).toNat % m

theorem Fits.position_eq (fits : bf.Fits) (hash : UInt64 × UInt64) (i : ℕ) :
    bf.position hash i = .ok (probe bf.m hash i) :=
  if_neg (Nat.pos_iff_ne_zero.mp fits.pos)

section Adding

variable (hash : Bytes → UInt64 × UInt64)

theorem Fits.addWith_spec (fits : bf.Fits) (key : Bytes) :
    ∃ bf', bf.addWith hash key = .ok bf' ∧ SameShape bf bf' ∧
      (∀ i < bf.k, bf'.IsSet (probe bf.m (hash key) i)) ∧ ∀ p, bf.IsSet p → bf'.IsSet p := by
  obtain ⟨bf', run, shape, adds, keeps⟩ := foldlM_accumulates (P := SameShape bf) (Q := IsSet)
    (A := fun i p => p = probe bf.m (hash key) i)
    (f := fun bf i => do BloomFilter.setBit bf (← bf.position (hash key) i))
    (l := range bf.k) ⟨fits, rfl, rfl⟩ (by
      rintro bf₁ i ⟨fits₁, bits, hashes⟩ -
      have inside : probe bf₁.m (hash key) i < bf₁.m := Nat.mod_lt _ fits₁.pos
      obtain ⟨bf₂, set, shape, isSet, keeps⟩ := fits₁.setBit_spec inside
      refine ⟨bf₂, bind_eq_ok.mpr ⟨_, fits₁.position_eq _ i, set⟩,
        ⟨shape.fits, shape.bits.trans bits, shape.hashes.trans hashes⟩, ?_, keeps⟩
      rintro _ rfl
      rw [← bits]
      exact isSet)
  refine ⟨{ bf' with count := bf'.count + 1 }, bind_eq_ok.mpr ⟨bf', run, rfl⟩,
    ⟨⟨shape.fits.pos, shape.fits.words⟩, shape.bits, shape.hashes⟩, ?_, keeps⟩
  intro i below
  exact adds i (mem_range.mpr below) _ rfl

theorem Fits.containsWith_of_isSet (fits : bf.Fits) {key : Bytes}
    (set : ∀ i < bf.k, bf.IsSet (probe bf.m (hash key) i)) :
    bf.containsWith hash key = .ok true := by
  have loop : ∀ rounds : List ℕ, (∀ i ∈ rounds, bf.IsSet (probe bf.m (hash key) i)) →
      bf.containsFrom (hash key) rounds = .ok true := by
    intro rounds
    induction rounds with
    | nil => exact fun _ => rfl
    | cons i rest ih =>
      intro all
      have bit : bf.getBit (probe bf.m (hash key) i) = .ok true := all i mem_cons_self
      rw [BloomFilter.containsFrom, fits.position_eq]
      simp only [bind, Except.bind, bit]
      exact ih fun j mem => all j (mem_cons_of_mem _ mem)
  exact loop _ fun i mem => set i (mem_range.mp mem)

theorem Fits.addAll_spec (fits : bf.Fits) (keys : List Bytes) :
    ∃ bf', keys.foldlM (addWith hash) bf = .ok bf' ∧ SameShape bf bf' ∧
      ∀ key ∈ keys, ∀ i < bf'.k, bf'.IsSet (probe bf'.m (hash key) i) := by
  obtain ⟨bf', run, shape, adds, -⟩ := foldlM_accumulates (P := SameShape bf) (Q := IsSet)
    (A := fun key p => ∃ i < bf.k, p = probe bf.m (hash key) i) (f := addWith hash)
    (l := keys) ⟨fits, rfl, rfl⟩ (by
      rintro bf₁ key ⟨fits₁, bits, hashes⟩ -
      obtain ⟨bf₂, added, shape, sets, keeps⟩ := fits₁.addWith_spec hash key
      refine ⟨bf₂, added, ⟨shape.fits, shape.bits.trans bits, shape.hashes.trans hashes⟩, ?_, keeps⟩
      rintro _ ⟨i, below, rfl⟩
      rw [← bits]
      exact sets i (hashes ▸ below))
  refine ⟨bf', run, shape, ?_⟩
  intro key mem i below
  rw [shape.bits]
  exact adds key mem _ ⟨i, shape.hashes ▸ below, rfl⟩

end Adding

/-! ## Bytes -/

/-- The pieces of a concatenation of pieces of one length. -/
theorem take_drop_flatMap {α : Type*} {f : α → Bytes} {width : ℕ}
    (fixed : ∀ a, (f a).length = width) {l : List α} {i : ℕ} {a : α} (at_i : l[i]? = some a) :
    ((l.flatMap f).drop (i * width)).take width = f a := by
  induction l generalizing i with
  | nil => nomatch at_i
  | cons first rest ih =>
    rw [flatMap_cons]
    cases i with
    | zero =>
      cases at_i
      rw [Nat.zero_mul, drop_zero, take_left' (fixed _)]
    | succ i =>
      rw [Nat.succ_mul, Nat.add_comm, ← drop_drop, drop_left' (fixed first)]
      exact ih at_i

/-- A filter comes back from its bytes, apart from the number of its keys. -/
theorem deserialize_serialize (words : bf.bitset.length = bf.m / 64) (bits : bf.m < 2 ^ 64)
    (hashes : bf.k < 2 ^ 64) : deserialize bf.serialize = some { bf with count := 0 } := by
  have length := length_serialize bf
  have behind : bf.serialize.drop 8 =
      leBytes 8 bf.k ++ bf.bitset.flatMap fun word => leBytes 8 word.toNat :=
    drop_left' (length_leBytes 8 _)
  have first : leValue (bf.serialize.take 8) = bf.m := by
    rw [serialize, take_left' (length_leBytes 8 _), leValue_leBytes bits]
  have second : leValue ((bf.serialize.drop 8).take 8) = bf.k := by
    rw [behind, take_left' (length_leBytes 8 _), leValue_leBytes hashes]
  have rest : bf.serialize.drop 16 = bf.bitset.flatMap fun word => leBytes 8 word.toNat := by
    rw [show 16 = 8 + 8 from rfl, ← drop_drop, behind, drop_left' (length_leBytes 8 _)]
  have bitset : (range bf.bitset.length).map (fun i =>
      if 16 + i * 8 + 8 > bf.serialize.length then 0
      else UInt64.ofNat (leValue ((bf.serialize.drop (16 + i * 8)).take 8))) = bf.bitset := by
    apply ext_getElem?
    intro i
    rw [getElem?_map]
    by_cases inside : i < bf.bitset.length
    · have at_i := getElem?_eq_getElem inside
      rw [getElem?_range inside, at_i, Option.map_some, if_neg (by omega), ← drop_drop,
        rest, take_drop_flatMap (fun word => length_leBytes 8 _) at_i,
        leValue_leBytes (UInt64.toNat_lt _), UInt64.ofNat_toNat]
    · rw [getElem?_eq_none (by rw [length_range]; omega),
        getElem?_eq_none (Nat.le_of_not_lt inside), Option.map_none]
  unfold deserialize
  rw [if_neg (by omega)]
  dsimp only
  rw [first, second, ← words, bitset]

/-! ## No false negatives -/

theorem fits_newWithParams {m k : UInt64} (multiple : m % 64 = 0) (positive : 0 < m) :
    (newWithParams m k).Fits ∧ (newWithParams m k).m = m.toNat ∧
      (newWithParams m k).k = k.toNat := by
  have same : (m + 63) / 64 * 64 = m := by
    have := m.toNat_lt
    rw [← UInt64.toNat_inj] at multiple ⊢
    simp only [UInt64.toNat_mod, UInt64.toNat_mul, UInt64.toNat_div, UInt64.toNat_add,
      UInt64.reduceToNat] at multiple ⊢
    omega
  unfold newWithParams
  rw [same]
  rw [← UInt64.toNat_inj] at multiple
  refine ⟨⟨positive, ?_⟩, rfl, rfl⟩
  rw [length_replicate]
  exact Nat.div_mul_cancel (Nat.dvd_of_mod_eq_zero multiple)

/-- Whatever the hash function is: a filter finds every key that was added, and so does
the filter that is read back from its bytes. -/
theorem contains_added (hash : Bytes → UInt64 × UInt64) {m k : UInt64} (multiple : m % 64 = 0)
    (positive : 0 < m) (keys : List Bytes) :
    ∃ bf, keys.foldlM (addWith hash) (newWithParams m k) = .ok bf ∧
      ∃ bf', deserialize bf.serialize = some bf' ∧
        ∀ key ∈ keys, bf.containsWith hash key = .ok true ∧
          bf'.containsWith hash key = .ok true := by
  obtain ⟨fits, bits, hashes⟩ := fits_newWithParams (k := k) multiple positive
  obtain ⟨bf, added, shape, sets⟩ := fits.addAll_spec hash keys
  have words : bf.bitset.length = bf.m / 64 := by
    have := shape.fits.words
    omega
  refine ⟨bf, added, { bf with count := 0 }, ?_, ?_⟩
  · apply deserialize_serialize words
    · rw [shape.bits, bits]
      exact m.toNat_lt
    · rw [shape.hashes]
      exact k.toNat_lt
  · intro key mem
    have restored : Fits { bf with count := 0 } := ⟨shape.fits.pos, shape.fits.words⟩
    refine ⟨shape.fits.containsWith_of_isSet hash (sets key mem), ?_⟩
    apply restored.containsWith_of_isSet hash
    intro i below
    exact sets key mem i below

/-- Two keys in 128 bits, with the hash function of the code. -/
theorem contains_added_two :
    ∃ bf, [[97], [98]].foldlM (addWith hash128) (newWithParams 128 7) = .ok bf ∧
      ∃ bf', deserialize bf.serialize = some bf' ∧
        ∀ key ∈ [[97], [98]], bf.containsWith hash128 key = .ok true ∧
          bf'.containsWith hash128 key = .ok true :=
  contains_added hash128 (by decide) (by decide) [[97], [98]]

end Hermes.Storage.Bloom.BloomFilter
