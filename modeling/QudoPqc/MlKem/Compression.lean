import QudoPqc.MlKem.Arith
import QudoPqc.MlKem.ScalarCodec

/-!
# Compressed scalars

Rounding of coefficients to fewer bits and back, and the reading of rounded coefficients.
`scalar_decode` reads its input in 64-bit words, which do not end where coefficients end: a
coefficient that straddles two words is put together from two parts. `Decoder` is the state of that
loop. Its invariant is that what has been read but not yet returned, and the rest of the input, are
together the number whose low digits are the coefficients to come.
-/

namespace MlKem

open Codec Fips203

namespace Ossl

/-! ## Rounding -/

/-- `kHalfPrime`. -/
def kHalfPrime : ℕ := (q - 1) / 2

/-- `compress`. -/
def compress (x bits : ℕ) : ℕ :=
  let shifted := (x <<< bits) % 2 ^ 32
  let product := shifted * kBarrettMultiplier
  let quotient := (product >>> 24) % 2 ^ 32
  let remainder := (shifted + 2 ^ 32 - quotient * q % 2 ^ 32) % 2 ^ 32
  let quotient := quotient + (decide (kHalfPrime < remainder)).toNat
  let quotient := quotient + (decide (q + kHalfPrime < remainder)).toNat
  quotient &&& (1 <<< bits - 1)

/-- `decompress`. -/
def decompress (x bits : ℕ) : ℕ :=
  let product := x * q % 2 ^ 32
  let power := 1 <<< bits
  let remainder := product &&& (power - 1)
  let lower := product >>> bits
  (lower + remainder >>> (bits - 1)) % 2 ^ 16

/-- `scalar_compress`. -/
def scalarCompress (s : Scalar ℕ) (bits : ℕ) : Scalar ℕ := fun j ↦ compress (s j) bits

/-- `scalar_decompress`. -/
def scalarDecompress (s : Scalar ℕ) (bits : ℕ) : Scalar ℕ := fun j ↦ decompress (s j) bits

/-- `vector_compress`. -/
def vectorCompress {n : ℕ} (a : Vec n ℕ) (bits : ℕ) : Vec n ℕ := fun i ↦ scalarCompress (a i) bits

/-- The quotient of the Barrett reduction, adjusted by the remainder, is the rounded quotient. -/
theorem barrett_round {y k r : ℕ} (hy : y < 2 ^ 23) (hk : k = y * 5039 / 2 ^ 24)
    (hr : r = y - k * 3329) :
    k + (decide (1664 < r)).toNat + (decide (4993 < r)).toNat = (2 * y + 3329) / 6658 := by
  rcases lt_or_ge 1664 r with h₁ | h₁ <;> rcases lt_or_ge 4993 r with h₂ | h₂ <;>
    simp only [h₁, h₂, Nat.not_lt.mpr, decide_true, decide_false, Bool.toNat_true,
      Bool.toNat_false] <;> omega

theorem compress_eq {bits : ℕ} (hbits : bits ≤ 11) (x : ZMod q) :
    compress x.val bits = Fips203.compress bits x := by
  have hpow : 2 ^ bits ≤ 2 ^ 11 := Nat.pow_le_pow_right (by decide) hbits
  have hx : x.val * 2 ^ bits ≤ 3328 * 2 ^ 11 :=
    Nat.mul_le_mul (Nat.le_of_lt_succ x.val_lt) hpow
  have hmul : kBarrettMultiplier = 5039 := rfl
  have hhalf : kHalfPrime = 1664 := rfl
  have hsum : q + kHalfPrime = 4993 := rfl
  have htwo : 2 * 2 ^ bits * x.val = 2 * (x.val * 2 ^ bits) := by ring
  rw [compress, Fips203.compress, Nat.shiftLeft_eq, Nat.shiftLeft_eq, Nat.one_mul,
    Nat.and_two_pow_sub_one_eq_mod, htwo, hmul, hsum, hhalf, Nat.shiftRight_eq_div_pow]
  generalize x.val * 2 ^ bits = y at hx
  rw [Nat.mod_eq_of_lt (show y < 2 ^ 32 by omega)]
  generalize hquot : y * 5039 / 2 ^ 24 % 2 ^ 32 = k
  have hk : k = y * 5039 / 2 ^ 24 := by omega
  have hrem : (y + 2 ^ 32 - k * 3329 % 2 ^ 32) % 2 ^ 32 = y - k * 3329 := by omega
  rw [show k * q = k * 3329 from rfl, hrem, barrett_round (by omega) hk rfl]
  rfl

/-- Rounding by the highest bit of the remainder. -/
theorem div_add_highBit (y p : ℕ) (hp : 0 < p) :
    y / (2 * p) + y % (2 * p) / p = (2 * y + 2 * p) / (2 * (2 * p)) := by
  have hlt : y % (2 * p) < 2 * p := Nat.mod_lt _ (by omega)
  have hsum := Nat.div_add_mod y (2 * p)
  generalize y / (2 * p) = a at hsum
  generalize y % (2 * p) = r at hlt hsum
  have hrw : 2 * y + 2 * p = 2 * (r + p) + 2 * (2 * p) * a := by rw [← hsum]; ring
  rw [hrw, Nat.add_mul_div_left _ _ (by omega), Nat.mul_div_mul_left _ _ (by decide), Nat.add_comm]
  refine congrArg (· + a) ?_
  rcases lt_or_ge r p with h | h
  · rw [Nat.div_eq_of_lt h, Nat.div_eq_of_lt (by omega)]
  · rw [Nat.div_eq_of_lt_le (k := 1) (by omega) (by omega),
      Nat.div_eq_of_lt_le (k := 1) (by omega) (by omega)]

theorem decompress_eq {bits y : ℕ} (hpos : 0 < bits) (hbits : bits ≤ 11) (hy : y < 2 ^ bits) :
    decompress y bits = (Fips203.decompress bits y).val := by
  obtain ⟨b, rfl⟩ : ∃ b, bits = b + 1 := ⟨bits - 1, by omega⟩
  have hpow : 2 ^ (b + 1) ≤ 2 ^ 11 := Nat.pow_le_pow_right (by decide) hbits
  have hp : 0 < 2 ^ b := Nat.two_pow_pos b
  have hq : q = 3329 := rfl
  rw [decompress, Nat.shiftLeft_eq, Nat.one_mul, Nat.and_two_pow_sub_one_eq_mod,
    Nat.mod_eq_of_lt (show y * q < 2 ^ 32 by rw [hq]; omega), Nat.shiftRight_eq_div_pow,
    Nat.shiftRight_eq_div_pow, Nat.add_sub_cancel, Fips203.decompress, ZMod.val_natCast,
    show 2 * q * y = 2 * (y * q) by ring]
  rw [pow_succ', div_add_highBit _ _ hp] at *
  -- the rounded quotient is below `q`
  have hlt : (2 * (y * q) + 2 * 2 ^ b) / (2 * (2 * 2 ^ b)) < q := by
    rw [Nat.div_lt_iff_lt_mul (by omega), hq]
    omega
  rw [Nat.mod_eq_of_lt hlt, Nat.mod_eq_of_lt (hlt.trans (by decide))]

/-! ## Reading rounded coefficients -/

/-- The loop state of `scalar_decode`: what has been returned, and its variables. -/
structure Decoder where
  out : List ℕ
  input : Bytes
  accum : ℕ
  accumBits : ℕ
  todo : ℕ
  mask : ℕ
  element : ℕ

/-- Loading the accumulator when it is empty. -/
def Decoder.refill (d : Decoder) : Decoder :=
  if d.accumBits = 0 then
    { d with accum := loadLe (d.input.take 8), input := d.input.drop 8, accumBits := 64 }
  else d

/-- `bitmask`. -/
def bitmask (bits : ℕ) : ℕ := 1 <<< bits % 2 ^ 16 - 1

/-- The rest of a round: a word is returned, or a part of one is kept. -/
def Decoder.advance (bits : ℕ) (d : Decoder) : Decoder :=
  if d.todo = bits ∧ d.accumBits ≥ bits then
    { d with out := d.out ++ [d.accum % 2 ^ 16 &&& d.mask], accum := d.accum >>> bits,
             accumBits := d.accumBits - bits }
  else if d.accumBits ≥ d.todo then
    { d with
      out := d.out ++ [(d.element ||| (d.accum % 2 ^ 16 &&& d.mask) <<< (bits - d.todo)) % 2 ^ 16],
      accum := d.accum >>> d.todo, accumBits := d.accumBits - d.todo, element := 0, todo := bits,
      mask := bitmask bits }
  else
    { d with element := d.accum % 2 ^ 16 &&& d.mask, todo := d.todo - d.accumBits,
             mask := bitmask bits >>> d.accumBits, accumBits := 0 }

/-- One round of `scalar_decode`. -/
def Decoder.round (bits : ℕ) (d : Decoder) : Decoder := d.refill.advance bits

/-- The loop of `scalar_decode`, for at most as many rounds as given. -/
def Decoder.loop (bits : ℕ) : ℕ → Decoder → Decoder
  | 0, d => d
  | fuel + 1, d =>
    let d := d.round bits
    if d.out.length < degree then loop bits fuel d else d

/-- `scalar_decode`; no coefficient takes more than two rounds. -/
def scalarDecode (bits : ℕ) (input : Bytes) : Scalar ℕ :=
  Scalar.ofList (Decoder.loop bits (2 * degree)
    ⟨[], input, 0, 0, bits, bitmask bits, 0⟩).out

/-- What `scalar_decode` has read of `input`: the words returned so far are its first ones, and the
other variables hold the bits that come next. -/
structure Decodes (bits : ℕ) (input : Bytes) (d : Decoder) : Prop where
  out_eq : d.out = split bits d.out.length (loadLe input)
  pending : loadLe input / (2 ^ bits) ^ d.out.length = d.element +
    2 ^ (bits - d.todo) * (d.accum % 2 ^ d.accumBits + 2 ^ d.accumBits * loadLe d.input)
  todo_pos : 0 < d.todo
  todo_le : d.todo ≤ bits
  mask_eq : d.mask = 2 ^ d.todo - 1
  element_lt : d.element < 2 ^ (bits - d.todo)
  accum_lt : 0 < d.accumBits → d.accum < 2 ^ d.accumBits
  loads : ∃ k, d.input = input.drop (8 * k) ∧
    64 * k = bits * d.out.length + (bits - d.todo) + d.accumBits

theorem bitmask_eq {bits : ℕ} (hbits : bits < 16) : bitmask bits = 2 ^ bits - 1 := by
  rw [bitmask, Nat.shiftLeft_eq, Nat.one_mul,
    Nat.mod_eq_of_lt (Nat.pow_lt_pow_right (by decide) hbits)]

theorem mod_and_mask (x : ℕ) {t : ℕ} (ht : t ≤ 16) : x % 2 ^ 16 &&& (2 ^ t - 1) = x % 2 ^ t := by
  rw [Nat.and_two_pow_sub_one_eq_mod, Nat.mod_mod_of_dvd _ (Nat.pow_dvd_pow 2 ht)]

theorem two_pow_sub_one_shiftRight {m n : ℕ} (h : m ≤ n) :
    (2 ^ n - 1) >>> m = 2 ^ (n - m) - 1 := by
  obtain ⟨c, rfl⟩ := Nat.exists_eq_add_of_le h
  have hm := Nat.two_pow_pos m
  obtain ⟨a, ha⟩ := Nat.exists_eq_add_one.mpr (Nat.two_pow_pos c)
  rw [Nat.shiftRight_eq_div_pow, Nat.add_sub_cancel_left, Nat.pow_add, Nat.mul_comm, ha,
    Nat.add_sub_cancel]
  exact Nat.div_eq_of_lt_le (by rw [Nat.succ_mul]; omega) (by rw [Nat.succ_mul]; omega)

section Decoding

variable {bits : ℕ} {input : Bytes} {d : Decoder}

/-- The low bits of the accumulator with the rest of the input on top. -/
theorem accum_mod {a b t : ℕ} (l : ℕ) (h : t ≤ b) : (a % 2 ^ b + 2 ^ b * l) % 2 ^ t =
    a % 2 ^ t := by
  obtain ⟨c, rfl⟩ := Nat.exists_eq_add_of_le h
  rw [Nat.pow_add, Nat.mul_assoc, Nat.add_mul_mod_self_left,
    Nat.mod_mod_of_dvd _ (Nat.dvd_mul_right _ _)]

/-- Its other bits. -/
theorem accum_div {a b t : ℕ} (l : ℕ) (h : t ≤ b) :
    (a % 2 ^ b + 2 ^ b * l) / 2 ^ t = (a >>> t) % 2 ^ (b - t) + 2 ^ (b - t) * l := by
  obtain ⟨c, rfl⟩ := Nat.exists_eq_add_of_le h
  rw [Nat.add_sub_cancel_left, Nat.pow_add, Nat.mul_assoc,
    Nat.add_mul_div_left _ _ (Nat.two_pow_pos t), Nat.mod_mul_right_div_self,
    Nat.shiftRight_eq_div_pow]

/-- The state after a word has been returned. -/
def Decoder.pushed (bits : ℕ) (d : Decoder) : Decoder :=
  { d with
    out := d.out ++ [d.element + 2 ^ (bits - d.todo) * (d.accum % 2 ^ d.todo)]
    accum := d.accum >>> d.todo
    accumBits := d.accumBits - d.todo
    element := 0
    todo := bits
    mask := 2 ^ bits - 1 }

theorem Decodes.pushed (h : Decodes bits input d) (hle : d.todo ≤ d.accumBits) :
    Decodes bits input (d.pushed bits) := by
  obtain ⟨hout, hpending, hpos, htodo, hmask, helement, haccum, k, hinput, hk⟩ := h
  have hpow : 2 ^ bits = 2 ^ (bits - d.todo) * 2 ^ d.todo := by
    rw [← Nat.pow_add, Nat.sub_add_cancel htodo]
  have hlen : (d.out ++ [d.element + 2 ^ (bits - d.todo) * (d.accum % 2 ^ d.todo)]).length =
      d.out.length + 1 := by
    rw [List.length_append, List.length_singleton]
  have hword : loadLe input / (2 ^ bits) ^ d.out.length % 2 ^ bits =
      d.element + 2 ^ (bits - d.todo) * (d.accum % 2 ^ d.todo) := by
    rw [hpending, hpow, Nat.mod_mul, Nat.add_mul_mod_self_left, Nat.mod_eq_of_lt helement,
      Nat.add_mul_div_left _ _ (Nat.two_pow_pos _), Nat.div_eq_of_lt helement, Nat.zero_add,
      accum_mod _ hle]
  have hrest : loadLe input / (2 ^ bits) ^ (d.out.length + 1) =
      (d.accum >>> d.todo) % 2 ^ (d.accumBits - d.todo) +
        2 ^ (d.accumBits - d.todo) * loadLe d.input := by
    rw [Nat.pow_succ, ← Nat.div_div_eq_div_mul, hpending, hpow, ← Nat.div_div_eq_div_mul,
      Nat.add_mul_div_left _ _ (Nat.two_pow_pos _), Nat.div_eq_of_lt helement, Nat.zero_add,
      accum_div _ hle]
  refine ⟨?_, ?_, hpos.trans_le htodo, le_rfl, rfl, Nat.two_pow_pos _, fun hbits ↦ ?_, k, hinput,
    ?_⟩
  · rw [Decoder.pushed, hlen, split_add, ← hout, split, split, hword]
  · rw [Decoder.pushed, hlen, hrest, Nat.sub_self, Nat.pow_zero, Nat.one_mul, Nat.zero_add]
  · rw [Decoder.pushed, Nat.shiftRight_eq_div_pow, Nat.div_lt_iff_lt_mul (Nat.two_pow_pos _),
      ← Nat.pow_add, Nat.sub_add_cancel hle]
    exact haccum (by omega)
  · rw [Decoder.pushed, hlen, hk, Nat.mul_succ]
    dsimp only
    omega

/-- An empty accumulator is loaded with the next eight bytes, of which there are enough. -/
theorem Decodes.refill (h : Decodes bits input d) (hlen : 32 * bits ≤ input.length)
    (hout : d.out.length < degree) : Decodes bits input d.refill := by
  rw [Decoder.refill]
  split
  next hempty =>
    obtain ⟨hwords, hpending, hpos, htodo, hmask, helement, haccum, k, hinput, hk⟩ := h
    have hmul : bits * d.out.length + bits ≤ bits * 256 := by
      rw [← Nat.mul_succ]
      exact Nat.mul_le_mul_left _ hout
    have htake : (d.input.take 8).length = 8 := by
      rw [List.length_take, hinput, List.length_drop]
      omega
    have hload : loadLe d.input = loadLe (d.input.take 8) + 2 ^ 64 * loadLe (d.input.drop 8) := by
      conv_lhs => rw [← List.take_append_drop 8 d.input, loadLe_append, htake]
      norm_num
    have hlt : loadLe (d.input.take 8) < 2 ^ 64 := by
      have hlt := loadLe_lt (d.input.take 8)
      rw [htake] at hlt
      exact hlt.trans_eq (by norm_num)
    refine ⟨hwords, ?_, hpos, htodo, hmask, helement, fun _ ↦ hlt, k + 1, ?_, ?_⟩
    · rw [hpending, hempty, Nat.pow_zero, Nat.mod_one, Nat.zero_add, Nat.one_mul, hload,
        Nat.mod_eq_of_lt hlt]
    · dsimp only
      rw [hinput, List.drop_drop, Nat.mul_succ]
    · dsimp only
      omega
  next => exact h

/-- The part of a word that is left in the accumulator is kept. -/
theorem Decodes.part (h : Decodes bits input d) (hbits : bits < 16) (htodo : d.todo = bits)
    (hpos : 0 < d.accumBits) (hlt : d.accumBits < bits) :
    Decodes bits input
      { d with
        element := d.accum % 2 ^ 16 &&& d.mask
        todo := d.todo - d.accumBits
        mask := bitmask bits >>> d.accumBits
        accumBits := 0 } := by
  obtain ⟨hwords, hpending, -, -, hmask, helement, haccum, k, hinput, hk⟩ := h
  have haccum_lt := haccum hpos
  have hzero : d.element = 0 := by
    rw [htodo, Nat.sub_self, Nat.pow_zero] at helement
    omega
  have helement' : d.accum % 2 ^ 16 &&& d.mask = d.accum := by
    rw [hmask, mod_and_mask _ (by omega), htodo,
      Nat.mod_eq_of_lt (haccum_lt.trans (Nat.pow_lt_pow_right (by decide) hlt))]
  have hsub : bits - (d.todo - d.accumBits) = d.accumBits := by omega
  refine ⟨hwords, ?_, by dsimp only; omega, by dsimp only; omega, ?_, ?_,
    fun h ↦ absurd h (lt_irrefl 0), k, hinput, ?_⟩
  · dsimp only
    rw [hpending, hzero, helement', hsub, htodo, Nat.sub_self, Nat.pow_zero, Nat.one_mul,
      Nat.zero_add, Nat.mod_one, Nat.zero_add, Nat.one_mul, Nat.mod_eq_of_lt haccum_lt]
  · dsimp only
    rw [bitmask_eq hbits, htodo, two_pow_sub_one_shiftRight hlt.le]
  · dsimp only
    rw [helement', hsub]
    exact haccum_lt
  · dsimp only
    omega

/-- Whether a part of a word is waiting for its other part. -/
def Decoder.waiting (bits : ℕ) (d : Decoder) : Bool := d.todo < bits

theorem Decodes.pushed_eq (h : Decodes bits input d) (hbits : bits < 16) :
    { d with
      out := d.out ++ [(d.element ||| (d.accum % 2 ^ 16 &&& d.mask) <<< (bits - d.todo)) % 2 ^ 16]
      accum := d.accum >>> d.todo
      accumBits := d.accumBits - d.todo
      element := 0
      todo := bits
      mask := bitmask bits } = d.pushed bits := by
  have hlt : d.element + d.accum % 2 ^ d.todo * 2 ^ (bits - d.todo) < 2 ^ 16 := by
    have hmod := Nat.mod_lt d.accum (Nat.two_pow_pos d.todo)
    have hmul : (d.accum % 2 ^ d.todo + 1) * 2 ^ (bits - d.todo) ≤
        2 ^ d.todo * 2 ^ (bits - d.todo) := Nat.mul_le_mul_right _ hmod
    rw [← Nat.pow_add, Nat.add_sub_cancel' h.todo_le, Nat.succ_mul] at hmul
    have hpow : 2 ^ bits < 2 ^ 16 := Nat.pow_lt_pow_right (by decide) hbits
    have helement := h.element_lt
    omega
  rw [Decoder.pushed, bitmask_eq hbits, h.mask_eq, mod_and_mask _ (by have := h.todo_le; omega),
    or_shiftLeft _ h.element_lt, Nat.mod_eq_of_lt hlt, Nat.mul_comm (2 ^ (bits - d.todo))]

/-- The same, if no part of a word was kept. -/
theorem Decodes.pushed_eq_whole (h : Decodes bits input d) (hbits : bits < 16)
    (htodo : d.todo = bits) :
    { d with
      out := d.out ++ [d.accum % 2 ^ 16 &&& d.mask]
      accum := d.accum >>> bits
      accumBits := d.accumBits - bits } = d.pushed bits := by
  have hzero : d.element = 0 := by
    have hlt := h.element_lt
    rw [htodo, Nat.sub_self, Nat.pow_zero] at hlt
    omega
  have hmask : d.mask = 2 ^ bits - 1 := by rw [h.mask_eq, htodo]
  rw [Decoder.pushed, htodo, hzero, hmask, mod_and_mask _ (by omega), Nat.sub_self, Nat.pow_zero,
    Nat.one_mul, Nat.zero_add]

/-- A round returns a word, or keeps a part of one if none was kept before. -/
structure Advances (bits : ℕ) (input : Bytes) (d d' : Decoder) : Prop where
  decodes : Decodes bits input d'
  empty : d'.waiting bits = true → d'.accumBits = 0
  progress : d'.out.length = d.out.length + 1 ∧ d'.waiting bits = false ∨
    d'.out.length = d.out.length ∧ d.waiting bits = false ∧ d'.waiting bits = true

theorem Decodes.advances_pushed (h : Decodes bits input d) (hle : d.todo ≤ d.accumBits) :
    Advances bits input d (d.pushed bits) := by
  have hwait : (d.pushed bits).waiting bits = false := decide_eq_false (lt_irrefl bits)
  refine ⟨h.pushed hle, fun h ↦ absurd (hwait.symm.trans h) Bool.false_ne_true, .inl ⟨?_, hwait⟩⟩
  rw [Decoder.pushed, List.length_append, List.length_singleton]

theorem Decodes.advance (h : Decodes bits input d) (hbits : bits < 16) (hpos : 0 < d.accumBits)
    (hfull : d.waiting bits = true → d.accumBits = 64) :
    Advances bits input d (d.advance bits) := by
  rw [Decoder.advance]
  split
  next hwhole =>
    rw [h.pushed_eq_whole hbits hwhole.1]
    exact h.advances_pushed (hwhole.1 ▸ hwhole.2)
  next hnot =>
    split
    next hle =>
      rw [h.pushed_eq hbits]
      exact h.advances_pushed hle
    next hlt =>
      have htodo : d.todo = bits := by
        rcases h.todo_le.lt_or_eq with hwait | heq
        · have h64 := hfull (decide_eq_true hwait)
          omega
        · exact heq
      refine ⟨h.part hbits htodo hpos (by omega), fun _ ↦ rfl, .inr ⟨rfl, ?_, ?_⟩⟩
      · exact decide_eq_false (by omega)
      · exact decide_eq_true (show d.todo - d.accumBits < bits by omega)

theorem Decodes.round (h : Decodes bits input d) (hbits : bits < 16)
    (hlen : 32 * bits ≤ input.length) (hout : d.out.length < degree)
    (hempty : d.waiting bits = true → d.accumBits = 0) :
    Advances bits input d (d.round bits) := by
  have hrefill := h.refill hlen hout
  rw [Decoder.round]
  rw [Decoder.refill] at hrefill ⊢
  split at hrefill
  next hzero =>
    rw [if_pos hzero]
    obtain ⟨hdecodes, hempty', hprogress⟩ := hrefill.advance hbits (show 0 < 64 by decide)
      fun _ ↦ rfl
    exact ⟨hdecodes, hempty', hprogress⟩
  next hne =>
    rw [if_neg hne]
    exact h.advance hbits (Nat.pos_of_ne_zero hne) fun hwait ↦ absurd (hempty hwait) hne

/-- With two rounds for every word that is missing, one of which may be spent already, the loop
returns all words. -/
theorem Decodes.loop (h : Decodes bits input d) (hbits : bits < 16)
    (hlen : 32 * bits ≤ input.length) (hout : d.out.length < degree)
    (hempty : d.waiting bits = true → d.accumBits = 0) {fuel : ℕ}
    (hfuel : 2 * degree ≤ 2 * d.out.length + (d.waiting bits).toNat + fuel) :
    (Decoder.loop bits fuel d).out = unpack bits degree input := by
  induction fuel generalizing d with
  | zero =>
    have hle := Bool.toNat_le (d.waiting bits)
    omega
  | succ fuel ih =>
    obtain ⟨hdecodes, hempty', hprogress⟩ := h.round hbits hlen hout hempty
    rw [Decoder.loop]
    split
    next hlt =>
      refine ih hdecodes hlt hempty' ?_
      have hle := Bool.toNat_le (d.waiting bits)
      rcases hprogress with ⟨hnext, -⟩ | ⟨hnext, hwait, hwait'⟩
      · omega
      · rw [hnext, hwait', Bool.toNat_true]
        rw [hwait, Bool.toNat_false] at hfuel
        omega
    next hge =>
      have hall : (d.round bits).out.length = degree := by
        rcases hprogress with ⟨hnext, -⟩ | ⟨hnext, -⟩ <;> omega
      rw [hdecodes.out_eq, hall, unpack]

/-- `scalar_decode` is ByteDecode. -/
theorem scalarDecode_eq (hpos : 0 < bits) (hbits : bits < 16) (hlen : 32 * bits ≤ input.length) :
    scalarDecode bits input = byteDecode bits input := by
  have hinit : Decodes bits input ⟨[], input, 0, 0, bits, bitmask bits, 0⟩ := by
    refine ⟨rfl, ?_, hpos, le_rfl, bitmask_eq hbits, Nat.two_pow_pos _, fun h ↦
      absurd h (lt_irrefl 0),
      0, rfl, ?_⟩
    · simp
    · simp
  rw [scalarDecode, hinit.loop hbits hlen (show 0 < 256 by decide) (fun _ ↦ rfl)
    (show 2 * degree ≤ 2 * 0 + _ + 2 * degree by omega), byteDecode]

end Decoding

/-! ## Messages -/

/-- One round of `scalar_encode_1`. -/
def encode1Round (cs : List ℕ) : Bytes :=
  [UInt8.ofNat (cs.zipIdx.foldl (fun b c ↦ b ||| ((c.1 &&& 1) <<< c.2) % 2 ^ 8) 0)]

/-- `scalar_encode_1`. -/
def scalarEncode1 (s : Scalar ℕ) : Bytes := blocks encode1Round 8 32 (List.ofFn s)

/-- `half_q_plus_1`. -/
def halfQPlus1 : ℕ := q >>> 1 + 1

/-- `decode_decompress_add_bit`, for the given bit. -/
def decodeDecompressAddBit (c bit : ℕ) : ℕ :=
  let mask := (2 ^ 16 - bit) % 2 ^ 16
  reduceOnce (c + (mask &&& halfQPlus1))

/-- `scalar_decode_decompress_add`. -/
def scalarDecodeDecompressAdd (s : Scalar ℕ) (input : Bytes) : Scalar ℕ := fun j ↦
  decodeDecompressAddBit (s j) (((input.getD ((j : ℕ) / 8) 0).toNat >>> ((j : ℕ) % 8)) &&& 1)

theorem encode1Round_eq {cs : List ℕ} (hlen : cs.length = 8) (hcs : ∀ c ∈ cs, c < 2) :
    encode1Round cs = pack 1 cs := by
  have hbit {c : ℕ} (hc : c < 2) : ∃ b : Bool, b.toNat = c := by
    rcases Nat.lt_succ_iff_lt_or_eq.mp hc with h | rfl
    · exact ⟨false, (Nat.lt_one_iff.mp h).symm⟩
    · exact ⟨true, rfl⟩
  have hall : ∀ b₀ b₁ b₂ b₃ b₄ b₅ b₆ b₇ : Bool,
      encode1Round ([b₀, b₁, b₂, b₃, b₄, b₅, b₆, b₇].map Bool.toNat) =
        pack 1 ([b₀, b₁, b₂, b₃, b₄, b₅, b₆, b₇].map Bool.toNat) := by decide +kernel
  match cs, hlen with
  | [c₀, c₁, c₂, c₃, c₄, c₅, c₆, c₇], _ =>
    simp only [List.mem_cons, List.not_mem_nil, or_false, forall_eq_or_imp, forall_eq] at hcs
    obtain ⟨h₀, h₁, h₂, h₃, h₄, h₅, h₆, h₇⟩ := hcs
    obtain ⟨b₀, rfl⟩ := hbit h₀
    obtain ⟨b₁, rfl⟩ := hbit h₁
    obtain ⟨b₂, rfl⟩ := hbit h₂
    obtain ⟨b₃, rfl⟩ := hbit h₃
    obtain ⟨b₄, rfl⟩ := hbit h₄
    obtain ⟨b₅, rfl⟩ := hbit h₅
    obtain ⟨b₆, rfl⟩ := hbit h₆
    obtain ⟨b₇, rfl⟩ := hbit h₇
    exact hall b₀ b₁ b₂ b₃ b₄ b₅ b₆ b₇

/-- `scalar_encode_1` is ByteEncode, for bits. -/
theorem scalarEncode1_eq {s : Scalar ℕ} (hs : ∀ j, s j < 2) :
    scalarEncode1 s = byteEncode 1 s := by
  have hbits : ∀ c ∈ List.ofFn s, c < 2 := by
    intro c hc
    obtain ⟨j, rfl⟩ := List.mem_ofFn.mp hc
    exact hs j
  have hblocks : blocks encode1Round 8 32 (List.ofFn s) = pack 1 ((List.ofFn s).map id) :=
    blocks_eq_pack (w := 1) (g := 8) (m := 1) (n := 32) (P := (· < 2)) rfl (fun _ h ↦ h)
      (fun cs hlen hcs ↦ (encode1Round_eq hlen hcs).trans (by rw [List.map_id']))
      (show (List.ofFn s).length = 32 * 8 from List.length_ofFn) hbits
  rwa [List.map_id] at hblocks

theorem split_getD {w n j : ℕ} (x : ℕ) (hj : j < n) :
    (split w n x).getD j 0 = x / (2 ^ w) ^ j % 2 ^ w := by
  induction n generalizing x j with
  | zero => exact absurd hj (Nat.not_lt_zero j)
  | succ n ih =>
    cases j with
    | zero => rw [split, List.getD_cons_zero, Nat.pow_zero, Nat.div_one]
    | succ j =>
      rw [split, List.getD_cons_succ, ih _ (Nat.lt_of_succ_lt_succ hj), Nat.div_div_eq_div_mul,
        ← Nat.pow_succ']

theorem loadLe_div_mod (bs : Bytes) (a : ℕ) :
    loadLe bs / 256 ^ a % 256 = (bs.getD a 0).toNat := by
  induction bs generalizing a with
  | nil => simp [loadLe]
  | cons b bs ih =>
    have hb := toNat_lt b
    cases a with
    | zero =>
      rw [loadLe, Nat.pow_zero, Nat.div_one, Nat.add_mul_mod_self_left, Nat.mod_eq_of_lt hb,
        List.getD_cons_zero]
    | succ a =>
      rw [loadLe, List.getD_cons_succ, ← ih, Nat.pow_succ', ← Nat.div_div_eq_div_mul,
        Nat.add_mul_div_left _ _ (by decide), Nat.div_eq_of_lt hb, Nat.zero_add]

/-- A bit of a message. -/
theorem byteDecode_one (input : Bytes) (j : Fin degree) :
    byteDecode 1 input j =
      ((input.getD ((j : ℕ) / 8) 0).toNat >>> ((j : ℕ) % 8)) &&& 1 := by
  have hmod : (j : ℕ) % 8 < 8 := Nat.mod_lt _ (by decide)
  have hpow : (2 ^ 1) ^ (j : ℕ) = 256 ^ ((j : ℕ) / 8) * 2 ^ ((j : ℕ) % 8) := by
    rw [Nat.pow_one, show 256 = 2 ^ 8 from rfl, ← Nat.pow_mul, ← Nat.pow_add, Nat.div_add_mod]
  rw [byteDecode, Scalar.ofList, unpack, split_getD _ j.isLt, hpow,
    ← Nat.div_div_eq_div_mul, ← loadLe_div_mod, Nat.and_one_is_mod, Nat.shiftRight_eq_div_pow]
  generalize loadLe input / 256 ^ ((j : ℕ) / 8) = x
  have hsplit : 256 = 2 ^ ((j : ℕ) % 8) * 2 ^ (8 - (j : ℕ) % 8) := by
    rw [← Nat.pow_add, Nat.add_sub_cancel' hmod.le]
  have hdvd : 2 ∣ 2 ^ (8 - (j : ℕ) % 8) := dvd_pow_self 2 (by omega)
  rw [hsplit, Nat.mod_mul_right_div_self, Nat.mod_mod_of_dvd _ hdvd, Nat.pow_one]

theorem decodeDecompressAddBit_eq {bit : ℕ} (hbit : bit < 2) (c : ZMod q) :
    decodeDecompressAddBit c.val bit = (c + Fips203.decompress 1 bit).val := by
  have hall : ∀ bit < 2, (2 ^ 16 - bit) % 2 ^ 16 &&& halfQPlus1 =
      (Fips203.decompress 1 bit).val := by decide
  rw [decodeDecompressAddBit, hall bit hbit, reduceOnce_add]

/-- `scalar_decode_decompress_add` adds the decompressed message. -/
theorem scalarDecodeDecompressAdd_repr (f : Scalar (ZMod q)) (input : Bytes) :
    scalarDecodeDecompressAdd f.repr input =
      (f + fun j ↦ Fips203.decompress 1 (byteDecode 1 input j)).repr := by
  funext j
  have hbit : ((input.getD ((j : ℕ) / 8) 0).toNat >>> ((j : ℕ) % 8)) &&& 1 < 2 := by
    rw [Nat.and_one_is_mod]
    exact Nat.mod_lt _ (by decide)
  rw [scalarDecodeDecompressAdd, Scalar.repr, decodeDecompressAddBit_eq hbit, ← byteDecode_one]
  rfl

end Ossl

end MlKem
