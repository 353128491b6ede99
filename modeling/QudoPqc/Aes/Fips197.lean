import Mathlib.Data.BitVec
import Mathlib.Logic.Function.Iterate

/-!
# The block cipher of FIPS 197

The standard that the three AES back ends of the library are compared with. A byte is an element of
the field with 256 elements, a word is four bytes, and the State is four words: its columns. Nothing
here is taken from the code.

The key is the memory it is read from. `aes` reads the first 16, 24 or 32 bytes of it, which is
`word_congr`, so that a back end that reads further can be compared with it as well.
-/

namespace Aes

/-- A byte. -/
abbrev Byte := BitVec 8

/-- A property of bytes that is checked on the 256 of them. -/
theorem forall_byte {p : Byte → Bool} (h : (List.range 256).all (fun n ↦ p (BitVec.ofNat 8 n))) :
    ∀ b, p b := by
  intro b
  have hb := List.all_eq_true.1 h b.toNat (List.mem_range.2 b.isLt)
  rwa [BitVec.ofNat_toNat, BitVec.setWidth_eq] at hb

/-- A table of 256 entries at a byte. -/
theorem getD_table {α : Type} {table : List α} {f : ℕ → α} (h : table = (List.range 256).map f)
    (b : Byte) (d : α) : table.getD b.toNat d = f b.toNat := by
  rw [h, List.getD_eq_getElem?_getD, List.getElem?_map, List.getElem?_range b.isLt]
  rfl

namespace Fips197

/-! ## The field -/

/-- Multiplication by `x`, modulo `x ^ 8 + x ^ 4 + x ^ 3 + x + 1`. -/
def xTimes (b : Byte) : Byte := (b <<< 1) ^^^ if b.msb then 0x1b else 0

/-- The product: the sum of `a • x ^ i` over the bits `i` of `b`, by Horner's rule. -/
def mul (a b : Byte) : Byte :=
  (List.range 8).foldr (fun i p ↦ xTimes p ^^^ if b.getLsbD i then a else 0) 0

/-- The multiplicative inverse `a ^ 254`, and zero for zero. -/
def inv (a : Byte) : Byte :=
  let a2 := mul a a
  let a4 := mul a2 a2
  let a8 := mul a4 a4
  let a16 := mul a8 a8
  let a32 := mul a16 a16
  let a64 := mul a32 a32
  let a128 := mul a64 a64
  mul a2 (mul a4 (mul a8 (mul a16 (mul a32 (mul a64 a128)))))

/-- The affine map of SBOX: bit `i` is the sum of the bits `i`, `i + 4`, `i + 5`, `i + 6` and
`i + 7` modulo eight, and of bit `i` of `0x63`. -/
def affine (c : Byte) : Byte :=
  c ^^^ c.rotateLeft 4 ^^^ c.rotateLeft 3 ^^^ c.rotateLeft 2 ^^^ c.rotateLeft 1 ^^^ 0x63

/-- SBOX. -/
def sbox (b : Byte) : Byte := affine (inv b)

/-! ### Evaluation

The kernel computes with numbers much faster than with bit vectors, so the checks over all bytes go
through the operations on numbers.
-/

/-- One step of Horner's rule, on numbers. -/
def hornerNat (a b p i : ℕ) : ℕ :=
  Nat.xor (Nat.xor (Nat.mul 2 p) (Nat.mul 0x11b (Nat.div p 128)))
    (Nat.mul a (Nat.mod (Nat.shiftRight b i) 2))

/-- `mul`, on numbers. -/
def mulNat (a b : ℕ) : ℕ :=
  hornerNat a b (hornerNat a b (hornerNat a b (hornerNat a b (hornerNat a b (hornerNat a b
    (hornerNat a b (hornerNat a b 0 7) 6) 5) 4) 3) 2) 1) 0

/-- `inv`, on numbers. -/
def invNat (a : ℕ) : ℕ :=
  let a2 := mulNat a a
  let a4 := mulNat a2 a2
  let a8 := mulNat a4 a4
  let a16 := mulNat a8 a8
  let a32 := mulNat a16 a16
  let a64 := mulNat a32 a32
  let a128 := mulNat a64 a64
  mulNat a2 (mulNat a4 (mulNat a8 (mulNat a16 (mulNat a32 (mulNat a64 a128)))))

theorem toNat_xTimes (b : Byte) :
    (xTimes b).toNat = Nat.xor (Nat.mul 2 b.toNat) (Nat.mul 0x11b (Nat.div b.toNat 128)) := by
  have h : ∀ b : Byte, ((xTimes b).toNat ==
      Nat.xor (Nat.mul 2 b.toNat) (Nat.mul 0x11b (Nat.div b.toNat 128))) = true :=
    forall_byte (by decide +kernel)
  exact eq_of_beq (h b)

theorem toNat_horner (a b p : Byte) (i : ℕ) :
    (xTimes p ^^^ if b.getLsbD i then a else 0).toNat = hornerNat a.toNat b.toNat p.toNat i := by
  have hbit : (if b.getLsbD i then a else 0).toNat =
      a.toNat * (Nat.shiftRight b.toNat i % 2) := by
    rw [BitVec.getLsbD, Nat.testBit_eq_decide_div_mod_eq, ← Nat.shiftRight_eq_div_pow]
    rcases Nat.mod_two_eq_zero_or_one (b.toNat >>> i) with h | h
    · simp [h]
    · simp [h]
  rw [BitVec.toNat_xor, toNat_xTimes, hbit]
  rfl

theorem toNat_mul (a b : Byte) : (mul a b).toNat = mulNat a.toNat b.toNat := by
  have hrange : List.range 8 = [0, 1, 2, 3, 4, 5, 6, 7] := rfl
  rw [mul, hrange]
  simp only [List.foldr_cons, List.foldr_nil, toNat_horner]
  rfl

theorem toNat_inv (a : Byte) : (inv a).toNat = invNat a.toNat := by
  simp only [inv, invNat, toNat_mul]

theorem xTimes_xor (a b : Byte) : xTimes (a ^^^ b) = xTimes a ^^^ xTimes b := by
  have hcarry : ∀ x y : Bool, (if x ^^ y then 0x1b else 0 : Byte) =
      (if x then 0x1b else 0) ^^^ if y then 0x1b else 0 := by decide
  rw [xTimes, xTimes, xTimes, BitVec.shiftLeft_xor_distrib, BitVec.msb_xor, hcarry]
  ac_rfl

theorem mul_two (a : Byte) : mul a 2 = xTimes a := by
  have h : ∀ a : Byte, (mulNat a.toNat 2 == (xTimes a).toNat) = true :=
    forall_byte (by decide +kernel)
  apply BitVec.eq_of_toNat_eq
  rw [toNat_mul]
  exact eq_of_beq (h a)

theorem mul_three (a : Byte) : mul a 3 = xTimes a ^^^ a := by
  have h : ∀ a : Byte, (mulNat a.toNat 3 == (xTimes a ^^^ a).toNat) = true :=
    forall_byte (by decide +kernel)
  apply BitVec.eq_of_toNat_eq
  rw [toNat_mul]
  exact eq_of_beq (h a)

theorem sbox_eq (b : Byte) : sbox b = affine (BitVec.ofNat 8 (invNat b.toNat)) := by
  rw [sbox, ← toNat_inv, BitVec.ofNat_toNat, BitVec.setWidth_eq]

example : sbox 0x53 = 0xed := by
  rw [sbox_eq]
  decide +kernel

end Fips197

/-! ## Words and the State -/

/-- A word: four bytes. -/
@[ext]
structure Word where
  b0 : Byte
  b1 : Byte
  b2 : Byte
  b3 : Byte
  deriving DecidableEq

namespace Word

/-- Bytewise sum. -/
instance : XorOp Word :=
  ⟨fun v w ↦ ⟨v.b0 ^^^ w.b0, v.b1 ^^^ w.b1, v.b2 ^^^ w.b2, v.b3 ^^^ w.b3⟩⟩

variable (v w : Word)

@[simp] theorem xor_b0 : (v ^^^ w).b0 = v.b0 ^^^ w.b0 := rfl

@[simp] theorem xor_b1 : (v ^^^ w).b1 = v.b1 ^^^ w.b1 := rfl

@[simp] theorem xor_b2 : (v ^^^ w).b2 = v.b2 ^^^ w.b2 := rfl

@[simp] theorem xor_b3 : (v ^^^ w).b3 = v.b3 ^^^ w.b3 := rfl

/-- A map of bytes, on each byte. -/
@[simps]
def map (f : Byte → Byte) : Word := ⟨f w.b0, f w.b1, f w.b2, f w.b3⟩

/-- The bytes in order. -/
def toList : List Byte := [w.b0, w.b1, w.b2, w.b3]

end Word

/-- The State, by columns. -/
@[ext]
structure State where
  c0 : Word
  c1 : Word
  c2 : Word
  c3 : Word
  deriving DecidableEq

namespace State

/-- Bytewise sum. -/
instance : XorOp State :=
  ⟨fun s t ↦ ⟨s.c0 ^^^ t.c0, s.c1 ^^^ t.c1, s.c2 ^^^ t.c2, s.c3 ^^^ t.c3⟩⟩

variable (s t : State)

@[simp] theorem xor_c0 : (s ^^^ t).c0 = s.c0 ^^^ t.c0 := rfl

@[simp] theorem xor_c1 : (s ^^^ t).c1 = s.c1 ^^^ t.c1 := rfl

@[simp] theorem xor_c2 : (s ^^^ t).c2 = s.c2 ^^^ t.c2 := rfl

@[simp] theorem xor_c3 : (s ^^^ t).c3 = s.c3 ^^^ t.c3 := rfl

/-- A map of words, on each column. -/
@[simps]
def map (f : Word → Word) : State := ⟨f s.c0, f s.c1, f s.c2, f s.c3⟩

/-- The output: byte `r + 4 * c` is byte `r` of column `c`. -/
def toList : List Byte := s.c0.toList ++ s.c1.toList ++ s.c2.toList ++ s.c3.toList

end State

/-- The word at an address of a memory. -/
def wordAt (m : ℕ → Byte) (a : ℕ) : Word := ⟨m a, m (a + 1), m (a + 2), m (a + 3)⟩

/-- The State read from a block. -/
def stateAt (m : ℕ → Byte) : State := ⟨wordAt m 0, wordAt m 4, wordAt m 8, wordAt m 12⟩

/-! ## The cipher -/

/-- The key sizes of the standard. -/
inductive KeySize where
  | aes128
  | aes192
  | aes256
  deriving DecidableEq

namespace KeySize

/-- The length of the key in bits. -/
def bits : KeySize → ℕ
  | aes128 => 128
  | aes192 => 192
  | aes256 => 256

/-- The length of the key in words. -/
def nk : KeySize → ℕ
  | aes128 => 4
  | aes192 => 6
  | aes256 => 8

/-- The number of rounds. -/
def nr : KeySize → ℕ
  | aes128 => 10
  | aes192 => 12
  | aes256 => 14

theorem nk_pos (size : KeySize) : 0 < size.nk := by
  cases size <;> decide

end KeySize

namespace Fips197

/-- SUBBYTES. -/
def subBytes (s : State) : State := s.map (Word.map · sbox)

/-- SHIFTROWS: row `r` is rotated by `r` columns. -/
def shiftRows (s : State) : State :=
  ⟨⟨s.c0.b0, s.c1.b1, s.c2.b2, s.c3.b3⟩, ⟨s.c1.b0, s.c2.b1, s.c3.b2, s.c0.b3⟩,
    ⟨s.c2.b0, s.c3.b1, s.c0.b2, s.c1.b3⟩, ⟨s.c3.b0, s.c0.b1, s.c1.b2, s.c2.b3⟩⟩

/-- The matrix of MIXCOLUMNS, on one column. -/
def mixColumn (w : Word) : Word :=
  ⟨mul w.b0 2 ^^^ mul w.b1 3 ^^^ w.b2 ^^^ w.b3, w.b0 ^^^ mul w.b1 2 ^^^ mul w.b2 3 ^^^ w.b3,
    w.b0 ^^^ w.b1 ^^^ mul w.b2 2 ^^^ mul w.b3 3, mul w.b0 3 ^^^ w.b1 ^^^ w.b2 ^^^ mul w.b3 2⟩

/-- MIXCOLUMNS. -/
def mixColumns (s : State) : State := s.map mixColumn

/-- SUBWORD. -/
def subWord (w : Word) : Word := w.map sbox

/-- ROTWORD. -/
def rotWord (w : Word) : Word := ⟨w.b1, w.b2, w.b3, w.b0⟩

/-- The round constants, from `rcon 1`. -/
def rcon (j : ℕ) : Word := ⟨xTimes^[j - 1] 1, 0, 0, 0⟩

/-- The value `temp` of KEYEXPANSION for word `i`, from the word before it. -/
def temp (nk i : ℕ) (w : Word) : Word :=
  if i % nk = 0 then subWord (rotWord w) ^^^ rcon (i / nk)
  else if 6 < nk ∧ i % nk = 4 then subWord w
  else w

section KeyExpansion

variable (size : KeySize) (key : ℕ → Byte)

/-- Word `i` of KEYEXPANSION. -/
def word (i : ℕ) : Word :=
  if h : i < size.nk then wordAt key (4 * i)
  else word (i - size.nk) ^^^ temp size.nk i (word (i - 1))
termination_by i
decreasing_by
  · have := size.nk_pos
    omega
  · have := size.nk_pos
    omega

theorem word_of_lt {i : ℕ} (h : i < size.nk) : word size key i = wordAt key (4 * i) := by
  rw [word, dif_pos h]

theorem word_add_nk (i : ℕ) : word size key (size.nk + i) =
    word size key i ^^^ temp size.nk (size.nk + i) (word size key (size.nk + i - 1)) := by
  rw [word, dif_neg (by omega), Nat.add_sub_cancel_left]

variable {key} in
/-- The words depend on the bytes of the key only. -/
theorem word_congr {key' : ℕ → Byte} (h : ∀ j < 4 * size.nk, key j = key' j) (i : ℕ) :
    word size key i = word size key' i := by
  induction i using Nat.strong_induction_on with
  | _ i ih =>
    have hpos := size.nk_pos
    by_cases hi : i < size.nk
    · rw [word_of_lt size key hi, word_of_lt size key' hi]
      simp only [wordAt]
      rw [h _ (by omega), h _ (by omega), h _ (by omega), h _ (by omega)]
    · obtain ⟨j, rfl⟩ := Nat.exists_eq_add_of_le (not_lt.1 hi)
      rw [word_add_nk, word_add_nk, ih j (by omega), ih (size.nk + j - 1) (by omega)]

/-! KEYEXPANSION in groups of `nk` words: how each of the words of group `n + 1` is computed. -/

theorem word_head (n : ℕ) : word size key (size.nk * n + size.nk) = word size key (size.nk * n) ^^^
    (subWord (rotWord (word size key (size.nk * n + size.nk - 1))) ^^^ rcon (n + 1)) := by
  have hmod : (size.nk + size.nk * n) % size.nk = 0 := by
    rw [Nat.add_mul_mod_self_left, Nat.mod_self]
  have hdiv : (size.nk + size.nk * n) / size.nk = n + 1 := by
    rw [Nat.add_mul_div_left _ _ size.nk_pos, Nat.div_self size.nk_pos, Nat.add_comm]
  rw [Nat.add_comm, word_add_nk, temp, if_pos hmod, hdiv]

theorem word_next (n j : ℕ) (h0 : 0 < j := by decide) (hj : j < size.nk := by decide)
    (h4 : ¬(6 < size.nk ∧ j = 4) := by decide) :
    word size key (size.nk * n + size.nk + j) =
      word size key (size.nk * n + j) ^^^ word size key (size.nk * n + size.nk + j - 1) := by
  have hmod : (size.nk + (size.nk * n + j)) % size.nk = j := by
    rw [Nat.add_mod_left, Nat.mul_add_mod, Nat.mod_eq_of_lt hj]
  have hindex : size.nk * n + size.nk + j = size.nk + (size.nk * n + j) := by omega
  rw [hindex, word_add_nk, temp, hmod, if_neg (by omega), if_neg h4]

theorem word_middle (n : ℕ) : word .aes256 key (8 * n + 12) =
    word .aes256 key (8 * n + 4) ^^^ subWord (word .aes256 key (8 * n + 11)) := by
  have hmod : (8 + (8 * n + 4)) % 8 = 4 := by omega
  have hindex : 8 * n + 12 = 8 + (8 * n + 4) := by omega
  rw [hindex]
  refine Eq.trans (word_add_nk .aes256 key (8 * n + 4)) ?_
  have hprev : 8 + (8 * n + 4) - 1 = 8 * n + 11 := by omega
  rw [KeySize.nk, temp, hmod, if_neg (by decide), if_pos (by decide), hprev]

/-- The round key of ADDROUNDKEY. -/
def roundKey (r : ℕ) : State :=
  ⟨word size key (4 * r), word size key (4 * r + 1), word size key (4 * r + 2),
    word size key (4 * r + 3)⟩

end KeyExpansion

/-- The State after the first ADDROUNDKEY and `r` full rounds. -/
def rounds (rk : ℕ → State) (s : State) : ℕ → State
  | 0 => s ^^^ rk 0
  | r + 1 => mixColumns (shiftRows (subBytes (rounds rk s r))) ^^^ rk (r + 1)

/-- CIPHER, with `nr` rounds and the round keys `rk`. -/
def cipher (nr : ℕ) (rk : ℕ → State) (s : State) : State :=
  shiftRows (subBytes (rounds rk s (nr - 1))) ^^^ rk nr

/-- AES: the 16 bytes of the output block. -/
def aes (size : KeySize) (key block : ℕ → Byte) : List Byte :=
  (cipher size.nr (roundKey size key) (stateAt block)).toList

end Fips197

end Aes
