import Mathlib.Data.BitVec

/-!
# The bytes of a 32-bit word

A word is determined by its four bytes, and the bitwise operations and the shifts by whole bytes act
on the bytes. Identities between expressions in words are proved here byte by byte.
-/

namespace Arith

/-- Byte `k` of a word, from the least significant one. -/
def byte (w : BitVec 32) (k : ℕ) : BitVec 8 := (w >>> (8 * k)).setWidth 8

variable (v w : BitVec 32) (k : ℕ)

theorem getLsbD_byte {i : ℕ} (hi : i < 8) : (byte w k).getLsbD i = w.getLsbD (8 * k + i) := by
  rw [byte, BitVec.getLsbD_setWidth, BitVec.getLsbD_ushiftRight, decide_eq_true hi, Bool.true_and]

variable {v w} in
/-- Two words with the same bytes are equal. -/
theorem eq_of_byte_eq (h : ∀ k < 4, byte v k = byte w k) : v = w := by
  apply BitVec.eq_of_getLsbD_eq
  intro i hi
  have hbit := congrArg (fun b ↦ b.getLsbD (i % 8)) (h (i / 8) (by omega))
  simp only [getLsbD_byte _ _ (Nat.mod_lt i (by decide : 0 < 8)), Nat.div_add_mod] at hbit
  exact hbit

theorem byte_xor : byte (v ^^^ w) k = byte v k ^^^ byte w k := by
  apply BitVec.eq_of_getLsbD_eq
  intro i hi
  rw [BitVec.getLsbD_xor, getLsbD_byte _ _ hi, getLsbD_byte _ _ hi, getLsbD_byte _ _ hi,
    BitVec.getLsbD_xor]

theorem byte_or : byte (v ||| w) k = byte v k ||| byte w k := by
  apply BitVec.eq_of_getLsbD_eq
  intro i hi
  rw [BitVec.getLsbD_or, getLsbD_byte _ _ hi, getLsbD_byte _ _ hi, getLsbD_byte _ _ hi,
    BitVec.getLsbD_or]

theorem byte_and : byte (v &&& w) k = byte v k &&& byte w k := by
  apply BitVec.eq_of_getLsbD_eq
  intro i hi
  rw [BitVec.getLsbD_and, getLsbD_byte _ _ hi, getLsbD_byte _ _ hi, getLsbD_byte _ _ hi,
    BitVec.getLsbD_and]

theorem byte_shiftRight (j : ℕ) : byte (w >>> (8 * j)) k = byte w (j + k) := by
  rw [byte, byte, ← BitVec.shiftRight_add, Nat.mul_add]

theorem byte_shiftLeft (j : ℕ) {k : ℕ} (hk : k < 4) :
    byte (w <<< (8 * j)) k = if k < j then 0#8 else byte w (k - j) := by
  apply BitVec.eq_of_getLsbD_eq
  intro i hi
  rw [getLsbD_byte _ _ hi, BitVec.getLsbD_shiftLeft]
  split
  · rw [decide_eq_true (show 8 * k + i < 8 * j by omega), Bool.not_true, Bool.and_false,
      Bool.false_and, BitVec.getLsbD_zero]
  · rw [getLsbD_byte _ _ hi, decide_eq_true (show 8 * k + i < 32 by omega),
      decide_eq_false (show ¬8 * k + i < 8 * j by omega), Bool.not_false, Bool.true_and,
      Bool.true_and]
    congr 1
    omega

/-- A byte widened to a word. -/
theorem byte_setWidth (b : BitVec 8) : byte (b.setWidth 32) k = if k = 0 then b else 0#8 := by
  apply BitVec.eq_of_getLsbD_eq
  intro i hi
  rw [getLsbD_byte _ _ hi, BitVec.getLsbD_setWidth]
  split
  case isTrue h => rw [h, Nat.mul_zero, Nat.zero_add, decide_eq_true (by omega), Bool.true_and]
  case isFalse h =>
    rw [BitVec.getLsbD_of_ge b _ (by omega), Bool.and_false, BitVec.getLsbD_zero]

theorem byte_of_ge (hk : 4 ≤ k) : byte w k = 0#8 := by
  apply BitVec.eq_of_getLsbD_eq
  intro i hi
  rw [getLsbD_byte _ _ hi, BitVec.getLsbD_of_ge w _ (by omega), BitVec.getLsbD_zero]

/-- The low byte of a shifted word, as an index into a table. -/
theorem toNat_shiftRight_and : ((w >>> (8 * k)) &&& 0xff).toNat = (byte w k).toNat := by
  rw [byte, BitVec.toNat_and, BitVec.toNat_setWidth]
  exact Nat.and_two_pow_sub_one_eq_mod _ 8

theorem toNat_and : (w &&& 0xff).toNat = (byte w 0).toNat := by
  rw [← toNat_shiftRight_and, Nat.mul_zero, BitVec.ushiftRight_zero]

theorem toNat_shiftRight : (w >>> 24).toNat = (byte w 3).toNat := by
  have hlt := w.isLt
  rw [byte, BitVec.toNat_setWidth, BitVec.toNat_ushiftRight, Nat.shiftRight_eq_div_pow]
  omega

/-- The word of four bytes, the most significant one first. -/
def ofBytes (a b c d : BitVec 8) : BitVec 32 :=
  (a.setWidth 32 <<< 24) ^^^ (b.setWidth 32 <<< 16) ^^^ (c.setWidth 32 <<< 8) ^^^ d.setWidth 32

section OfBytes

variable (a b c d : BitVec 8)

/-- A byte moved to its place in a word. -/
theorem byte_setWidth_shiftLeft (j : ℕ) {k : ℕ} (hk : k < 4) :
    byte (a.setWidth 32 <<< (8 * j)) k = if k = j then a else 0#8 := by
  rw [byte_shiftLeft _ _ hk, byte_setWidth]
  grind

theorem byte_ofBytes {k : ℕ} (hk : k < 4) : byte (ofBytes a b c d) k =
    if k = 0 then d else if k = 1 then c else if k = 2 then b else a := by
  have ha := byte_setWidth_shiftLeft a 3 hk
  have hb := byte_setWidth_shiftLeft b 2 hk
  have hc := byte_setWidth_shiftLeft c 1 hk
  simp only [Nat.reduceMul] at ha hb hc
  rw [ofBytes, byte_xor, byte_xor, byte_xor, ha, hb, hc, byte_setWidth]
  rcases (by omega : k = 0 ∨ k = 1 ∨ k = 2 ∨ k = 3) with rfl | rfl | rfl | rfl <;> simp

@[simp] theorem byte_zero_ofBytes : byte (ofBytes a b c d) 0 = d := by
  rw [byte_ofBytes a b c d (by decide)]
  rfl

@[simp] theorem byte_one_ofBytes : byte (ofBytes a b c d) 1 = c := by
  rw [byte_ofBytes a b c d (by decide)]
  rfl

@[simp] theorem byte_two_ofBytes : byte (ofBytes a b c d) 2 = b := by
  rw [byte_ofBytes a b c d (by decide)]
  rfl

@[simp] theorem byte_three_ofBytes : byte (ofBytes a b c d) 3 = a := by
  rw [byte_ofBytes a b c d (by decide)]
  rfl

variable {a b c d} {w}

/-- A word is given by its bytes. -/
theorem eq_ofBytes (h0 : byte w 0 = d) (h1 : byte w 1 = c) (h2 : byte w 2 = b)
    (h3 : byte w 3 = a) : w = ofBytes a b c d := by
  apply eq_of_byte_eq
  intro k hk
  rw [byte_ofBytes a b c d hk]
  rcases (by omega : k = 0 ∨ k = 1 ∨ k = 2 ∨ k = 3) with rfl | rfl | rfl | rfl
  · exact h0
  · exact h1
  · exact h2
  · exact h3

variable (a b c d) (w)

theorem ofBytes_xor (a' b' c' d' : BitVec 8) : ofBytes a b c d ^^^ ofBytes a' b' c' d' =
    ofBytes (a ^^^ a') (b ^^^ b') (c ^^^ c') (d ^^^ d') := by
  apply eq_ofBytes <;> simp [byte_xor]

theorem ofBytes_and (a' b' c' d' : BitVec 8) : ofBytes a b c d &&& ofBytes a' b' c' d' =
    ofBytes (a &&& a') (b &&& b') (c &&& c') (d &&& d') := by
  apply eq_ofBytes <;> simp [byte_and]

/-- The bytes put together with `or`. -/
theorem or_eq_ofBytes : (a.setWidth 32 <<< 24) ||| (b.setWidth 32 <<< 16) |||
    (c.setWidth 32 <<< 8) ||| d.setWidth 32 = ofBytes a b c d := by
  apply eq_of_byte_eq
  intro k hk
  have ha := byte_setWidth_shiftLeft a 3 hk
  have hb := byte_setWidth_shiftLeft b 2 hk
  have hc := byte_setWidth_shiftLeft c 1 hk
  simp only [Nat.reduceMul] at ha hb hc
  rw [byte_ofBytes a b c d hk, byte_or, byte_or, byte_or, ha, hb, hc, byte_setWidth]
  rcases (by omega : k = 0 ∨ k = 1 ∨ k = 2 ∨ k = 3) with rfl | rfl | rfl | rfl <;> simp

/-- The bytes rotated by one place. -/
theorem rotate_ofBytes :
    (ofBytes a b c d <<< 8) ||| (ofBytes a b c d >>> 24) = ofBytes b c d a := by
  have hleft := fun (k : ℕ) (hk : k < 4) ↦ byte_shiftLeft (ofBytes a b c d) 1 hk
  have hright := fun k ↦ byte_shiftRight (ofBytes a b c d) k 3
  have hhigh := fun (k : ℕ) (hk : 4 ≤ k) ↦ byte_of_ge (ofBytes a b c d) k hk
  simp only [Nat.reduceMul] at hleft hright
  apply eq_ofBytes <;> rw [byte_or, hleft _ (by decide), hright] <;>
    simp [hhigh]

end OfBytes

end Arith
