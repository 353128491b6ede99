import Mathlib.Algebra.Order.Ring.Abs
import Mathlib.Data.Int.ModEq
import Mathlib.Tactic.Linarith
import Mathlib.Tactic.Ring

/-!
# Montgomery reduction

Dividing by `2 ^ w` modulo an odd `q` without dividing by `q`: a multiple of `q` that agrees with
the number in its low `w` bits is taken away, and the rest is shifted. The multiple is found with an
inverse of `q` modulo `2 ^ w`.

The two forms differ in the representatives. The signed one takes a factor closest to zero off, and
its results are below `q` in absolute value; the unsigned one works on natural numbers, adds, and
its results are below `2 * q`.
-/

namespace Montgomery

/-! ## Signed -/

/-- Signed reduction; `qinv` is an inverse of `q` modulo `2 ^ w`. -/
def signed (w : ℕ) (q qinv a : ℤ) : ℤ := (a - (a * qinv).bmod (2 ^ w) * q) / 2 ^ w

section Signed

variable {w : ℕ} {q qinv : ℤ} (hinv : (2 ^ w : ℤ) ∣ q * qinv - 1) (a : ℤ)

include hinv in
/-- The division is exact. -/
theorem signed_mul : signed w q qinv a * 2 ^ w = a - (a * qinv).bmod (2 ^ w) * q := by
  refine Int.ediv_mul_cancel ?_
  have hmod : (2 ^ w : ℤ) ∣ a * qinv - (a * qinv).bmod (2 ^ w) := by
    have h := Int.dvd_self_sub_bmod (x := a * qinv) (m := 2 ^ w)
    exact_mod_cast h
  have hsum := dvd_sub (hmod.mul_right q) (hinv.mul_left a)
  refine hsum.trans (dvd_of_eq ?_)
  ring

include hinv in
theorem abs_signed_lt (ha : 2 * |a| < 2 ^ w * q) : |signed w q qinv a| < q := by
  have hw : (0 : ℤ) < 2 ^ w := by positivity
  have hq : 0 < q := by
    by_contra hneg
    nlinarith [abs_nonneg a, mul_nonneg hw.le (neg_nonneg.mpr (not_lt.mp hneg))]
  have hge := Int.le_bmod (x := a * qinv) (m := 2 ^ w) (by positivity)
  have hlt := Int.bmod_lt (x := a * qinv) (m := 2 ^ w) (by positivity)
  have hpow : ((2 ^ w : ℕ) : ℤ) = 2 ^ w := by push_cast; rfl
  rw [hpow] at hge hlt
  have hfactor : 2 * |(a * qinv).bmod (2 ^ w)| ≤ 2 ^ w := by
    have hhalf : |(a * qinv).bmod (2 ^ w)| ≤ 2 ^ w / 2 := abs_le.mpr ⟨hge, by omega⟩
    omega
  have hsum : 2 * |signed w q qinv a * 2 ^ w| < 2 * (q * 2 ^ w) := by
    rw [signed_mul hinv]
    calc 2 * |a - (a * qinv).bmod (2 ^ w) * q|
        ≤ 2 * (|a| + |(a * qinv).bmod (2 ^ w) * q|) :=
          mul_le_mul_of_nonneg_left (abs_sub _ _) zero_le_two
      _ = 2 * |a| + 2 * |(a * qinv).bmod (2 ^ w)| * q := by rw [abs_mul, abs_of_pos hq]; ring
      _ < 2 ^ w * q + 2 ^ w * q :=
          add_lt_add_of_lt_of_le ha (mul_le_mul_of_nonneg_right hfactor hq.le)
      _ = 2 * (q * 2 ^ w) := by ring
  rw [abs_mul, abs_of_pos hw] at hsum
  exact lt_of_mul_lt_mul_right (by linarith) hw.le

end Signed

/-! ## Unsigned -/

/-- Unsigned reduction; `negInv` is an inverse of `-q` modulo `2 ^ w`. -/
def unsigned (w q negInv a : ℕ) : ℕ := (a + a * negInv % 2 ^ w * q) / 2 ^ w

section Unsigned

variable {w q negInv : ℕ} (hinv : 2 ^ w ∣ q * negInv + 1) (a : ℕ)

include hinv in
/-- The division is exact. -/
theorem unsigned_mul : unsigned w q negInv a * 2 ^ w = a + a * negInv % 2 ^ w * q := by
  refine Nat.div_mul_cancel ?_
  have hmod : (a + a * negInv % 2 ^ w * q) % 2 ^ w = a * (q * negInv + 1) % 2 ^ w := by
    rw [Nat.add_mod, Nat.mod_mul_mod, ← Nat.add_mod]
    congr 1
    ring
  rw [Nat.dvd_iff_mod_eq_zero, hmod, ← Nat.dvd_iff_mod_eq_zero]
  exact hinv.mul_left a

include hinv in
theorem unsigned_lt (ha : a < 2 ^ w * q) : unsigned w q negInv a < 2 * q := by
  have hw : 0 < 2 ^ w := Nat.two_pow_pos w
  have hmod : a * negInv % 2 ^ w * q ≤ 2 ^ w * q :=
    Nat.mul_le_mul_right q (Nat.mod_lt _ hw).le
  refine lt_of_mul_lt_mul_right (a := 2 ^ w) ?_ hw.le
  rw [unsigned_mul hinv]
  nlinarith

end Unsigned

end Montgomery
