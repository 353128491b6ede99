import QudoPqc.Arith.Transform
import QudoPqc.MlDsa.Fips204

/-!
# The number-theoretic transform of ML-DSA

NTT and its inverse as FIPS 204 has them, on residues. The transform goes to the end: each entry is
the value of the polynomial at a root of `X ^ 256 + 1`, so products are taken entry by entry
(`ntt_negacyclic`), and the inverse takes the products of entries back to products in the ring
(`nttInv_mul`).

OpenSSL's transform and the engine's are both compared with this one.
-/

namespace MlDsa

open Transform

namespace Fips204

/-- The root of unity. -/
def zeta : ZMod q := 1753

/-- BitRev of eight bits. -/
def bitRev8 (i : ℕ) : ℕ := ∑ j : Fin 8, if i.testBit j then 2 ^ (7 - (j : ℕ)) else 0

/-- The table `zetas`. -/
def zetas (k : ℕ) : ZMod q := zeta ^ bitRev8 k

/-- The factors of the inverse at depth `d`: the table from its end, with the sign turned. -/
def zetasInv (d k : ℕ) : ZMod q := -zetas (2 ^ (d + 1) - k)

/-- NTT. -/
def ntt (p : Poly (ZMod q)) : Poly (ZMod q) := fun i ↦ forward zetas 8 8 (extend p) i

/-- The inverse of NTT. -/
def nttInv (p : Poly (ZMod q)) : Poly (ZMod q) := fun i ↦
  8347681 * backward zetasInv 8 8 (extend p) i

theorem zeta_pow_256 : zeta ^ 256 = -1 := by
  have h : ((1753 ^ 256 + 1 : ℕ) : ZMod q) = 0 := by
    rw [ZMod.natCast_eq_zero_iff]
    decide +kernel
  rw [Nat.cast_add, Nat.cast_one, Nat.cast_pow, Nat.cast_ofNat] at h
  rw [zeta]
  exact eq_neg_of_add_eq_zero_left h

theorem isTable_zetas : IsTable zetas 8 := by
  have hrev : ∀ k < 256, 1 ≤ k → 2 * bitRev8 k =
      if k = 1 then 256 else if k % 2 = 0 then bitRev8 (k / 2) else 256 + bitRev8 (k / 2) := by
    decide +kernel
  intro k h1 hlt
  rw [zetas, ← pow_mul, Nat.mul_comm, hrev k hlt h1, node]
  split
  · exact zeta_pow_256
  split
  · rfl
  · rw [pow_add, zeta_pow_256, neg_one_mul, zetas]

/-- Opposite ends of a level of the table. -/
theorem zetasInv_mul : ∀ d < 8, ∀ b < 2 ^ d, zetasInv d (b + 1) * zetas (2 ^ d + b) = 1 := by
  have hrev : ∀ d < 8, ∀ b < 2 ^ d, bitRev8 (2 ^ (d + 1) - (b + 1)) + bitRev8 (2 ^ d + b) =
    256 := by
    decide +kernel
  intro d hd b hb
  rw [zetasInv, zetas, zetas, neg_mul, ← pow_add, hrev d hd b hb, zeta_pow_256, neg_neg]

/-- The factor of the inverse: `1 / 256`. -/
theorem inverse_mul_256 : (8347681 * 2 ^ 8 : ZMod q) = 1 := by
  decide +kernel

@[simp] theorem nttInv_ntt (p : Poly (ZMod q)) : nttInv (ntt p) = p := by
  funext i
  have hread : ∀ j < 2 ^ 8, extend (ntt p) j = forward zetas 8 8 (extend p) j := fun j hj ↦
    extend_of_lt _ hj
  rw [nttInv, backward_congr le_rfl hread i i.isLt,
    backward_forward le_rfl zetasInv_mul i i.isLt, extend_coe, ← mul_assoc, inverse_mul_256,
    one_mul]

/-- There are no more transforms than polynomials. -/
@[simp] theorem ntt_nttInv (p : Poly (ZMod q)) : ntt (nttInv p) = p := by
  have hinj : Function.Injective ntt := Function.LeftInverse.injective nttInv_ntt
  obtain ⟨p, rfl⟩ := Finite.injective_iff_surjective.mp hinj p
  rw [nttInv_ntt]

theorem ntt_negacyclic (a b : Poly (ZMod q)) : ntt (negacyclic a b) = ntt a * ntt b :=
  funext fun i ↦ forward_negacyclic rfl isTable_zetas a b i.isLt

/-- The inverse takes products of entries to products. -/
theorem nttInv_mul (a b : Poly (ZMod q)) : nttInv (ntt a * ntt b) = negacyclic a b := by
  rw [← ntt_negacyclic, nttInv_ntt]

theorem nttInv_sum {ι : Type*} (s : Finset ι) (p : ι → Poly (ZMod q)) :
    nttInv (∑ k ∈ s, p k) = ∑ k ∈ s, nttInv (p k) := by
  funext i
  have hread : ∀ j < 2 ^ 8, extend (∑ k ∈ s, p k) j = ∑ k ∈ s, extend (p k) j := by
    intro j (hj : j < numCoeff)
    rw [extend_of_lt _ hj, Finset.sum_apply]
    exact Finset.sum_congr rfl fun k _ ↦ (extend_of_lt _ hj).symm
  rw [nttInv, backward_congr le_rfl hread i i.isLt, backward_sum s le_rfl _ i i.isLt,
    Finset.mul_sum, Finset.sum_apply]
  rfl

theorem nttInv_smul (s : ZMod q) (p : Poly (ZMod q)) :
    nttInv (fun j ↦ s * p j) = fun j ↦ s * nttInv p j := by
  funext i
  have hread : ∀ j < 2 ^ 8, extend (fun j ↦ s * p j) j = s * extend p j := by
    intro j (hj : j < numCoeff)
    rw [extend_of_lt _ hj, extend_of_lt _ hj]
  rw [nttInv, backward_congr le_rfl hread i i.isLt, backward_smul le_rfl s i i.isLt, nttInv]
  ring

theorem nttInv_sub (p p' : Poly (ZMod q)) : nttInv (p - p') = nttInv p - nttInv p' := by
  have h := nttInv_sum Finset.univ ![p, fun j ↦ -1 * p' j]
  rw [Fin.sum_univ_two, Fin.sum_univ_two, Matrix.cons_val_zero, Matrix.cons_val_one,
    Matrix.cons_val_fin_one, nttInv_smul] at h
  simp only [neg_one_mul] at h
  rw [sub_eq_add_neg, sub_eq_add_neg]
  exact h

/-- A row of a matrix times a vector, in the transformed domain. -/
theorem nttInv_dot {n : ℕ} (a b : PolyVec n (ZMod q)) :
    nttInv (∑ j, ntt (a j) * ntt (b j)) = dot a b := by
  rw [nttInv_sum]
  simp only [nttInv_mul]
  funext i
  rw [Finset.sum_apply]
  rfl

end Fips204

/-! ## Montgomery form

Both implementations multiply with a factor of `2 ^ 32`. The product of entries takes it off, and
the inverse transform puts it back. -/

/-- The factor that Montgomery multiplication takes off. -/
def mont : ZMod q := 2 ^ 32

/-- Its inverse. -/
def montInv : ZMod q := 8265825

theorem montInv_mul_mont : montInv * mont = 1 := by
  decide +kernel

theorem eq_of_mul_mont {x y : ZMod q} (h : x * mont = y * mont) : x = y := by
  rw [← mul_one x, ← mul_one y, ← montInv_mul_mont, mul_comm montInv, ← mul_assoc, ← mul_assoc, h]

/-- Between the transforms the Montgomery factors cancel. -/
theorem mont_nttInv (f : Poly (ZMod q)) :
    (fun j ↦ mont * Fips204.nttInv (fun j ↦ montInv * f j) j) = Fips204.nttInv f := by
  funext j
  rw [Fips204.nttInv_smul, ← mul_assoc, mul_comm mont, montInv_mul_mont, one_mul]

end MlDsa
