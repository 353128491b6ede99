import Mathlib.Algebra.BigOperators.Fin
import Mathlib.Algebra.BigOperators.Ring.Finset
import Mathlib.Algebra.Order.BigOperators.Ring.Finset
import Mathlib.Data.Fin.VecNotation
import Mathlib.RingTheory.AdjoinRoot
import Mathlib.Data.ZMod.Basic

/-!
# Products modulo `X ^ n + 1`

Elements of `R[X] / (X ^ n + 1)` as their `n` coefficients, with the product written out: the
coefficient of a product is a sum over one factor's coefficients, with the sign turned where the
exponents run past `n`. `adjoinRoot_negacyclic` identifies it with the product of the quotient
ring.

Short elements multiply to short elements: `abs_negacyclic_le` bounds a coefficient of the product
by the sum of the absolute values on one side times the largest on the other.
-/

open Polynomial

/-- The coefficients of the product of `a` and `b` modulo `X ^ n + 1`. -/
def negacyclic {R : Type*} [CommRing R] {n : ℕ} (a b : Fin n → R) : Fin n → R := fun k ↦
  ∑ i, if i ≤ k then a i * b (k - i) else -(a i * b (k - i))

namespace Negacyclic

open AdjoinRoot (root)

variable {R S : Type*} [CommRing R] [CommRing S] {n : ℕ}

theorem map_negacyclic (f : R →+* S) (a b : Fin n → R) (k : Fin n) :
    f (negacyclic a b k) = negacyclic (fun i ↦ f (a i)) (fun i ↦ f (b i)) k := by
  rw [negacyclic, negacyclic, map_sum]
  refine Finset.sum_congr rfl fun i _ ↦ ?_
  split
  · rw [map_mul]
  · rw [map_neg, map_mul]

theorem negacyclic_zero_left (b : Fin n → R) : negacyclic 0 b = 0 := by
  funext k
  simp [negacyclic]

theorem abs_negacyclic_le {a b : Fin n → ℤ} {B : ℤ} (hb : ∀ i, |b i| ≤ B) (k : Fin n) :
    |negacyclic a b k| ≤ (∑ i, |a i|) * B := by
  have hterm : ∀ i, |if i ≤ k then a i * b (k - i) else -(a i * b (k - i))| ≤ |a i| * B := by
    intro i
    have hprod : |a i * b (k - i)| ≤ |a i| * B := by
      rw [abs_mul]
      exact mul_le_mul_of_nonneg_left (hb _) (abs_nonneg _)
    split
    · exact hprod
    · rwa [abs_neg]
  calc |negacyclic a b k|
      ≤ ∑ i, |if i ≤ k then a i * b (k - i) else -(a i * b (k - i))| :=
        Finset.abs_sum_le_sum_abs _ _
    _ ≤ ∑ i, |a i| * B := Finset.sum_le_sum fun i _ ↦ hterm i
    _ = (∑ i, |a i|) * B := (Finset.sum_mul _ _ _).symm

/-! ## The quotient ring -/

/-- The element of the quotient ring with coefficients `a`. -/
noncomputable def toAdjoinRoot (a : Fin n → R) : AdjoinRoot (X ^ n + 1 : R[X]) :=
  ∑ i, AdjoinRoot.of _ (a i) * root _ ^ (i : ℕ)

theorem root_pow_self : (root (X ^ n + 1 : R[X])) ^ n = -1 := by
  have h := AdjoinRoot.eval₂_root (X ^ n + 1 : R[X])
  rw [eval₂_add, eval₂_X_pow, eval₂_one] at h
  exact eq_neg_of_add_eq_zero_left h

/-- Running past the top exponent turns the sign. -/
theorem root_pow_add (i j : Fin n) :
    (root (X ^ n + 1 : R[X])) ^ ((i : ℕ) + (j : ℕ)) =
      if i ≤ i + j then root _ ^ ((i + j : Fin n) : ℕ)
      else -root _ ^ ((i + j : Fin n) : ℕ) := by
  have hi := i.isLt
  have hj := j.isLt
  by_cases hlt : (i : ℕ) + (j : ℕ) < n
  · have hval : ((i + j : Fin n) : ℕ) = i + j := by
      rw [Fin.val_add, Nat.mod_eq_of_lt hlt]
    rw [if_pos, hval]
    rw [Fin.le_def, hval]
    omega
  · have hval : ((i + j : Fin n) : ℕ) = i + j - n := by
      rw [Fin.val_add, Nat.mod_eq_sub_mod (by omega), Nat.mod_eq_of_lt (by omega)]
    rw [if_neg, hval]
    · have hsum : (i : ℕ) + (j : ℕ) = n + (i + j - n) := by omega
      conv_lhs => rw [hsum, pow_add, root_pow_self, neg_one_mul]
    · rw [Fin.le_def, hval]
      omega

/-- `negacyclic` is the product of `R[X] / (X ^ n + 1)`. -/
theorem adjoinRoot_negacyclic (a b : Fin n → R) :
    toAdjoinRoot (negacyclic a b) = toAdjoinRoot a * toAdjoinRoot b := by
  obtain rfl | hn := Nat.eq_zero_or_pos n
  · simp [toAdjoinRoot]
  have : NeZero n := ⟨hn.ne'⟩
  have hterm : ∀ i j : Fin n, AdjoinRoot.of (X ^ n + 1 : R[X]) (a i) * root _ ^ (i : ℕ) *
        (AdjoinRoot.of _ (b j) * root _ ^ (j : ℕ)) =
      AdjoinRoot.of _ (if i ≤ i + j then a i * b (i + j - i) else -(a i * b (i + j - i))) *
        root _ ^ ((i + j : Fin n) : ℕ) := by
    intro i j
    rw [mul_mul_mul_comm, ← pow_add, root_pow_add, add_sub_cancel_left, ← map_mul]
    split <;> simp
  rw [toAdjoinRoot, toAdjoinRoot, toAdjoinRoot, Finset.sum_mul_sum]
  simp_rw [hterm, negacyclic, map_sum, Finset.sum_mul]
  rw [Finset.sum_comm]
  refine Finset.sum_congr rfl fun i _ ↦ ?_
  exact (Equiv.sum_comp (Equiv.addLeft i) fun k ↦
    AdjoinRoot.of (X ^ n + 1 : R[X]) (if i ≤ k then a i * b (k - i) else -(a i * b (k - i))) *
      root _ ^ (k : ℕ)).symm

theorem toAdjoinRoot_add (a b : Fin n → R) :
    toAdjoinRoot (a + b) = toAdjoinRoot a + toAdjoinRoot b := by
  rw [toAdjoinRoot, toAdjoinRoot, toAdjoinRoot, ← Finset.sum_add_distrib]
  refine Finset.sum_congr rfl fun i _ ↦ ?_
  rw [Pi.add_apply, map_add, add_mul]

theorem toAdjoinRoot_sub (a b : Fin n → R) :
    toAdjoinRoot (a - b) = toAdjoinRoot a - toAdjoinRoot b := by
  rw [eq_sub_iff_add_eq, ← toAdjoinRoot_add, sub_add_cancel]

theorem toAdjoinRoot_sum {ι : Type*} (s : Finset ι) (a : ι → Fin n → R) :
    toAdjoinRoot (∑ k ∈ s, a k) = ∑ k ∈ s, toAdjoinRoot (a k) := by
  simp only [toAdjoinRoot, Finset.sum_apply, map_sum, Finset.sum_mul]
  exact Finset.sum_comm

/-- The coefficients of an element of the quotient ring are determined by it. -/
theorem toAdjoinRoot_injective [Nontrivial R] :
    Function.Injective (toAdjoinRoot : (Fin n → R) → AdjoinRoot (X ^ n + 1 : R[X])) := by
  intro a b hab
  obtain rfl | hn := Nat.eq_zero_or_pos n
  · exact Subsingleton.elim a b
  have hmk : ∀ c : Fin n → R, toAdjoinRoot c = AdjoinRoot.mk _ (∑ i, C (c i) * X ^ (i : ℕ)) := by
    intro c
    rw [toAdjoinRoot, map_sum]
    refine Finset.sum_congr rfl fun i _ ↦ ?_
    rw [map_mul, map_pow, AdjoinRoot.mk_C, AdjoinRoot.mk_X]
  have hdiff : (∑ i, C (a i) * X ^ (i : ℕ)) - (∑ i, C (b i) * X ^ (i : ℕ)) =
      ∑ i, C ((a - b) i) * X ^ (i : ℕ) := by
    rw [← Finset.sum_sub_distrib]
    refine Finset.sum_congr rfl fun i _ ↦ ?_
    rw [Pi.sub_apply, C_sub, sub_mul]
  rw [hmk, hmk, AdjoinRoot.mk_eq_mk, hdiff] at hab
  -- a multiple of the modulus of smaller degree is zero, and so are its coefficients
  have hmonic : (X ^ n + C 1 : R[X]).Monic := monic_X_pow_add_C 1 hn.ne'
  have hzero : (∑ i, C ((a - b) i) * X ^ (i : ℕ)) = 0 := by
    by_contra hne
    refine hmonic.not_dvd_of_degree_lt hne ?_ (by rwa [C_1])
    rw [degree_X_pow_add_C hn]
    exact degree_sum_fin_lt (a - b)
  funext k
  have hcoeff := congrArg (fun p ↦ p.coeff (k : ℕ)) hzero
  simp only [finsetSum_coeff, coeff_C_mul, coeff_X_pow, coeff_zero, Fin.val_inj, mul_ite, mul_one,
    mul_zero, Finset.sum_ite_eq, Finset.mem_univ, if_true] at hcoeff
  exact sub_eq_zero.mp hcoeff

end Negacyclic
