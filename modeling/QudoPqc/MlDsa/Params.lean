import QudoPqc.Arith.Decompose
import QudoPqc.Arith.Negacyclic
import Mathlib.Data.ZMod.ValMinAbs
import Mathlib.Data.List.GetD
import Mathlib.Data.List.OfFn

/-!
# ML-DSA parameter sets

The table of `ml_dsa_params.c`, which the engine's `params.h` repeats as compile-time constants,
the types of polynomials and vectors, and what the two implementations are assumed to share: the
extendable-output function SHAKE256 and the samplers ExpandA, ExpandS and SampleInBall, each in
the range the algorithm gives it.
-/

namespace MlDsa

/-- `ML_DSA_Q`. -/
abbrev q : ℕ := 8380417

/-- `ML_DSA_D_BITS`: the bits dropped from `t`. -/
abbrev dBits : ℕ := 13

theorem q_int : (q : ℤ) = 8380417 := rfl

instance : NeZero q := ⟨by decide⟩

instance : Fact (1 < q) := ⟨by decide⟩

/-- `ML_DSA_PARAMS`, without the object identifier and the security category. -/
structure Params where
  alg : String
  tau : ℕ
  bitStrength : ℕ
  gamma1 : ℕ
  gamma2 : ℕ
  k : ℕ
  l : ℕ
  eta : ℕ
  beta : ℕ
  omega : ℕ
  skLen : ℕ
  pkLen : ℕ
  sigLen : ℕ

/-- `ML_DSA_GAMMA1_TWO_POWER_17`. -/
abbrev gamma1TwoPower17 : ℕ := 2 ^ 17

/-- `ML_DSA_GAMMA1_TWO_POWER_19`. -/
abbrev gamma1TwoPower19 : ℕ := 2 ^ 19

/-- `ML_DSA_GAMMA2_Q_MINUS1_DIV32`. -/
abbrev gamma2QMinus1Div32 : ℕ := (q - 1) / 32

/-- `ML_DSA_GAMMA2_Q_MINUS1_DIV88`. -/
abbrev gamma2QMinus1Div88 : ℕ := (q - 1) / 88

/-- The parameter sets. -/
inductive Variant
  | mlDsa44
  | mlDsa65
  | mlDsa87
  deriving DecidableEq, Repr

namespace Variant

/-- `ml_dsa_params`. -/
def params : Variant → Params
  | mlDsa44 =>
    { alg := "ML-DSA-44", tau := 39, bitStrength := 128, gamma1 := gamma1TwoPower17,
      gamma2 := gamma2QMinus1Div88, k := 4, l := 4, eta := 2, beta := 78, omega := 80,
      skLen := 2560, pkLen := 1312, sigLen := 2420 }
  | mlDsa65 =>
    { alg := "ML-DSA-65", tau := 49, bitStrength := 192, gamma1 := gamma1TwoPower19,
      gamma2 := gamma2QMinus1Div32, k := 6, l := 5, eta := 4, beta := 196, omega := 55,
      skLen := 4032, pkLen := 1952, sigLen := 3309 }
  | mlDsa87 =>
    { alg := "ML-DSA-87", tau := 60, bitStrength := 256, gamma1 := gamma1TwoPower19,
      gamma2 := gamma2QMinus1Div32, k := 8, l := 7, eta := 2, beta := 120, omega := 75,
      skLen := 4896, pkLen := 2592, sigLen := 4627 }

variable (v : Variant)

abbrev k : ℕ := v.params.k

abbrev l : ℕ := v.params.l

abbrev eta : ℕ := v.params.eta

abbrev tau : ℕ := v.params.tau

abbrev beta : ℕ := v.params.beta

abbrev omega : ℕ := v.params.omega

abbrev gamma1 : ℕ := v.params.gamma1

abbrev gamma2 : ℕ := v.params.gamma2

/-- `c_tilde_len`: a quarter of the collision strength, in bytes. -/
def cTildeLen : ℕ := v.params.bitStrength >>> 2

/-- `m`: the number of high parts. -/
def m : ℕ := (q - 1) / (2 * v.gamma2)

/-- The intervals of Decompose. -/
def grid : Grid q where
  γ := v.gamma2
  m := v.m
  γ_pos := by cases v <;> decide
  one_lt_m := by cases v <;> decide
  modulus := by cases v <;> decide

theorem beta_eq : v.beta = v.tau * v.eta := by
  cases v <;> rfl

theorem beta_lt_gamma2 : v.beta < v.gamma2 := by
  cases v <;> decide

theorem beta_lt_gamma1 : v.beta < v.gamma1 := by
  cases v <;> decide

theorem gamma1_le : v.gamma1 ≤ 2 ^ 19 := by
  cases v <;> decide

theorem gamma2_le : v.gamma2 ≤ 2 ^ 18 := by
  cases v <;> decide

end Variant

/-! ## Polynomials and vectors -/

/-- `ML_DSA_NUM_POLY_COEFFICIENTS`. -/
def numCoeff : ℕ := 256

/-- The coefficients of a polynomial. -/
abbrev Poly (α : Type) : Type := Fin numCoeff → α

/-- A vector of `n` polynomials. -/
abbrev PolyVec (n : ℕ) (α : Type) : Type := Fin n → Poly α

/-- The polynomial with the coefficients of a list. -/
def Poly.ofList {α : Type} [Zero α] (xs : List α) : Poly α := fun i ↦ xs.getD i 0

@[simp] theorem Poly.ofList_ofFn {α : Type} [Zero α] (p : Poly α) :
    Poly.ofList (List.ofFn p) = p := by
  funext i
  rw [ofList, List.getD_eq_getElem _ _ (by rw [List.length_ofFn]; exact i.isLt), List.getElem_ofFn]

theorem Poly.ofFn_ofList {α : Type} [Zero α] {xs : List α} (h : xs.length = numCoeff) :
    List.ofFn (Poly.ofList xs) = xs := by
  refine List.ext_getElem (by rw [List.length_ofFn, h]) fun i hi hi' ↦ ?_
  rw [List.getElem_ofFn, ofList, List.getD_eq_getElem _ _ hi']

/-- The residues of integer coefficients. -/
def Poly.residue (p : Poly ℤ) : Poly (ZMod q) := fun i ↦ (p i : ZMod q)

/-- The representatives in `[0, q)` of integer coefficients. -/
def Poly.repr (p : Poly ℤ) : Poly ℕ := fun i ↦ (p i : ZMod q).val

/-- The representatives in `[0, q)` of a vector. -/
def PolyVec.repr {n : ℕ} (p : PolyVec n ℤ) : PolyVec n ℕ := fun i ↦ (p i).repr

/-! ## The shared samplers -/

/-- A polynomial with coefficients in `[-eta, eta]`. -/
def ShortPoly (eta : ℕ) : Type := { p : Poly ℤ // ∀ i, |p i| ≤ eta }

/-- A challenge: coefficients `-1`, `0` and `1`, at most `tau` of them nonzero. -/
structure Challenge (tau : ℕ) where
  coeff : Poly ℤ
  abs_le_one : ∀ i, |coeff i| ≤ 1
  weight_le : ∑ i, |coeff i| ≤ tau

/-- SHAKE256 and the samplers, which both implementations are taken to compute alike. SHAKE256
is the infinite output for an input; `expandA` gives the matrix `A` itself. -/
structure Sampling (v : Variant) where
  shake256 : List UInt8 → ℕ → UInt8
  expandA : List UInt8 → Fin v.k → Fin v.l → Poly (ZMod q)
  expandS : List UInt8 → (Fin v.l → ShortPoly v.eta) × (Fin v.k → ShortPoly v.eta)
  sampleInBall : List UInt8 → Challenge v.tau

namespace Sampling

variable {v : Variant} (S : Sampling v)

/-- `shake_xof`: the first `n` bytes of output. -/
def xof (input : List UInt8) (n : ℕ) : List UInt8 := List.ofFn fun i : Fin n ↦ S.shake256 input i

@[simp] theorem length_xof (input : List UInt8) (n : ℕ) : (S.xof input n).length = n :=
  List.length_ofFn

/-- A longer output starts with the shorter one. -/
theorem take_xof (input : List UInt8) {n n' : ℕ} (h : n ≤ n') :
    (S.xof input n').take n = S.xof input n := by
  refine List.ext_getElem (by simp [h]) fun i hi hi' ↦ ?_
  simp [xof]

end Sampling

end MlDsa
