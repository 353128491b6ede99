import QudoPqc.MlDsa.Fips204

/-!
# OpenSSL's vectors

The operations of `ml_dsa_poly.h` and `ml_dsa_vector.h` on representatives in `[0, q)`. Products
are taken through the number-theoretic transform in the source; they are the exact ring products
here (`nttMult`, `matrixMultVector`), as for the engine.

Each operation is compared with the one of FIPS 204 on residues.
-/

namespace MlDsa

/-- The residues of representatives. -/
def Poly.cast (p : Poly ℕ) : Poly (ZMod q) := fun i ↦ (p i : ZMod q)

/-- The representatives of residues. -/
def Poly.val (p : Poly (ZMod q)) : Poly ℕ := fun i ↦ (p i).val

/-- The residues of a vector of representatives. -/
def PolyVec.cast {n : ℕ} (p : PolyVec n ℕ) : PolyVec n (ZMod q) := fun i ↦ (p i).cast

/-- The representatives of a vector of residues. -/
def PolyVec.val {n : ℕ} (p : PolyVec n (ZMod q)) : PolyVec n ℕ := fun i ↦ (p i).val

/-- The residues of an integer vector. -/
def PolyVec.residue {n : ℕ} (p : PolyVec n ℤ) : PolyVec n (ZMod q) := fun i ↦ (p i).residue

@[simp] theorem Poly.cast_val (p : Poly (ZMod q)) : p.val.cast = p :=
  funext fun i ↦ ZMod.natCast_zmod_val (p i)

@[simp] theorem PolyVec.cast_val {n : ℕ} (p : PolyVec n (ZMod q)) : p.val.cast = p :=
  funext fun i ↦ Poly.cast_val (p i)

@[simp] theorem Poly.cast_repr (p : Poly ℤ) : p.repr.cast = p.residue := Poly.cast_val p.residue

@[simp] theorem PolyVec.cast_repr {n : ℕ} (p : PolyVec n ℤ) : p.repr.cast = p.residue :=
  PolyVec.cast_val p.residue

namespace Ossl

variable {n m : ℕ}

/-! ## Operations -/

/-- `poly_add`. -/
def polyAdd (lhs rhs : Poly ℕ) : Poly ℕ := fun i ↦ reduceOnce (lhs i + rhs i)

/-- `poly_sub`. -/
def polySub (lhs rhs : Poly ℕ) : Poly ℕ := fun i ↦ modSub (lhs i) (rhs i)

/-- `vector_add`. -/
def vectorAdd (lhs rhs : PolyVec n ℕ) : PolyVec n ℕ := fun i ↦ polyAdd (lhs i) (rhs i)

/-- `vector_sub`. -/
def vectorSub (lhs rhs : PolyVec n ℕ) : PolyVec n ℕ := fun i ↦ polySub (lhs i) (rhs i)

/-- `ossl_ml_dsa_poly_ntt_mult` between the transforms and the inverse transform. -/
def nttMult (lhs rhs : Poly ℕ) : Poly ℕ := Poly.val (negacyclic lhs.cast rhs.cast)

/-- `vector_mult_scalar`, with the transforms. -/
def vectorMultScalar (lhs : PolyVec n ℕ) (rhs : Poly ℕ) : PolyVec n ℕ := fun i ↦
  nttMult rhs (lhs i)

/-- `matrix_mult_vector`, with the transforms. -/
def matrixMultVector (a : Fin n → PolyVec m (ZMod q)) (s : PolyVec m ℕ) : PolyVec n ℕ := fun i ↦
  (Fips204.dot (a i) s.cast).val

/-- `vector_power2_round`: `t1` and `t0`. -/
def vectorPower2Round (t : PolyVec n ℕ) : PolyVec n ℕ × PolyVec n ℕ :=
  (fun i j ↦ (power2Round (t i j)).1, fun i j ↦ (power2Round (t i j)).2)

/-- `vector_scale_power2_round_ntt`, before the transform. -/
def vectorScalePower2Round (t1 : PolyVec n ℕ) : PolyVec n ℕ := fun i j ↦ t1 i j <<< dBits

/-- `vector_high_bits`. -/
def vectorHighBits (p : PolyVec n ℕ) (gamma2 : ℕ) : PolyVec n ℕ := fun i j ↦
  highBits (p i j) gamma2

/-- `vector_low_bits`; the results are read as signed words. -/
def vectorLowBits (p : PolyVec n ℕ) (gamma2 : ℕ) : PolyVec n ℤ := fun i j ↦ lowBits (p i j) gamma2

/-- `vector_make_hint`. -/
def vectorMakeHint (ct0 cs2 w : PolyVec n ℕ) (gamma2 : ℕ) : PolyVec n ℕ := fun i j ↦
  makeHint (ct0 i j) (cs2 i j) gamma2 (w i j)

/-- `vector_use_hint`. -/
def vectorUseHint (h r : PolyVec n ℕ) (gamma2 : ℕ) : PolyVec n ℕ := fun i j ↦
  useHint (h i j) (r i j) gamma2

/-- The loops of `vector_max` and `vector_max_signed`. -/
def foldMax {α : Type} (abs : α → ℕ) (p : PolyVec n α) : ℕ :=
  (List.finRange n).foldl (fun mx i ↦
    (List.finRange numCoeff).foldl (fun mx j ↦ maximum mx (abs (p i j))) mx) 0

/-- `vector_max`. -/
def vectorMax (p : PolyVec n ℕ) : ℕ := foldMax absModPrime p

/-- `vector_max_signed`. -/
def vectorMaxSigned (p : PolyVec n ℤ) : ℕ := foldMax absSigned p

/-- `vector_count_ones`. -/
def vectorCountOnes (p : PolyVec n ℕ) : ℕ :=
  (List.finRange n).foldl (fun count i ↦
    (List.finRange numCoeff).foldl (fun count j ↦ count + p i j) count) 0

/-! ## On residues -/

theorem polyAdd_val (a b : Poly (ZMod q)) : polyAdd a.val b.val = (a + b).val :=
  funext fun i ↦ reduceOnce_val_add (a i) (b i)

theorem vectorAdd_val (a b : PolyVec n (ZMod q)) : vectorAdd a.val b.val = (a + b).val :=
  funext fun i ↦ polyAdd_val (a i) (b i)

theorem vectorSub_val (a b : PolyVec n (ZMod q)) : vectorSub a.val b.val = (a - b).val :=
  funext fun i ↦ funext fun j ↦ modSub_val (a i j) (b i j)

theorem vectorMultScalar_repr (s : PolyVec n ℤ) (c : Poly ℤ) :
    vectorMultScalar s.repr c.repr =
      PolyVec.val fun i ↦ negacyclic c.residue (s i).residue := by
  funext i
  rw [vectorMultScalar, nttMult, Poly.cast_repr, PolyVec.repr, Poly.cast_repr]
  rfl

theorem matrixMultVector_repr (a : Fin n → PolyVec m (ZMod q)) (s : PolyVec m ℤ) :
    matrixMultVector a s.repr = PolyVec.val fun i ↦ Fips204.dot (a i) s.residue := by
  funext i
  rw [matrixMultVector, PolyVec.cast_repr]
  rfl

theorem vectorPower2Round_val (t : PolyVec n (ZMod q)) :
    vectorPower2Round t.val =
      (PolyVec.repr fun i j ↦ (Fips204.power2Round (t i j)).1,
        PolyVec.repr fun i j ↦ (Fips204.power2Round (t i j)).2) := by
  rw [vectorPower2Round, Prod.mk.injEq]
  constructor <;> funext i j <;> simp only [PolyVec.val, Poly.val, PolyVec.repr, Poly.repr]
  · have hval := (power2Round_val (t i j)).1
    have hlt := (Fips204.power2Round_range (t i j)).1.2
    refine eq_val_of_cast (lt_of_lt_of_le ?_ (by decide : 2 ^ 10 ≤ q)) ?_
    · rw [← hval] at hlt
      exact_mod_cast hlt
    · exact_mod_cast congrArg (Int.cast : ℤ → ZMod q) hval
  · exact (power2Round_val (t i j)).2

theorem foldl_maximum_lt {α : Type} (f : α → ℕ) (xs : List α) (mx B : ℕ) :
    xs.foldl (fun mx x ↦ maximum mx (f x)) mx < B ↔ mx < B ∧ ∀ x ∈ xs, f x < B := by
  induction xs generalizing mx with
  | nil => simp
  | cons x xs ih =>
    rw [List.foldl_cons, ih, List.forall_mem_cons, ← and_assoc]
    refine and_congr_left fun _ ↦ ?_
    rw [maximum]
    split <;> omega

/-- The maximum is below a bound if every coefficient is. -/
theorem foldMax_lt {α : Type} (abs : α → ℕ) (p : PolyVec n α) {B : ℕ} (hB : 0 < B) :
    foldMax abs p < B ↔ ∀ i j, abs (p i j) < B := by
  have hrows : ∀ (is : List (Fin n)) (mx : ℕ),
      is.foldl (fun mx i ↦
        (List.finRange numCoeff).foldl (fun mx j ↦ maximum mx (abs (p i j))) mx) mx < B ↔
        mx < B ∧ ∀ i ∈ is, ∀ j, abs (p i j) < B := by
    intro is
    induction is with
    | nil => simp
    | cons i is ih =>
      intro mx
      rw [List.foldl_cons, ih, foldl_maximum_lt, List.forall_mem_cons, and_assoc]
      simp only [List.mem_finRange, forall_true_left]
  rw [foldMax, hrows]
  simp only [hB, true_and, List.mem_finRange, forall_true_left]

theorem vectorMax_val (p : PolyVec n (ZMod q)) {B : ℕ} (hB : 0 < B) :
    vectorMax p.val < B ↔ ∀ i j, |(p i j).valMinAbs| < B := by
  rw [vectorMax, foldMax_lt _ _ hB]
  refine forall₂_congr fun i j ↦ ?_
  rw [← absModPrime_val, Nat.cast_lt]
  rfl

theorem vectorMaxSigned_lt (p : PolyVec n ℤ) {B : ℕ} (hB : 0 < B) :
    vectorMaxSigned p < B ↔ ∀ i j, |p i j| < B := by
  rw [vectorMaxSigned, foldMax_lt _ _ hB]
  refine forall₂_congr fun i j ↦ ?_
  rw [← absSigned_eq, Nat.cast_lt]

end Ossl

end MlDsa
