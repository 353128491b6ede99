import QudoPqc.Fallible.Loop
import QudoPqc.MlKem.Arith
import QudoPqc.MlKem.Key

/-!
# Noise and the matrix

`cbd_2` and `cbd_3` read two coefficients from one byte and four from three, each coefficient being
the difference of two numbers of ones. With `PRF` they are the noise polynomials of FIPS 203, which
is about groups of bits in the whole output.

The scalars of the matrix come from `sample_scalar`, which looks for candidates below the prime in
the output of SHAKE128. The other modules have SampleNTT as a parameter; here it is that loop.
-/

namespace MlKem

open Codec Fallible Fips203

namespace Ossl

/-! ## Sampling from bytes -/

/-- `bitn`. -/
def bitn (n b : ℕ) : ℕ := (b >>> n) &&& 1

/-- `value`, to which `kPrime` is added if it has underflowed. -/
def cbdValue (plus minus : ℕ) : ℕ :=
  let value := (plus + 2 ^ 16 - minus) % 2 ^ 16
  let mask := (2 ^ 16 - value >>> 15) % 2 ^ 16
  (value + (q &&& mask)) % 2 ^ 16

/-- One round of `cbd_2`. -/
def cbd2Round : Bytes → List ℕ
  | [b] =>
    let b := b.toNat
    [cbdValue (bitn 0 b + bitn 1 b) (bitn 2 b + bitn 3 b),
      cbdValue (bitn 4 b + bitn 5 b) (bitn 6 b + bitn 7 b)]
  | _ => []

/-- One round of `cbd_3`. -/
def cbd3Round : Bytes → List ℕ
  | [b1, b2, b3] =>
    let b1 := b1.toNat
    let b2 := b2.toNat
    let b3 := b3.toNat
    [cbdValue (bitn 0 b1 + bitn 1 b1 + bitn 2 b1) (bitn 3 b1 + bitn 4 b1 + bitn 5 b1),
      cbdValue (bitn 6 b1 + bitn 7 b1 + bitn 0 b2) (bitn 1 b2 + bitn 2 b2 + bitn 3 b2),
      cbdValue (bitn 4 b2 + bitn 5 b2 + bitn 6 b2) (bitn 7 b2 + bitn 0 b3 + bitn 1 b3),
      cbdValue (bitn 2 b3 + bitn 3 b3 + bitn 4 b3) (bitn 5 b3 + bitn 6 b3 + bitn 7 b3)]
  | _ => []

theorem bitn_eq (n b : ℕ) : bitn n b = b / 2 ^ n % 2 := by
  rw [bitn, Nat.shiftRight_eq_div_pow, Nat.and_one_is_mod]

theorem countOnes_two (x : ℕ) : countOnes 2 x = x % 2 + x / 2 % 2 := by
  simp [countOnes, Fin.sum_univ_two, Nat.toNat_testBit]

theorem countOnes_three (x : ℕ) : countOnes 3 x = x % 2 + x / 2 % 2 + x / 4 % 2 := by
  simp [countOnes, Fin.sum_univ_three, Nat.toNat_testBit]

/-- The coefficient that a group of bits stands for. -/
def cbdWord (eta x : ℕ) : ZMod q :=
  (countOnes eta x : ZMod q) - (countOnes eta (x / 2 ^ eta) : ZMod q)

theorem cbdValue_eq {eta x plus minus : ℕ} (hplus : plus = countOnes eta x)
    (hminus : minus = countOnes eta (x / 2 ^ eta)) (hplus_lt : plus < 4) (hminus_lt : minus < 4) :
    cbdValue plus minus = (cbdWord eta x).val := by
  have hall : ∀ a < 4, ∀ b < 4, cbdValue a b = ((a : ZMod q) - (b : ZMod q)).val := by decide
  rw [cbdWord, ← hplus, ← hminus]
  exact hall plus hplus_lt minus hminus_lt

theorem cbd2Round_eq {bs : Bytes} (hlen : bs.length = 1) :
    cbd2Round bs = (unpack 4 2 bs).map fun x ↦ (cbdWord 2 x).val := by
  match bs, hlen with
  | [b], _ =>
    have hb := toNat_lt b
    simp only [cbd2Round, bitn_eq, unpack, split, loadLe, List.map_cons, List.map_nil,
      List.cons.injEq, and_true]
    and_intros <;> refine cbdValue_eq ?_ ?_ (by omega) (by omega) <;> rw [countOnes_two] <;> omega

theorem cbd3Round_eq {bs : Bytes} (hlen : bs.length = 3) :
    cbd3Round bs = (unpack 6 4 bs).map fun x ↦ (cbdWord 3 x).val := by
  match bs, hlen with
  | [b₁, b₂, b₃], _ =>
    have h₁ := toNat_lt b₁
    have h₂ := toNat_lt b₂
    have h₃ := toNat_lt b₃
    simp only [cbd3Round, bitn_eq, unpack, split, loadLe, List.map_cons, List.map_nil,
      List.cons.injEq, and_true]
    and_intros <;> refine cbdValue_eq ?_ ?_ (by omega) (by omega) <;> rw [countOnes_three] <;> omega

theorem samplePolyCbd_eq (eta : ℕ) (bs : Bytes) :
    (samplePolyCbd eta bs).repr =
      Scalar.ofList ((unpack (2 * eta) degree bs).map fun x ↦ (cbdWord eta x).val) := by
  funext j
  have hj : (j : ℕ) < (unpack (2 * eta) degree bs).length := by
    rw [length_unpack]
    exact j.isLt
  rw [Scalar.repr, samplePolyCbd, Scalar.ofList, Scalar.ofList,
    List.getD_eq_getElem _ _ (by rwa [List.length_map]),
    List.getD_eq_getElem _ _ (by rwa [List.length_map]), List.getElem_map, List.getElem_map]
  rfl

/-! ## Noise polynomials -/

section Functions

variable (H : Primitives) (ok : Call → Bool)

/-- `cbd_2`. -/
def cbd2 (input : Bytes) : Option (Scalar ℕ) := do
  guard (ok .prf)
  pure (Scalar.ofList (blocks cbd2Round 1 128 (H.xof input 128)))

/-- `cbd_3`. -/
def cbd3 (input : Bytes) : Option (Scalar ℕ) := do
  guard (ok .prf)
  pure (Scalar.ofList (blocks cbd3Round 3 64 (H.xof input 192)))

/-- `CBD1`. -/
def cbd1 : Variant → Bytes → Option (Scalar ℕ)
  | .mlKem512 => cbd3 H ok
  | _ => cbd2 H ok

variable (cbd : Bytes → Option (Scalar ℕ)) (seed : Bytes)

/-- The loop of `gencbd_vector` and `gencbd_vector_ntt`: each scalar is sampled with the next value
of the counter, and `f` is done to it. -/
def gencbd (f : Scalar ℕ → Scalar ℕ) : (n counter : ℕ) → Option (Vec n ℕ)
  | 0, _ => some Fin.elim0
  | n + 1, counter => do
    let s ← cbd (seed ++ [UInt8.ofNat counter])
    let rest ← gencbd f n (counter + 1)
    pure (Fin.cons (f s) rest)

/-- `gencbd_vector`. -/
def gencbdVector (n counter : ℕ) : Option (Vec n ℕ) := gencbd cbd seed id n counter

/-- `gencbd_vector_ntt`. -/
def gencbdVectorNtt (n counter : ℕ) : Option (Vec n ℕ) := gencbd cbd seed scalarNtt n counter

variable {ok cbd seed}

theorem gencbd_eq {f : Scalar ℕ → Scalar ℕ} {g : ℕ → Scalar ℕ}
    (hcbd : ∀ counter, cbd (seed ++ [UInt8.ofNat counter]) = some (g counter)) (n counter : ℕ) :
    gencbd cbd seed f n counter = some fun i : Fin n ↦ f (g (counter + i)) := by
  induction n generalizing counter with
  | zero => exact congrArg some (funext fun i : Fin 0 ↦ i.elim0)
  | succ n ih =>
    rw [gencbd, hcbd, ih]
    refine congrArg some (funext fun i ↦ ?_)
    refine Fin.cases rfl (fun i ↦ ?_) i
    rw [Fin.cons_succ, Fin.val_succ, Nat.add_assoc, Nat.add_comm 1]

/-- `cbd_2` is SamplePolyCBD with PRF. -/
theorem cbd2_eq (hprf : ok .prf = true) (counter : ℕ) :
    cbd2 H ok (seed ++ [UInt8.ofNat counter]) = some (noise H 2 seed counter).repr := by
  rw [cbd2, hprf, noise, samplePolyCbd_eq,
    blocks_eq_unpack (w := 4) (g := 2) rfl (fun bs ↦ cbd2Round_eq) (H.length_xof _ _)]
  rfl

theorem cbd3_eq (hprf : ok .prf = true) (counter : ℕ) :
    cbd3 H ok (seed ++ [UInt8.ofNat counter]) = some (noise H 3 seed counter).repr := by
  rw [cbd3, hprf, noise, samplePolyCbd_eq,
    blocks_eq_unpack (w := 6) (g := 4) rfl (fun bs ↦ cbd3Round_eq) (H.length_xof _ _)]
  rfl

theorem cbd1_eq (hprf : ok .prf = true) (v : Variant) (counter : ℕ) :
    cbd1 H ok v (seed ++ [UInt8.ofNat counter]) = some (noise H v.eta1 seed counter).repr := by
  cases v with
  | mlKem512 => exact cbd3_eq H hprf counter
  | mlKem768 => exact cbd2_eq H hprf counter
  | mlKem1024 => exact cbd2_eq H hprf counter

/-- A vector of noise polynomials. -/
theorem gencbdVector_eq (hprf : ok .prf = true) (n counter : ℕ) :
    gencbdVector (cbd2 H ok) seed n counter =
      some (Vec.repr fun i ↦ noise H 2 seed (counter + i)) :=
  gencbd_eq (cbd2_eq H hprf) n counter

/-- A vector of noise polynomials, transformed. -/
theorem gencbdVectorNtt_eq (hprf : ok .prf = true) (v : Variant) (n counter : ℕ) :
    gencbdVectorNtt (cbd1 H ok v) seed n counter =
      some (Vec.repr fun i ↦ ntt (noise H v.eta1 seed (counter + i))) := by
  rw [gencbdVectorNtt, gencbd_eq (cbd1_eq H hprf v)]
  exact congrArg some (funext fun i ↦ scalarNtt_repr _)

end Functions

/-! ## The matrix -/

section Matrix

variable (left : ℕ) (stream : ℕ → UInt8)

/-- The candidates in three bytes of a block. -/
def candidates (i j : ℕ) : List ℕ :=
  let b (k : ℕ) := (stream (168 * i + 3 * j + k)).toNat
  [(b 1 &&& 0x0f) <<< 8 + b 0, b 2 <<< 4 + b 1 >>> 4]

/-- `sample_scalar` on an output of SHAKE128, with no result after `left` blocks. -/
def sampleScalar : Option (Scalar ℕ) :=
  (fill (fun d ↦ if d < q then some d else none) degree
    (fun i ↦ (List.range 56).flatMap (candidates stream i)) left 0 []).map Scalar.ofList

variable {left stream} {p : Scalar ℕ}

theorem sampleScalar_lt (h : sampleScalar left stream = some p) (i : Fin degree) : p i < q := by
  obtain ⟨out, hfill, rfl⟩ := Option.map_eq_some_iff.mp h
  obtain ⟨d, hd⟩ := exists_of_fill hfill i.isLt 0
  obtain ⟨hlt, heq⟩ := Option.ite_none_right_eq_some.mp hd
  rwa [Option.some.inj heq] at hlt

/-- SampleNTT as `sample_scalar` computes it, with zero where that has no result. -/
def sampling (H : Primitives) (left : ℕ) (shake128 : Bytes → ℕ → UInt8) : Primitives :=
  { H with sampleNtt := fun seed i ↦ ((sampleScalar left (shake128 seed)).getD 0 i : ZMod q) }

/-- Then `matrix_expand` is made of the results of `sample_scalar`. -/
theorem matrixExpand_sampling {H : Primitives} {shake128 : Bytes → ℕ → UInt8} {n : ℕ} {rho : Bytes}
    {m : Matrix n ℕ} (h : ∀ i j : Fin n, sampleScalar left
      (shake128 (rho ++ [UInt8.ofNat i, UInt8.ofNat j])) = some (m i j)) :
    matrixExpand (sampling H left shake128) n rho = m := by
  funext i j
  simp only [matrixExpand, sampling, h, Option.getD_some]
  exact funext fun k ↦ ZMod.val_cast_of_lt (sampleScalar_lt (h i j) k)

end Matrix

end Ossl

end MlKem
