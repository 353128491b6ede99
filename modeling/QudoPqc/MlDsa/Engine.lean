import QudoPqc.Codec.FileReader
import QudoPqc.Codec.Table
import QudoPqc.Fallible.Loop
import QudoPqc.MlDsa.Hints
import QudoPqc.MlDsa.NativeCodec
import QudoPqc.MlDsa.Ring

/-!
# The engine's signing and verification

`mld_sign_signature_internal` and `mld_sign_verify_internal` of `sign.c`, in the configuration that
is built: whole vectors in memory, and as many attempts as the 16-bit nonce allows. An attempt works
in the signature buffer. It packs `w1` at its start to hash it, writes each row of `z` when the row
has passed its norm check, and overwrites `w1` with the challenge bytes when all checks have passed;
a rejected attempt leaves the buffer as it is at that point.

Products are taken through the number-theoretic transform in the source. They are parameters here:
some representatives, below `q` in absolute value, of the exact products in the ring (`Products`).

## Main results

* `attempt_eq_some` : an attempt succeeds if and only if the round passes in FIPS 204, and then
leaves its signature in the buffer, whatever was there before.
* `signVerifyInternal_iff` : verification accepts what FIPS 204 accepts.
-/

namespace MlDsa

open Codec Fallible Fallible.Act Fips204

namespace Variant

variable (v : Variant)

/-- `MLDSA_POLYZ_PACKEDBYTES`. -/
def polyzBytes : ℕ := 32 * v.zBits

/-- `MLDSA_POLYW1_PACKEDBYTES`. -/
def polyw1Bytes : ℕ := 32 * v.w1Bits

/-- `MLDSA_POLYETA_PACKEDBYTES`. -/
def polyetaBytes : ℕ := 32 * v.etaBits

/-- `MLDSA_SIG_H_OFFSET`; `MLDSA_SIG_Z_OFFSET` is the length of the challenge. -/
def sigHOffset : ℕ := v.cTildeLen + v.l * v.polyzBytes

/-- `MLDSA_SK_S2_OFFSET`; `MLDSA_SK_S1_OFFSET` is 128. -/
def skS2Offset : ℕ := 128 + v.l * v.polyetaBytes

/-- `MLDSA_SK_T0_OFFSET`. -/
def skT0Offset : ℕ := v.skS2Offset + v.k * v.polyetaBytes

/-- `MLD_NONCE_UB`, which is the number of attempts. -/
def nonceUb : ℕ := (2 ^ 16 - 1 - v.l) / v.l

theorem sigHOffset_add : v.sigHOffset + (v.omega + v.k) = v.params.sigLen := by
  cases v <;> rfl

theorem w1_le_sigLen : v.k * v.polyw1Bytes ≤ v.params.sigLen := by
  cases v <;> decide

/-- No nonce of an attempt is cut off. -/
theorem nonce_lt {nonce i : ℕ} (hnonce : nonce < v.nonceUb) (hi : i < v.l) :
    v.l * nonce + i < 2 ^ 16 := by
  have hub : v.l * v.nonceUb ≤ 2 ^ 16 - 1 - v.l := Nat.mul_div_le _ _
  have hle : v.l * nonce + v.l ≤ v.l * v.nonceUb := by
    rw [← Nat.mul_succ]
    exact Nat.mul_le_mul_left _ hnonce
  omega

end Variant

namespace Native

variable {v : Variant}

/-- What the engine's products leave. Each is some representative of the exact product, below
`MLD_INTT_BOUND` in absolute value. -/
structure Products (v : Variant) where
  /-- The product of two polynomials, between `mld_poly_ntt` and `mld_poly_invntt_tomont`. -/
  product : Poly ℤ → Poly ℤ → Poly ℤ
  /-- A row of `mld_polyvec_matrix_pointwise_montgomery_yvec`. -/
  row : PolyVec v.l (ZMod q) → PolyVec v.l ℤ → Poly ℤ
  /-- A row of the matrix times `z` minus a product, as in `mld_sign_verify_internal`. -/
  rowSub : PolyVec v.l (ZMod q) → PolyVec v.l ℤ → Poly ℤ → Poly ℤ → Poly ℤ
  abs_product_lt : ∀ a b j, |product a b j| < q
  product_residue : ∀ a b, (product a b).residue = negacyclic a.residue b.residue
  abs_row_lt : ∀ a y j, |row a y j| < q
  row_residue : ∀ a y, (row a y).residue = dot a y.residue
  abs_rowSub_lt : ∀ a z c t j, |rowSub a z c t j| < q
  rowSub_residue : ∀ a z c t,
    (rowSub a z c t).residue = dot a z.residue - negacyclic c.residue t.residue

variable (S : Sampling v) (P : Products v)

/-! ## The functions -/

/-- `mld_poly_reduce`. -/
def polyReduce (a : Poly ℤ) : Poly ℤ := fun j ↦ reduce32 (a j)

/-- `mld_poly_chknorm`: whether some coefficient reaches the bound. -/
def polyChknorm (a : Poly ℤ) (B : ℤ) : Bool :=
  (List.finRange numCoeff).any fun j ↦ decide (B - 1 - |a j| < 0)

/-- `mld_poly_uniform_gamma1`: five blocks of output. -/
def polyUniformGamma1 (seed : Bytes) (nonce : ℕ) : Poly ℤ :=
  let extseed := seed ++ [UInt8.ofNat nonce, UInt8.ofNat (nonce >>> 8)]
  polyzUnpack v (S.xof extseed (5 * 136))

/-- `mld_polyvecl_uniform_gamma1`, with its 16-bit nonces. -/
def polyveclUniformGamma1 (seed : Bytes) (nonce : ℕ) : PolyVec v.l ℤ := fun i ↦
  polyUniformGamma1 S seed ((v.l * nonce % 2 ^ 16 + i) % 2 ^ 16)

/-- `mld_polyveck_pack_w1`. -/
def polyveckPackW1 (w1 : PolyVec v.k ℤ) : Bytes := encodeVec (polyw1Pack v) w1

/-- `mld_compute_pack_z`, in the signature buffer. -/
def computePackZ (cp : Poly ℤ) (s1 y : PolyVec v.l ℤ) : Act Bytes Unit :=
  forRange fun i ↦ do
    require (!polyChknorm (polyReduce (P.product cp (s1 i) + y i)) (v.gamma1 - v.beta))
    update fun sig ↦ overwrite sig (v.cTildeLen + i * v.polyzBytes)
      (polyzPack v (polyReduce (P.product cp (s1 i) + y i)))

/-- The loop body of `mld_attempt_signature_generation` for one row of `w0`. -/
def w0Row (cp s2 t0 w0 : Poly ℤ) : Option (Poly ℤ) :=
  let r := polyReduce (w0 - P.product cp s2)
  if polyChknorm r (v.gamma2 - v.beta) then none
  else
    let t := polyReduce (P.product cp t0)
    if polyChknorm t v.gamma2 then none else some (r + t)

/-- `mld_pack_sig_h`. What it has written when it fails is not recorded: nothing reads it. -/
def packSigH (w0 w1 : PolyVec v.k ℤ) : Act Bytes Unit := do
  let h ← ofOption (packHint v.omega fun k j ↦ makeHint v (w0 k j) (w1 k j))
  update fun sig ↦ overwrite sig v.sigHOffset h

/-- What `mld_unpack_sk` reads from a private key. -/
structure UnpackedSk (v : Variant) where
  rho : Bytes
  key : Bytes
  tr : Bytes
  s1 : PolyVec v.l ℤ
  s2 : PolyVec v.k ℤ
  t0 : PolyVec v.k ℤ

/-- `mld_unpack_sk`. -/
def unpackSk (v : Variant) (sk : Bytes) : UnpackedSk v where
  rho := part sk 0 32
  key := part sk 32 32
  tr := part sk 64 64
  s1 := fun i ↦ polyetaUnpack v (sk.drop (128 + i * v.polyetaBytes))
  s2 := fun i ↦ polyetaUnpack v (sk.drop (v.skS2Offset + i * v.polyetaBytes))
  t0 := fun i ↦ polyt0Unpack (sk.drop (v.skT0Offset + i * 416))

/-- `mld_attempt_signature_generation`, in the signature buffer. -/
def attemptSignatureGeneration (mu rhoprime : Bytes) (sk : UnpackedSk v) (nonce : ℕ) :
    Act Bytes Unit := do
  let y := polyveclUniformGamma1 S rhoprime nonce
  let w : PolyVec v.k (ℤ × ℤ) := fun i j ↦ decompose v (caddq (P.row (S.expandA sk.rho i) y j))
  let w1 : PolyVec v.k ℤ := fun i j ↦ (w i j).1
  update fun sig ↦ overwrite sig 0 (polyveckPackW1 w1)
  let sig ← fetch
  let challengeBytes := S.xof (mu ++ part sig 0 (v.k * v.polyw1Bytes)) v.cTildeLen
  let cp := (S.sampleInBall challengeBytes).coeff
  computePackZ P cp sk.s1 y
  let w0 ← ofOption (forRows fun k ↦ w0Row P cp (sk.s2 k) (sk.t0 k) fun j ↦ (w k j).2)
  update fun sig ↦ overwrite sig 0 challengeBytes
  packSigH w0 w1

/-- `mu` of both functions; the prefix comes before the message. -/
def messageMu (tr pre m : Bytes) (externalmu : Bool) : Bytes :=
  if externalmu then m.take 64 else S.xof (tr ++ (pre ++ m)) 64

/-- `mld_sign_signature_internal`: the length of the signature, and the buffer, which is cleared
after a failure. -/
def signSignatureInternal (m pre rnd sk : Bytes) (externalmu : Bool) :
    Act Bytes ℕ :=
  onFailure (do
    let sk := unpackSk v sk
    let mu := messageMu S sk.tr pre m externalmu
    let rhoprime := S.xof (sk.key ++ (rnd.take 32 ++ mu)) 64
    retry (attemptSignatureGeneration S P mu rhoprime sk) v.nonceUb 0
    pure v.params.sigLen) fun _ ↦ List.replicate v.params.sigLen 0

/-- The loop body of `mld_sign_verify_internal` for one row: the packed `w1`. -/
def w1Row (sig pk : Bytes) (z : PolyVec v.l ℤ) (cp : Poly ℤ) (i : Fin v.k) :
    Option Bytes :=
  let t1 : Poly ℤ := fun j ↦ polyt1Unpack (pk.drop (32 + i * 320)) j * 2 ^ dBits
  let w1 : Poly ℤ := fun j ↦ caddq (P.rowSub (S.expandA (part pk 0 32) i) z cp t1 j)
  (sigUnpackHints v.omega v.k (sig.drop v.sigHOffset) i).map fun h ↦
    polyw1Pack v fun j ↦ useHint v (w1 j) (h j)

/-- `mld_sign_verify_internal`: whether it returns 0. -/
def signVerifyInternal (sig m pre pk : Bytes) (externalmu : Bool) : Bool :=
  if sig.length ≠ v.params.sigLen then false
  else
    let c := part sig 0 v.cTildeLen
    let z : PolyVec v.l ℤ := fun i ↦ polyzUnpack v (sig.drop (v.cTildeLen + i * v.polyzBytes))
    if (List.finRange v.l).any fun i ↦ polyChknorm (z i) (v.gamma1 - v.beta) then false
    else
      let mu := messageMu S (S.xof pk 64) pre m externalmu
      let cp := (S.sampleInBall c).coeff
      match forRows fun i ↦ w1Row S P sig pk z cp i with
      | none => false
      | some buf => c == S.xof (mu ++ (List.ofFn buf).flatten) v.cTildeLen

/-! ## Values -/

theorem polyChknorm_eq_false {a : Poly ℤ} {B : ℤ} :
    polyChknorm a B = false ↔ ∀ j, |a j| < B := by
  rw [polyChknorm, List.any_eq_false]
  simp only [List.mem_finRange, forall_true_left, decide_eq_true_iff, not_lt]
  exact forall_congr' fun j ↦ by omega

/-- A norm check after `mld_poly_reduce` is one of the residues. -/
theorem polyChknorm_polyReduce {a : Poly ℤ} {B : ℤ} (hB : B ≤ 2 ^ 20) (ha : ∀ j, |a j| ≤ 3 * q) :
    polyChknorm (polyReduce a) B = false ↔ ∀ j, |(a.residue j).valMinAbs| < B := by
  rw [polyChknorm_eq_false]
  exact forall_congr' fun j ↦ abs_reduce32_lt_iff hB (ha j)

/-- What passes is the representative closest to zero. -/
theorem polyReduce_eq {a : Poly ℤ} {B : ℤ} (hB : B ≤ 2 ^ 20)
    (h : polyChknorm (polyReduce a) B = false) :
    polyReduce a = fun j ↦ (a.residue j).valMinAbs := by
  funext j
  have hj : |reduce32 (a j)| < B := polyChknorm_eq_false.mp h j
  rw [Poly.residue, ← reduce32_cast, valMinAbs_intCast (hj.le.trans hB), polyReduce]

section Sampled

variable {S}

theorem polyUniformGamma1_eq (seed : Bytes) (nonce : ℕ) :
    polyUniformGamma1 S seed nonce = bitUnpack v.gamma1 v.zBits
      (S.xof (seed ++ storeLe 2 nonce) (32 * v.zBits)) := by
  have hseed : [UInt8.ofNat nonce, UInt8.ofNat (nonce >>> 8)] = storeLe 2 nonce := by
    rw [Nat.shiftRight_eq_div_pow]
    rfl
  have hroom : (2 : ℤ) ^ v.zBits = 2 * v.gamma1 := by cases v <;> rfl
  have hblocks : 32 * v.zBits ≤ 5 * 136 := by cases v <;> decide
  obtain ⟨hrange, hpack⟩ := bitPack_bitUnpack v.gamma1
    (S.length_xof (seed ++ storeLe 2 nonce) (32 * v.zBits))
  rw [polyUniformGamma1, hseed]
  refine polyzUnpack_eq (fun j ↦ ?_) ?_
  · have hj := hrange j
    rw [hroom] at hj
    omega
  · rw [S.take_xof _ hblocks, hpack]

/-- The masks of an attempt are those of ExpandMask. -/
theorem polyveclUniformGamma1_eq (seed : Bytes) {nonce : ℕ} (hnonce : nonce < v.nonceUb) :
    polyveclUniformGamma1 S seed nonce = expandMask S seed (v.l * nonce) := by
  funext i
  have hlt := v.nonce_lt hnonce i.isLt
  rw [polyveclUniformGamma1, polyUniformGamma1_eq,
    Nat.mod_eq_of_lt (by omega : v.l * nonce < 2 ^ 16), Nat.mod_eq_of_lt hlt]
  rfl

theorem abs_expandMask_le (S : Sampling v) (rhoprime : Bytes) (kappa : ℕ) (i : Fin v.l)
    (j : Fin numCoeff) : |expandMask S rhoprime kappa i j| ≤ 2 ^ 19 := by
  have hroom : (2 : ℤ) ^ v.zBits = 2 * v.gamma1 := by cases v <;> rfl
  have hgamma : (v.gamma1 : ℤ) ≤ 2 ^ 19 := by exact_mod_cast v.gamma1_le
  have hj := (bitPack_bitUnpack v.gamma1
    (S.length_xof (rhoprime ++ storeLe 2 (kappa + i)) (32 * v.zBits))).1 j
  rw [hroom] at hj
  rw [expandMask, abs_le]
  omega

end Sampled

theorem polyveckPackW1_eq {w1 : PolyVec v.k ℤ} (h : ∀ i j, 0 ≤ w1 i j ∧ w1 i j < v.m) :
    polyveckPackW1 w1 = w1Encode w1 := by
  have hrows : (fun i ↦ polyw1Pack v (w1 i)) =
      fun i ↦ simpleBitPack v.w1Bits (w1 i) := funext fun i ↦ polyw1Pack_eq (h i)
  rw [polyveckPackW1, encodeVec, hrows]
  rfl

theorem length_w1Encode (w1 : PolyVec v.k ℤ) :
    (w1Encode w1).length = v.k * v.polyw1Bytes :=
  length_encodeVec (length_simpleBitPack _) w1

section Products

variable {P}

/-- A row of `A y` is split as in FIPS 204. -/
theorem decompose_row (a : PolyVec v.l (ZMod q)) (y : PolyVec v.l ℤ) (j : Fin numCoeff) :
    decompose v (caddq (P.row a y j)) = (highBits v (dot a y.residue j),
      lowBits v (dot a y.residue j)) := by
  have hcast : (P.row a y j : ZMod q) = dot a y.residue j := congrFun (P.row_residue a y) j
  rw [caddq_eq_val (P.abs_row_lt a y j), hcast, decompose_eq]

/-- `z` in the ring. -/
theorem product_add_residue (c s y : Poly ℤ) :
    Poly.residue (P.product c s + y) = y.residue + negacyclic c.residue s.residue := by
  rw [← P.product_residue]
  funext j
  change ((P.product c s j + y j : ℤ) : ZMod q) = (y j : ZMod q) + (P.product c s j : ZMod q)
  rw [Int.cast_add, add_comm]

theorem abs_product_add_le {y : Poly ℤ} (hy : ∀ j, |y j| ≤ 2 ^ 19) (c s : Poly ℤ)
    (j : Fin numCoeff) : |(P.product c s + y) j| ≤ 3 * q := by
  have hsum : |P.product c s j + y j| ≤ |P.product c s j| + |y j| := abs_add_le _ _
  have hprod := P.abs_product_lt c s j
  have hyj := hy j
  have hq : (q : ℤ) = 8380417 := q_int
  change |P.product c s j + y j| ≤ 3 * q
  omega

/-- The product with a short polynomial is congruent to one below `beta`. -/
theorem abs_negacyclic_short {c : Challenge v.tau} {s : Poly ℤ} (hs : ∀ j, |s j| ≤ v.eta)
    (j : Fin numCoeff) : |negacyclic c.coeff s j| ≤ v.beta := by
  have hbeta : (v.beta : ℤ) = v.tau * v.eta := by exact_mod_cast v.beta_eq
  calc |negacyclic c.coeff s j|
      ≤ (∑ i, |c.coeff i|) * v.eta := Negacyclic.abs_negacyclic_le hs j
    _ ≤ v.tau * v.eta := mul_le_mul_of_nonneg_right c.weight_le (Int.natCast_nonneg _)
    _ = v.beta := hbeta.symm

theorem residue_negacyclic (a b : Poly ℤ) :
    Poly.residue (negacyclic a b) = negacyclic a.residue b.residue :=
  funext fun j ↦ Negacyclic.map_negacyclic (Int.castRingHom (ZMod q)) a b j

end Products

/-! ## One attempt -/

section Attempt

variable {S P}

variable {c : Challenge v.tau} {sig : Bytes} {s2 : Poly ℤ}

/-- The rows of `z` are written when all have passed. -/
theorem yields_computePackZ {c : Poly ℤ} {s1 y : PolyVec v.l ℤ} (hy : ∀ i j, |y i j| ≤ 2 ^ 19)
    (hsig : sig.length = v.params.sigLen) :
    Yields (computePackZ P c s1 y) sig
      (∀ i j, |(((y i).residue + negacyclic c.residue (s1 i).residue) j).valMinAbs| <
        (v.gamma1 : ℤ) - v.beta) ()
      (overwrite sig v.cTildeLen (encodeVec (bitPack v.gamma1 v.zBits)
        fun i j ↦ (((y i).residue + negacyclic c.residue (s1 i).residue) j).valMinAbs)) := by
  intro u sig'
  have hgamma : (v.gamma1 : ℤ) ≤ 2 ^ 19 := by exact_mod_cast v.gamma1_le
  have hB : (v.gamma1 : ℤ) - v.beta ≤ 2 ^ 20 := by omega
  have hrow := fun i ↦ polyChknorm_polyReduce hB (abs_product_add_le (P := P) (hy i) c (s1 i))
  simp only [product_add_residue] at hrow
  rw [computePackZ, forRange_eq_some]
  simp only [Bool.not_eq_true', hrow]
  refine and_congr_right fun hnorm ↦ ?_
  have hrows : ∀ i, polyzPack v (polyReduce (P.product c (s1 i) + y i)) =
      bitPack v.gamma1 v.zBits fun j ↦
        (((y i).residue + negacyclic c.residue (s1 i).residue) j).valMinAbs := by
    intro i
    rw [polyReduce_eq hB ((hrow i).mpr (hnorm i)), product_add_residue]
    refine polyzPack_eq fun j ↦ ?_
    have hj := abs_lt.mp (hnorm i j)
    omega
  have hend : v.cTildeLen + v.l * v.polyzBytes ≤ sig.length := by
    have := v.sigHOffset_add
    rw [hsig, ← this, Variant.sigHOffset]
    omega
  have hlen : ∀ p : Poly ℤ, (bitPack v.gamma1 v.zBits p).length = v.polyzBytes :=
    length_bitPack _ _
  simp only [hrows]
  rw [foldl_overwrite (fun i ↦ hlen _) hend]
  exact (and_iff_right trivial).symm

/-- The representative of `c s2` that the low part is compared with. -/
theorem product_short (s2 : Poly ℤ) (j : Fin numCoeff) :
    (P.product c.coeff s2 j : ZMod q) = (negacyclic c.coeff s2 j : ℤ) ∧
      ((negacyclic c.coeff s2 j : ℤ) : ZMod q) = negacyclic c.coeff.residue s2.residue j := by
  have hshort := congrFun (residue_negacyclic c.coeff s2) j
  exact ⟨(congrFun (P.product_residue c.coeff s2) j).trans hshort.symm, hshort⟩

/-- The test of the low part, for one row. -/
theorem polyChknorm_low (hs2 : ∀ j, |s2 j| ≤ v.eta)
    (w : Poly (ZMod q)) :
    polyChknorm (polyReduce ((fun j ↦ lowBits v (w j)) - P.product c.coeff s2))
        (v.gamma2 - v.beta) = false ↔
      ∀ j, |lowBits v (w j - negacyclic c.coeff.residue s2.residue j)| <
        (v.gamma2 : ℤ) - v.beta := by
  rw [polyChknorm_eq_false]
  refine forall_congr' fun j ↦ ?_
  obtain ⟨hprod, hshort⟩ := product_short (P := P) (c := c) s2 j
  rw [← hshort]
  exact low_test_iff v (w j) (abs_negacyclic_short hs2 j) (P.abs_product_lt _ _ j) hprod

/-- A row that passes is the low part of `w - c s2`. -/
theorem low_row (hs2 : ∀ j, |s2 j| ≤ v.eta)
    {w : Poly (ZMod q)}
    (h : polyChknorm (polyReduce ((fun j ↦ lowBits v (w j)) - P.product c.coeff s2))
      (v.gamma2 - v.beta) = false) (j : Fin numCoeff) :
    polyReduce ((fun j ↦ lowBits v (w j)) - P.product c.coeff s2) j =
      lowBits v (w j - negacyclic c.coeff.residue s2.residue j) := by
  obtain ⟨hprod, hshort⟩ := product_short (P := P) (c := c) s2 j
  rw [← hshort]
  exact (low_test_eq v (w j) (abs_negacyclic_short hs2 j) (P.abs_product_lt _ _ j) hprod
    (polyChknorm_eq_false.mp h j)).1

/-- Where the test passes, subtracting `c s2` does not change the high part. -/
theorem highBits_sub_short (hs2 : ∀ j, |s2 j| ≤ v.eta)
    {w : Poly (ZMod q)} {j : Fin numCoeff}
    (h : |lowBits v (w j - negacyclic c.coeff.residue s2.residue j)| <
      (v.gamma2 : ℤ) - v.beta) :
    highBits v (w j) =
      highBits v (w j - negacyclic c.coeff.residue s2.residue j) := by
  have hshort := congrFun (residue_negacyclic c.coeff s2) j
  have hle := abs_negacyclic_short (c := c) hs2 j
  have hlt : |negacyclic c.coeff s2 j| < q := by
    have hbeta : (v.beta : ℤ) < q := by cases v <;> decide
    omega
  rw [← hshort] at h ⊢
  exact (low_test_eq v (w j) hle hlt rfl ((low_test_iff v (w j) hle hlt rfl).mpr h)).2

/-- A row passes as in FIPS 204, and is then the low part of `w - c s2` plus `c t0`. -/
theorem w0Row_eq_some {t0 : Poly ℤ} (hs2 : ∀ j, |s2 j| ≤ v.eta)
    (w : Poly (ZMod q)) {r : Poly ℤ} :
    w0Row P c.coeff s2 t0 (fun j ↦ lowBits v (w j)) = some r ↔
      ((∀ j, |lowBits v (w j - negacyclic c.coeff.residue s2.residue j)| <
        (v.gamma2 : ℤ) - v.beta) ∧
      (∀ j, |(negacyclic c.coeff.residue t0.residue j).valMinAbs| < v.gamma2)) ∧
      (fun j ↦ lowBits v (w j - negacyclic c.coeff.residue s2.residue j) +
        (negacyclic c.coeff.residue t0.residue j).valMinAbs) = r := by
  have hB : (v.gamma2 : ℤ) ≤ 2 ^ 20 := by
    have hgamma : (v.gamma2 : ℤ) ≤ 2 ^ 18 := by exact_mod_cast v.gamma2_le
    omega
  have hprod : ∀ j, |P.product c.coeff t0 j| ≤ 3 * q := fun j ↦ by
    have hlt := P.abs_product_lt c.coeff t0 j
    omega
  have hct0 := polyChknorm_polyReduce hB hprod
  rw [P.product_residue] at hct0
  rw [w0Row, ← polyChknorm_low (P := P) hs2 w, ← hct0]
  simp only [Option.ite_none_left_eq_some, Bool.not_eq_true, Option.some.injEq]
  rw [← and_assoc]
  refine and_congr_right fun ⟨hlow, ht⟩ ↦ ?_
  have hsum : polyReduce ((fun j ↦ lowBits v (w j)) - P.product c.coeff s2) +
      polyReduce (P.product c.coeff t0) = fun j ↦
        lowBits v (w j - negacyclic c.coeff.residue s2.residue j) +
          (negacyclic c.coeff.residue t0.residue j).valMinAbs := by
    funext j
    rw [Pi.add_apply, low_row hs2 hlow j, polyReduce_eq hB ht, P.product_residue]
  rw [hsum]

/-- What is read from the encoding of a private key. -/
def UnpackedSk.ofSecret (sk : SecretKey v) : UnpackedSk v :=
  ⟨sk.rho, sk.K, sk.tr, sk.s1, sk.s2, sk.t0⟩

/-- Three fields that fill a buffer, when the first is written after the second. -/
theorem overwrite_fields {c z h : Bytes}
    (hsig : sig.length = c.length + (z.length + h.length)) :
    overwrite (overwrite (overwrite sig c.length z) 0 c) (c.length + z.length) h =
      c ++ (z ++ h) := by
  have hfirst : (sig.take c.length).length = c.length := List.length_take_of_le (by omega)
  have hsecond : (c ++ z).length = c.length + z.length := List.length_append
  have hz : overwrite (overwrite sig c.length z) 0 c =
      (c ++ z) ++ sig.drop (c.length + z.length) := by
    rw [overwrite, overwrite, List.take_zero, List.nil_append, Nat.zero_add,
      List.drop_left' hfirst, List.append_assoc]
  have hend : (sig.drop (c.length + z.length)).drop h.length = [] :=
    List.drop_eq_nil_of_le (by rw [List.length_drop]; omega)
  rw [hz, overwrite, List.take_left' hsecond, ← List.drop_drop, List.drop_left' hsecond, hend,
    List.append_nil, List.append_assoc]

/-- What the buffer holds when `z`, the challenge and the hint have been written. -/
theorem overwrite_signature {c : Bytes} {z : PolyVec v.l ℤ} {h : PolyVec v.k Bool}
    (hsig : sig.length = v.params.sigLen) (hc : c.length = v.cTildeLen)
    (hones : ones h ≤ v.omega) :
    overwrite (overwrite (overwrite sig v.cTildeLen
        (encodeVec (bitPack v.gamma1 v.zBits) z)) 0 c) v.sigHOffset
        (hintBitPack v.omega h) = sigEncode c z h := by
  have hz : (encodeVec (bitPack v.gamma1 v.zBits) z).length =
      v.l * v.polyzBytes := length_encodeVec (length_bitPack _ _) z
  have hoffset := v.sigHOffset_add
  rw [Variant.sigHOffset] at hoffset ⊢
  rw [← hc, ← hz]
  refine overwrite_fields ?_
  rw [hsig, hc, hz, length_hintBitPack hones]
  omega

variable (sk : SecretKey v) (mu rhoprime : Bytes)

/-- The rows of an attempt pass as in FIPS 204. -/
theorem forRows_w0Row {kappa : ℕ} {w0 : PolyVec v.k ℤ} :
    (forRows fun k ↦ w0Row P (challenge S sk mu rhoprime kappa).coeff (sk.s2 k) (sk.t0 k)
        fun j ↦ lowBits v (commitment S sk rhoprime kappa k j)) = some w0 ↔
      (∀ i j, |lowBits v (remainder S sk mu rhoprime kappa i j)| <
        (v.gamma2 : ℤ) - v.beta) ∧
      (∀ i j, |(scaled S sk mu rhoprime kappa sk.t0 i j).valMinAbs| < v.gamma2) ∧
      (fun i j ↦ lowBits v (remainder S sk mu rhoprime kappa i j) +
        (scaled S sk mu rhoprime kappa sk.t0 i j).valMinAbs) = w0 := by
  have hrow : ∀ i, w0Row P (challenge S sk mu rhoprime kappa).coeff (sk.s2 i) (sk.t0 i)
      (fun j ↦ lowBits v (commitment S sk rhoprime kappa i j)) = some (w0 i) ↔ _ :=
    fun i ↦ w0Row_eq_some (sk.s2_short i) (commitment S sk rhoprime kappa i)
  rw [forRows_eq_some]
  constructor
  · intro h
    exact ⟨fun i ↦ ((hrow i).mp (h i)).1.1, fun i ↦ ((hrow i).mp (h i)).1.2,
      funext fun i ↦ ((hrow i).mp (h i)).2⟩
  · rintro ⟨hlow, hct0, hw0⟩ i
    exact (hrow i).mpr ⟨⟨hlow i, hct0 i⟩, congrFun hw0 i⟩

/-- The hint bits of an attempt whose rows have passed. -/
theorem makeHint_rows {kappa : ℕ}
    (hlow : ∀ i j, |lowBits v (remainder S sk mu rhoprime kappa i j)| <
      (v.gamma2 : ℤ) - v.beta)
    (hct0 : ∀ i j, |(scaled S sk mu rhoprime kappa sk.t0 i j).valMinAbs| < v.gamma2) :
    (fun i j ↦ makeHint v (lowBits v (remainder S sk mu rhoprime kappa i j) +
        (scaled S sk mu rhoprime kappa sk.t0 i j).valMinAbs)
        (highBits v (commitment S sk rhoprime kappa i j))) =
      (hint S sk mu rhoprime kappa).bits := by
  funext i j
  have hhigh := highBits_sub_short (sk.s2_short i) (hlow i j)
  have hhint := makeHint_eq v (remainder S sk mu rhoprime kappa i j) (hlow i j) (hct0 i j)
  rw [ZMod.coe_valMinAbs] at hhint
  rw [hhigh]
  exact hhint

/-- An attempt succeeds if the round passes, and leaves its signature. -/
theorem attempt_eq_some {nonce : ℕ} (hnonce : nonce < v.nonceUb) {sig' : Bytes}
    (hsig : sig.length = v.params.sigLen) {u : Unit} :
    attemptSignatureGeneration S P mu rhoprime (.ofSecret sk) nonce sig = (some u, sig') ↔
      signAttempt S sk mu rhoprime (v.l * nonce) = some sig' := by
  rw [signAttempt_eq_some]
  have hmask := polyveclUniformGamma1_eq (S := S) rhoprime hnonce
  generalize v.l * nonce = kappa at hmask ⊢
  have hw : ∀ i j, decompose v (caddq (P.row (S.expandA sk.rho i)
      (expandMask S rhoprime kappa) j)) =
        (highBits v (commitment S sk rhoprime kappa i j),
          lowBits v (commitment S sk rhoprime kappa i j)) :=
    fun i j ↦ decompose_row _ _ j
  have hbytes : polyveckPackW1 (fun i j ↦ highBits v (commitment S sk rhoprime kappa i j)) =
        w1Encode (commitmentHigh S sk rhoprime kappa) :=
    polyveckPackW1_eq fun i j ↦ highBits_range v _
  rw [attemptSignatureGeneration]
  have hsig1 : (overwrite sig 0 (w1Encode
      (commitmentHigh S sk rhoprime kappa))).length = v.params.sigLen := by
    rw [length_overwrite, hsig]
    rw [length_w1Encode, Nat.zero_add, hsig]
    exact v.w1_le_sigLen
  have hpart : part (overwrite sig 0 (w1Encode
      (commitmentHigh S sk rhoprime kappa))) 0 (v.k * v.polyw1Bytes) =
        w1Encode (commitmentHigh S sk rhoprime kappa) := by
    rw [← length_w1Encode (commitmentHigh S sk rhoprime kappa)]
    exact part_overwrite (Nat.zero_le _)
  have hhash : S.xof (mu ++ w1Encode (commitmentHigh S sk rhoprime kappa))
      v.cTildeLen = commitmentHash S sk mu rhoprime kappa := rfl
  have hchallenge : S.sampleInBall (commitmentHash S sk mu rhoprime kappa) =
      challenge S sk mu rhoprime kappa := rfl
  simp only [hmask, UnpackedSk.ofSecret, hw, update_bind, fetch_bind, hbytes, hpart, hhash,
    hchallenge]
  rw [(yields_computePackZ (abs_expandMask_le S rhoprime kappa) hsig1).bind_iff]
  simp only [ofOption_bind_eq_some, forRows_w0Row, update_bind, packSigH, update_eq_some]
  have hbuffer := fun hones ↦ overwrite_signature (z := fun i j ↦
    (response S sk mu rhoprime kappa i j).valMinAbs) hsig1
    (S.length_xof (mu ++ w1Encode (commitmentHigh S sk rhoprime kappa)) v.cTildeLen)
    (h := hint S sk mu rhoprime kappa) hones
  constructor
  · rintro ⟨hz, _, ⟨hlow, hct0, rfl⟩, h, hpack, rfl⟩
    rw [makeHint_rows sk mu rhoprime hlow hct0, packHint_bits] at hpack
    obtain ⟨hones, hh⟩ := Option.ite_none_right_eq_some.mp hpack
    refine ⟨⟨hz, hlow, hct0, hones⟩, ?_⟩
    rw [← Option.some.inj hh]
    exact hbuffer hones
  · rintro ⟨⟨hz, hlow, hct0, hones⟩, rfl⟩
    refine ⟨hz, _, ⟨hlow, hct0, rfl⟩, _, ?_, hbuffer hones⟩
    rw [makeHint_rows sk mu rhoprime hlow hct0, packHint_bits, if_pos hones]

/-- The rows of `z` that are written keep the length of the buffer. -/
theorem length_computePackZ (c : Poly ℤ) (s1 y : PolyVec v.l ℤ) :
    Triple (fun sig : Bytes ↦ sig.length = v.params.sigLen) (computePackZ P c s1 y)
      (fun _ sig ↦ sig.length = v.params.sigLen) fun sig ↦ sig.length = v.params.sigLen := by
  refine Triple.forRange fun i ↦ Triple.require_keep fun hnorm ↦ Triple.update fun sig hsig ↦ ?_
  rw [Bool.not_eq_true', polyChknorm_eq_false] at hnorm
  have hpack : polyzPack v (polyReduce (P.product c (s1 i) + y i)) =
      bitPack v.gamma1 v.zBits (polyReduce (P.product c (s1 i) + y i)) :=
    polyzPack_eq fun j ↦ by
      have hj := abs_lt.mp (hnorm j)
      omega
  have hrow : (i + 1 : ℕ) * v.polyzBytes ≤ v.l * v.polyzBytes := Nat.mul_le_mul_right _ i.isLt
  have hoffset := v.sigHOffset_add
  rw [Nat.succ_mul] at hrow
  rw [Variant.sigHOffset] at hoffset
  rw [hpack, length_overwrite, hsig]
  rw [length_bitPack, ← Variant.polyzBytes, hsig]
  omega

/-- A failed attempt leaves a buffer of the same length. -/
theorem length_attempt (mu rhoprime : Bytes) (sk : UnpackedSk v) (nonce : ℕ) :
    Triple (fun sig : Bytes ↦ sig.length = v.params.sigLen)
      (attemptSignatureGeneration S P mu rhoprime sk nonce) (fun _ _ ↦ True)
      fun sig ↦ sig.length = v.params.sigLen := by
  refine Triple.update_keep (fun sig hsig ↦ ?_) <| Triple.fetch_bind_any fun _ ↦
    (length_computePackZ _ _ _).bind fun _ ↦ Triple.ofOption_keep fun w0 _ ↦
    Triple.update_keep (fun sig hsig ↦ ?_) <| Triple.ofOption_keep fun h _ ↦
    Triple.update fun _ _ ↦ trivial
  · have hrange : ∀ i j, 0 ≤ (decompose v (caddq (P.row (S.expandA sk.rho i)
        (polyveclUniformGamma1 S rhoprime nonce) j))).1 ∧ (decompose v (caddq (P.row
        (S.expandA sk.rho i) (polyveclUniformGamma1 S rhoprime nonce) j))).1 < v.m := by
      intro i j
      rw [decompose_row]
      exact highBits_range v _
    rw [polyveckPackW1_eq hrange, length_overwrite, hsig]
    rw [length_w1Encode, Nat.zero_add, hsig]
    exact v.w1_le_sigLen
  · have hoffset := v.sigHOffset_add
    rw [Variant.sigHOffset] at hoffset
    rw [length_overwrite, hsig]
    rw [S.length_xof, hsig]
    omega

/-- The attempts find the first round that passes. -/
theorem retry_attempt {sig' : Bytes} (hsig : sig.length = v.params.sigLen) {u : Unit} :
    retry (attemptSignatureGeneration S P mu rhoprime (.ofSecret sk)) v.nonceUb 0 sig =
        (some u, sig') ↔
      firstSome (fun i ↦ signAttempt S sk mu rhoprime (v.l * i)) v.nonceUb 0 =
        some sig' := by
  refine retry_eq_some (fun j hj s hs u t ↦ ?_) (length_attempt mu rhoprime (.ofSecret sk)) hsig
  rw [Nat.zero_add] at hj
  exact attempt_eq_some sk mu rhoprime hj hs

end Attempt

/-! ## Signing -/

/-- The polynomials of a vector are found in its encoding. -/
theorem take_drop_encodeVec {α : Type} {n len : ℕ} {encode : Poly α → Bytes}
    (h : ∀ p, (encode p).length = len) (p : PolyVec n α) (rest : Bytes) (i : Fin n) :
    ((encodeVec encode p ++ rest).drop (i * len)).take len = encode (p i) := by
  rw [Nat.mul_comm]
  exact take_drop_flatten_ofFn (fun i ↦ h (p i)) rest i

/-- The fields of an encoded private key are found at their offsets. -/
theorem unpackSk_encode (sk : SecretKey v) : unpackSk v sk.encode = .ofSecret sk := by
  set s1 := encodeVec (bitPack v.eta v.etaBits) sk.s1 with hs1
  set s2 := encodeVec (bitPack v.eta v.etaBits) sk.s2 with hs2
  set t0 := encodeVec (bitPack (2 ^ 12) 13) sk.t0 with ht0
  have hs1len : s1.length = v.l * v.polyetaBytes :=
    length_encodeVec (length_bitPack _ _) _
  have hs2len : s2.length = v.k * v.polyetaBytes :=
    length_encodeVec (length_bitPack _ _) _
  have henc : sk.encode = sk.rho ++ (sk.K ++ (sk.tr ++ (s1 ++ (s2 ++ t0)))) := rfl
  have hvectors : sk.encode.drop 128 = s1 ++ (s2 ++ t0) := by
    have hfixed : (sk.rho ++ (sk.K ++ sk.tr)).length = 128 := by
      simp only [List.length_append, sk.length_rho, sk.length_K, sk.length_tr]
    rw [henc, ← List.append_assoc sk.K, ← List.append_assoc sk.rho, ← List.append_assoc sk.rho,
      List.append_assoc sk.rho, List.drop_left' hfixed]
  have hs2drop : sk.encode.drop v.skS2Offset = s2 ++ t0 := by
    rw [Variant.skS2Offset, ← List.drop_drop, hvectors, List.drop_left' hs1len]
  have ht0drop : sk.encode.drop v.skT0Offset = t0 := by
    rw [Variant.skT0Offset, ← List.drop_drop, hs2drop, List.drop_left' hs2len]
  have hrho : part sk.encode 0 32 = sk.rho := by
    rw [part, List.drop_zero, henc, List.take_left' sk.length_rho]
  have hkey : part sk.encode 32 32 = sk.K := by
    rw [part, henc, List.drop_left' sk.length_rho, List.take_left' sk.length_K]
  have htr : part sk.encode 64 64 = sk.tr := by
    rw [part, henc, ← List.append_assoc, List.drop_left' (by simp [sk.length_rho, sk.length_K]),
      List.take_left' sk.length_tr]
  have hetaRow : ∀ {n : ℕ} {s : PolyVec n ℤ} (_ : ∀ i j, |s i j| ≤ v.eta) (rest : Bytes)
      (i : Fin n), polyetaUnpack v ((encodeVec (bitPack v.eta v.etaBits) s ++
        rest).drop (i * v.polyetaBytes)) = s i := fun hs rest i ↦
    polyetaUnpack_eq (hs i) (take_drop_encodeVec (length_bitPack _ _) _ rest i)
  have ht0Row : ∀ i : Fin v.k, polyt0Unpack (t0.drop (i * 416)) = sk.t0 i := by
    intro i
    have htake := take_drop_encodeVec (length_bitPack (2 ^ 12) 13) sk.t0 [] i
    rw [List.append_nil] at htake
    exact polyt0Unpack_eq (sk.t0_range i) htake
  rw [unpackSk, hrho, hkey, htr]
  simp only [← List.drop_drop, hvectors, hs2drop, ht0drop, ht0Row]
  simp only [hs1, hs2, hetaRow sk.s1_short, hetaRow sk.s2_short]
  rfl

/-- The engine searches for the first round that passes. -/
theorem signSignatureInternal_eq_some (sk : SecretKey v) {m pre rnd : Bytes}
    {externalmu : Bool} {sig sig' : Bytes} (hsig : sig.length = v.params.sigLen) {n : ℕ} :
    signSignatureInternal S P m pre rnd sk.encode externalmu sig = (some n, sig') ↔
      v.params.sigLen = n ∧
      firstSome (fun i ↦ signAttempt S sk (messageMu S sk.tr pre m externalmu)
        (S.xof (sk.K ++ (rnd.take 32 ++ messageMu S sk.tr pre m externalmu)) 64) (v.l * i))
        v.nonceUb 0 = some sig' := by
  rw [signSignatureInternal, onFailure_eq_some, unpackSk_encode, bind_eq_some]
  simp only [pure_eq_some]
  constructor
  · rintro ⟨u, r, hretry, hn, rfl⟩
    exact ⟨hn, (retry_attempt sk _ _ hsig).mp hretry⟩
  · rintro ⟨hn, hfirst⟩
    exact ⟨(), sig', (retry_attempt sk _ _ hsig).mpr hfirst, hn, rfl⟩

/-! ## Verification -/

section Verify

variable {S P} (pk : PublicKey v)

/-- The vector from which the hint recovers `w1`, after `mld_poly_caddq`. -/
theorem caddq_rowSub (c : Bytes) (z : PolyVec v.l ℤ) (i : Fin v.k) (j : Fin numCoeff) :
    caddq (P.rowSub (S.expandA pk.rho i) z (S.sampleInBall c).coeff
      (fun j ↦ pk.t1 i j * 2 ^ dBits) j) = (wApprox S pk c z i j).val := by
  have hcast : (P.rowSub (S.expandA pk.rho i) z (S.sampleInBall c).coeff
      (fun j ↦ pk.t1 i j * 2 ^ dBits) j : ZMod q) = wApprox S pk c z i j :=
    congrFun (P.rowSub_residue _ _ _ _) j
  rw [caddq_eq_val (P.abs_rowSub_lt _ _ _ _ j), hcast]

/-- The polynomials of `t1` are found in the encoded public key. -/
theorem polyt1Unpack_encode (i : Fin v.k) :
    polyt1Unpack (pk.encode.drop (32 + i * 320)) = pk.t1 i := by
  refine polyt1Unpack_eq (pk.t1_range i) ?_
  have htake := take_drop_encodeVec (length_simpleBitPack 10) pk.t1 [] i
  rw [List.append_nil] at htake
  rw [← List.drop_drop, PublicKey.encode, List.drop_left' pk.length_rho]
  exact htake

/-- A row of `w1`, when its hint has been accepted. -/
theorem w1Row_eq (sig c : Bytes) (z : PolyVec v.l ℤ) (i : Fin v.k) :
    w1Row S P sig pk.encode z (S.sampleInBall c).coeff i =
      (sigUnpackHints v.omega v.k (sig.drop v.sigHOffset) i).map fun h ↦
        polyw1Pack v fun j ↦ useHint v (wApprox S pk c z i j).val (h j) := by
  have hrho : part pk.encode 0 32 = pk.rho := by
    rw [part, List.drop_zero, PublicKey.encode, List.take_left' pk.length_rho]
  rw [w1Row, hrho]
  simp only [polyt1Unpack_encode, caddq_rowSub]

/-- The packed rows of `w1`, for an accepted hint. -/
theorem flatten_w1Rows (h : PolyVec v.k Bool) (w : PolyVec v.k (ZMod q)) :
    (List.ofFn fun i ↦ polyw1Pack v fun j ↦ useHint v (w i j).val (h.bits i j)).flatten =
      w1Encode fun i j ↦ Fips204.useHint v (h i j) (w i j) := by
  have hrow : ∀ i, (polyw1Pack v fun j ↦ useHint v (w i j).val (h.bits i j)) =
      simpleBitPack v.w1Bits fun j ↦ Fips204.useHint v (h i j) (w i j) := by
    intro i
    rw [show (fun j ↦ useHint v (w i j).val (h.bits i j)) =
      fun j ↦ Fips204.useHint v (h i j) (w i j) from funext fun j ↦ useHint_eq v (h i j) (w i j)]
    exact polyw1Pack_eq fun j ↦ useHint_range v _ _
  simp only [hrow]
  rfl

/-- All rows are accepted if the hint bytes are the packing of a hint, and this hint gives `w1`. -/
theorem forRows_w1Row {sig c hints : Bytes} {z : PolyVec v.l ℤ}
    (hdrop : sig.drop v.sigHOffset = hints) (hhints : hints.length = v.omega + v.k)
    {buf : Fin v.k → Bytes} :
    (forRows fun i ↦ w1Row S P sig pk.encode z (S.sampleInBall c).coeff i) = some buf ↔
      ∃ h : PolyVec v.k Bool, ones h ≤ v.omega ∧
        hints = hintBitPack v.omega h ∧
        (fun i ↦ polyw1Pack v fun j ↦ useHint v (wApprox S pk c z i j).val (h.bits i j)) = buf := by
  have homega : v.omega < 256 := by cases v <;> decide
  have hk : 0 < v.k := by cases v <;> decide
  simp only [forRows_eq_some, w1Row_eq, Option.map_eq_some_iff, hdrop]
  constructor
  · intro hrows
    choose p hp hbuf using hrows
    obtain ⟨h, hones, rfl, hpack⟩ := (sigUnpackHints_eq_some homega hk hhints p).mp hp
    exact ⟨h, hones, hpack, funext hbuf⟩
  · rintro ⟨h, hones, hpack, rfl⟩ i
    have hrows := (sigUnpackHints_eq_some homega hk hhints h.bits).mpr ⟨h, hones, rfl, hpack⟩
    exact ⟨h.bits i, hrows i, rfl⟩

/-- The checks on a string that is cut into the fields of a signature. -/
theorem signVerifyInternal_fields {c hints m pre : Bytes} {z : PolyVec v.l ℤ}
    {externalmu : Bool} (hc : c.length = v.cTildeLen)
    (hz : ∀ i j, -(v.gamma1 : ℤ) < z i j ∧ z i j ≤ v.gamma1)
    (hhints : hints.length = v.omega + v.k) :
    signVerifyInternal S P (c ++ (encodeVec (bitPack v.gamma1 v.zBits) z ++ hints))
        m pre pk.encode externalmu = true ↔
      (∀ i j, |z i j| < (v.gamma1 : ℤ) - v.beta) ∧ ∃ h : PolyVec v.k Bool,
        ones h ≤ v.omega ∧ hints = hintBitPack v.omega h ∧
        c = S.xof (messageMu S (S.xof pk.encode 64) pre m externalmu ++
          w1Encode fun i j ↦ Fips204.useHint v (h i j) (wApprox S pk c z i j)) v.cTildeLen := by
  set sig := c ++ (encodeVec (bitPack v.gamma1 v.zBits) z ++ hints) with hsig
  have hzlen : (encodeVec (bitPack v.gamma1 v.zBits) z).length =
      v.l * v.polyzBytes := length_encodeVec (length_bitPack _ _) z
  have hlen : sig.length = v.params.sigLen := by
    have hoffset := v.sigHOffset_add
    rw [Variant.sigHOffset] at hoffset
    rw [hsig, List.length_append, List.length_append, hc, hzlen, hhints, ← hoffset]
    omega
  have hcpart : part sig 0 v.cTildeLen = c := by
    rw [part, List.drop_zero, hsig, List.take_left' hc]
  have hzrow : ∀ i : Fin v.l, polyzUnpack v (sig.drop (v.cTildeLen + i * v.polyzBytes)) = z i := by
    intro i
    refine polyzUnpack_eq (hz i) ?_
    rw [← List.drop_drop, hsig, List.drop_left' hc]
    exact take_drop_encodeVec (length_bitPack _ _) z hints i
  have hdrop : sig.drop v.sigHOffset = hints := by
    rw [Variant.sigHOffset, ← List.drop_drop, hsig, List.drop_left' hc, List.drop_left' hzlen]
  have hnorm : (List.finRange v.l).any (fun i ↦ polyChknorm (z i) (v.gamma1 - v.beta)) = false ↔
      ∀ i j, |z i j| < (v.gamma1 : ℤ) - v.beta := by
    simp only [List.any_eq_false, List.mem_finRange, forall_true_left, Bool.not_eq_true,
      polyChknorm_eq_false]
  rw [signVerifyInternal, if_neg (not_not.mpr hlen)]
  simp only [hcpart, hzrow]
  rw [← hnorm]
  cases hany : (List.finRange v.l).any fun i ↦ polyChknorm (z i) (v.gamma1 - v.beta) with
  | true => exact iff_of_false Bool.false_ne_true fun h ↦ Bool.false_ne_true h.1.symm
  | false =>
    rw [if_neg Bool.false_ne_true, and_iff_right rfl]
    constructor
    · intro haccept
      cases hbuf : forRows fun i ↦ w1Row S P sig pk.encode z (S.sampleInBall c).coeff i with
      | none =>
        rw [hbuf] at haccept
        cases haccept
      | some buf =>
        obtain ⟨h, hones, hpack, rfl⟩ := (forRows_w1Row pk hdrop hhints).mp hbuf
        rw [hbuf, beq_iff_eq, flatten_w1Rows] at haccept
        exact ⟨h, hones, hpack, haccept⟩
    · rintro ⟨h, hones, hpack, hhash⟩
      rw [(forRows_w1Row pk hdrop hhints).mpr ⟨h, hones, hpack, rfl⟩, beq_iff_eq, flatten_w1Rows]
      exact hhash

/-- A string of the length of a signature is cut into its fields. -/
theorem exists_fields {sig : Bytes} (hsig : sig.length = v.params.sigLen) :
    ∃ (c hints : Bytes) (z : PolyVec v.l ℤ), c.length = v.cTildeLen ∧
      (∀ i j, -(v.gamma1 : ℤ) < z i j ∧ z i j ≤ v.gamma1) ∧ hints.length = v.omega + v.k ∧
      sig = c ++ (encodeVec (bitPack v.gamma1 v.zBits) z ++ hints) := by
  have hoffset := v.sigHOffset_add
  rw [Variant.sigHOffset] at hoffset
  have hroom : (2 : ℤ) ^ v.zBits = 2 * v.gamma1 := by cases v <;> rfl
  obtain ⟨z, hz, hbytes⟩ := exists_encodeVec
    (R := fun x : ℤ ↦ -(v.gamma1 : ℤ) < x ∧ x ≤ v.gamma1)
    (fun bs (hbs : bs.length = 32 * v.zBits) ↦ by
      obtain ⟨hrange, hpack⟩ := bitPack_bitUnpack v.gamma1 hbs
      refine ⟨_, fun j ↦ ?_, hpack.symm⟩
      have hj := hrange j
      rw [hroom] at hj
      omega) v.l
    (show ((sig.drop v.cTildeLen).take (v.l * v.polyzBytes)).length = v.l * (32 * v.zBits) by
      rw [← Variant.polyzBytes, List.length_take, List.length_drop]
      omega)
  refine ⟨sig.take v.cTildeLen, (sig.drop v.cTildeLen).drop (v.l * v.polyzBytes), z, ?_, hz, ?_,
    ?_⟩
  · rw [List.length_take]
    omega
  · rw [List.length_drop, List.length_drop]
    omega
  · rw [← hbytes, List.take_append_drop, List.take_append_drop]

/-- Verification accepts what FIPS 204 accepts. -/
theorem signVerifyInternal_iff {sig m pre : Bytes} {externalmu : Bool} :
    signVerifyInternal S P sig m pre pk.encode externalmu = true ↔
      Accepts S pk (messageMu S (S.xof pk.encode 64) pre m externalmu) sig := by
  constructor
  · intro haccept
    have hlen : sig.length = v.params.sigLen := by
      by_contra hne
      rw [signVerifyInternal, if_pos hne] at haccept
      exact Bool.false_ne_true haccept
    obtain ⟨c, hints, z, hc, hz, hhints, rfl⟩ := exists_fields hlen
    obtain ⟨hnorm, h, hones, rfl, hhash⟩ :=
      (signVerifyInternal_fields pk hc hz hhints).mp haccept
    exact ⟨⟨c, z, h, hc, hz, hones⟩, rfl, hnorm, hhash⟩
  · rintro ⟨parts, rfl, hnorm, hhash⟩
    exact (signVerifyInternal_fields pk parts.length_cTilde parts.z_range
      (length_hintBitPack parts.ones_le)).mpr ⟨hnorm, parts.h, parts.ones_le, rfl, hhash⟩

end Verify

end Native

end MlDsa
