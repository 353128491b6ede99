import QudoPqc.Fallible.Loop
import QudoPqc.MlDsa.KeyCodec
import QudoPqc.MlDsa.Signature

/-!
# OpenSSL's signing and verification

`ml_dsa_sign_internal` and `ml_dsa_verify_internal` of `ml_dsa_sign.c`, as they are compiled without
the delegation. A round of the rejection loop either gives a signature or is repeated with the next
masks; nothing in the source bounds the number of rounds, and `signLoop` counts them down from a
number that is given to it.

A round is a round of FIPS 204 on representatives (`signAttempt_refines`), and verification accepts
what FIPS 204 accepts (`verifyInternal_iff`).
-/

namespace MlDsa

open Codec Fallible Fips204

namespace Ossl

variable {v : Variant} (S : Sampling v)

/-! ## The functions -/

/-- `vector_expand_mask`. The decoder does not fail, as every word is in range. -/
def vectorExpandMask (rhoPrime : Bytes) (kappa : ℕ) : PolyVec v.l ℕ := fun i ↦
  let index := kappa + i
  let seed := rhoPrime ++ [UInt8.ofNat index, UInt8.ofNat (index >>> 8)]
  match zDecode v (S.xof seed (32 * v.zBits)) with
  | some (p, _) => p
  | none => fun _ ↦ 0

/-- `ossl_ml_dsa_w1_encode`. -/
def w1Encode (w1 : PolyVec v.k ℕ) : Bytes := encodeVec (w1EncodePoly v) w1

/-- `mu` of both functions. -/
def messageMu (tr : Bytes) (msgIsMu : Bool) (msg : Bytes) : Option Bytes :=
  if msgIsMu then if msg.length ≠ 64 then none else some msg
  else some (S.xof (tr ++ msg) 64)

/-- One round of the loop of `ml_dsa_sign_internal`, or nothing if it goes on. -/
def signAttempt (rho : Bytes) (p : PrivVectors v) (mu rhoPrime : Bytes) (kappa : ℕ) :
    Option (Sig v) :=
  let y := vectorExpandMask S rhoPrime kappa
  let w := matrixMultVector (S.expandA rho) y
  let w1 := vectorHighBits w v.gamma2
  let cTilde := S.xof (mu ++ w1Encode w1) v.cTildeLen
  let c := (S.sampleInBall cTilde).coeff.repr
  let cs1 := vectorMultScalar p.s1 c
  let cs2 := vectorMultScalar p.s2 c
  let z := vectorAdd y cs1
  let r0 := vectorLowBits (vectorSub w cs2) v.gamma2
  if v.gamma1 - v.beta ≤ vectorMax z ∨ v.gamma2 - v.beta ≤ vectorMaxSigned r0 then none
  else
    let ct0 := vectorMultScalar p.t0 c
    let hint := vectorMakeHint ct0 cs2 w v.gamma2
    if v.gamma2 ≤ vectorMax ct0 ∨ v.omega < vectorCountOnes hint then none
    else some ⟨cTilde, z, hint⟩

/-- The loop of `ml_dsa_sign_internal`, for so many rounds. -/
def signLoop (rho : Bytes) (p : PrivVectors v) (mu rhoPrime : Bytes) :
    (rounds kappa : ℕ) → Option (Option Bytes)
  | 0, _ => none
  | rounds + 1, kappa =>
    match signAttempt S rho p mu rhoPrime kappa with
    | some sig => some (sigEncode sig)
    | none => signLoop rho p mu rhoPrime rounds (kappa + v.l)

/-- `ml_dsa_sign_internal`: nothing if it has not returned after so many rounds, and else the
signature if it returns 1. Its caller has made sure that there is a private key. -/
def signInternal (rounds : ℕ) (key : Key v) (msgIsMu : Bool) (msg rnd : Bytes) :
    Option (Option Bytes) :=
  match key.priv, messageMu S key.tr msgIsMu msg with
  | some p, some mu =>
    signLoop S key.rho p mu (S.xof (key.K ++ (rnd ++ mu)) 64) rounds 0
  | _, _ => some none

/-- `ml_dsa_verify_internal`. -/
def verifyInternal (key : Key v) (msgIsMu : Bool) (msg sigEnc : Bytes) : Bool :=
  match key.t1, sigDecode v sigEnc, messageMu S key.tr msgIsMu msg with
  | some t1, some sig, some mu =>
    let c := (S.sampleInBall sig.cTilde).coeff.repr
    let ct1 := vectorMultScalar (vectorScalePower2Round t1) c
    let wApprox := vectorSub (matrixMultVector (S.expandA key.rho) sig.z) ct1
    let w1 := vectorUseHint sig.hint wApprox v.gamma2
    let cTilde := S.xof (mu ++ w1Encode w1) v.cTildeLen
    vectorMax sig.z < v.gamma1 - v.beta ∧ cTilde = sig.cTilde
  | _, _, _ => false

/-! ## Values of a round -/

section Values

variable {S}

theorem vectorExpandMask_eq (rhoPrime : Bytes) (kappa : ℕ) :
    vectorExpandMask S rhoPrime kappa = (expandMask S rhoPrime kappa).repr := by
  funext i
  have hseed : [UInt8.ofNat (kappa + i), UInt8.ofNat ((kappa + i) >>> 8)] =
      storeLe 2 (kappa + i) := by
    rw [Nat.shiftRight_eq_div_pow]
    rfl
  set bytes := S.xof (rhoPrime ++ storeLe 2 (kappa + i)) (32 * v.zBits) with hbytes
  obtain ⟨hrange, hpack⟩ := bitPack_bitUnpack v.gamma1 (S.length_xof
    (rhoPrime ++ storeLe 2 (kappa + i)) (32 * v.zBits))
  have hroom : (2 : ℤ) ^ v.zBits = 2 * v.gamma1 := by cases v <;> rfl
  have hdecode : zDecode v bytes = some ((bitUnpack v.gamma1 v.zBits bytes).repr, []) := by
    refine (reads_zDecode v _ _ _).mpr ⟨bytes, ⟨_, fun j ↦ ?_, rfl, hpack.symm⟩, ?_⟩
    · have hpos := v.beta_lt_gamma1
      have hj := hrange j
      rw [hroom, ← hbytes] at hj
      omega
    · rw [List.append_nil]
  rw [vectorExpandMask, hseed, ← hbytes, hdecode]
  rfl

/-- A number below `m` is the representative of its residue. -/
theorem eq_repr_of_lt_m {x : ℕ} {c : ℤ} (hx : (x : ℤ) = c) (hc : c < v.m) : x =
    (c : ZMod q).val := by
  have hm : v.m ≤ q := by cases v <;> decide
  refine eq_val_of_cast (lt_of_lt_of_le ?_ hm) ?_
  · rw [← hx] at hc
    exact_mod_cast hc
  · rw [← hx, Int.cast_natCast]

theorem vectorHighBits_val {n : ℕ} (w : PolyVec n (ZMod q)) :
    vectorHighBits w.val v.gamma2 = PolyVec.repr fun i j ↦ Fips204.highBits v (w i j) :=
  funext fun i ↦ funext fun j ↦
    eq_repr_of_lt_m (highBits_val v (w i j)) (highBits_range v (w i j)).2

theorem w1Encode_repr {w1 : PolyVec v.k ℤ} (h : ∀ i j, 0 ≤ w1 i j ∧ w1 i j < v.m) :
    w1Encode w1.repr = Fips204.w1Encode w1 :=
  encodeVec_repr fun i ↦ w1EncodePoly_repr v (h i)

theorem vectorLowBits_val {n : ℕ} (w : PolyVec n (ZMod q)) :
    vectorLowBits w.val v.gamma2 = fun i j ↦ Fips204.lowBits v (w i j) :=
  funext fun i ↦ funext fun j ↦ lowBits_val v (w i j)

theorem vectorMakeHint_val {n : ℕ} (ct0 cs2 w : PolyVec n (ZMod q)) :
    vectorMakeHint ct0.val cs2.val w.val v.gamma2 =
      PolyVec.bits fun i j ↦ Fips204.makeHint v (-ct0 i j) (w i j - cs2 i j + ct0 i j) :=
  funext fun i ↦ funext fun j ↦ makeHint_val v (ct0 i j) (cs2 i j) (w i j)

/-- The ones of a vector are counted. -/
theorem vectorCountOnes_bits {n : ℕ} (h : PolyVec n Bool) :
    vectorCountOnes h.bits = ones h := by
  have hrow : ∀ (i : Fin n) (js : List (Fin numCoeff)) (count : ℕ),
      js.foldl (fun count j ↦ count + h.bits i j) count = count + (js.filter (h i)).length := by
    intro i js
    induction js with
    | nil => exact fun count ↦ rfl
    | cons j js ih =>
      intro count
      rw [List.foldl_cons, ih, List.filter_cons, PolyVec.bits, Poly.bits]
      cases h i j with
      | false => rfl
      | true => rw [if_pos rfl, if_pos rfl, List.length_cons, Nat.add_assoc, Nat.add_comm 1]
  have hrows : ∀ (is : List (Fin n)) (count : ℕ), is.foldl (fun count i ↦
      (List.finRange numCoeff).foldl (fun count j ↦ count + h.bits i j) count) count =
        count + (is.map fun i ↦ (rowBytes (h i)).length).sum := by
    intro is
    induction is with
    | nil => exact fun count ↦ rfl
    | cons i is ih =>
      intro count
      rw [List.foldl_cons, ih, hrow, List.map_cons, List.sum_cons, Nat.add_assoc,
        rowBytes, List.length_map]
      rfl
  rw [vectorCountOnes, hrows, Nat.zero_add, ones, tally, List.take_of_length_le,
    List.map_ofFn, List.ofFn_eq_map]
  · rfl
  · rw [List.length_map, List.length_ofFn]

end Values

/-! ## One round -/

section Attempt

variable (sk : SecretKey v) (mu rhoPrime : Bytes) (kappa : ℕ)

/-- A round is rejected, or gives the values of FIPS 204. -/
theorem signAttempt_eq :
    signAttempt S sk.rho (.ofSecret sk) mu rhoPrime kappa =
      if v.gamma1 - v.beta ≤ vectorMax (response S sk mu rhoPrime kappa).val ∨
          v.gamma2 - v.beta ≤ vectorMaxSigned fun i j ↦
            Fips204.lowBits v (remainder S sk mu rhoPrime kappa i j) then none
      else if v.gamma2 ≤ vectorMax (scaled S sk mu rhoPrime kappa sk.t0).val ∨
          v.omega < ones (hint S sk mu rhoPrime kappa) then none
      else some ⟨commitmentHash S sk mu rhoPrime kappa, (response S sk mu rhoPrime kappa).val,
        (hint S sk mu rhoPrime kappa).bits⟩ := by
  have hw : matrixMultVector (S.expandA sk.rho) (vectorExpandMask S rhoPrime kappa) =
      (commitment S sk rhoPrime kappa).val := by
    rw [vectorExpandMask_eq, matrixMultVector_repr]
    rfl
  have hhash : S.xof (mu ++ w1Encode (vectorHighBits (commitment S sk rhoPrime kappa).val
      v.gamma2)) v.cTildeLen = commitmentHash S sk mu rhoPrime kappa := by
    rw [vectorHighBits_val, w1Encode_repr fun i j ↦ highBits_range v _]
    rfl
  have hs1 : vectorMultScalar (PrivVectors.ofSecret sk).s1
      (S.sampleInBall (commitmentHash S sk mu rhoPrime kappa)).coeff.repr =
        (scaled S sk mu rhoPrime kappa sk.s1).val := vectorMultScalar_repr _ _
  have hs2 : vectorMultScalar (PrivVectors.ofSecret sk).s2
      (S.sampleInBall (commitmentHash S sk mu rhoPrime kappa)).coeff.repr =
        (scaled S sk mu rhoPrime kappa sk.s2).val := vectorMultScalar_repr _ _
  have ht0 : vectorMultScalar (PrivVectors.ofSecret sk).t0
      (S.sampleInBall (commitmentHash S sk mu rhoPrime kappa)).coeff.repr =
        (scaled S sk mu rhoPrime kappa sk.t0).val := vectorMultScalar_repr _ _
  have hz : vectorAdd (vectorExpandMask S rhoPrime kappa)
      (scaled S sk mu rhoPrime kappa sk.s1).val =
        (response S sk mu rhoPrime kappa).val := by
    rw [vectorExpandMask_eq]
    exact vectorAdd_val (expandMask S rhoPrime kappa).residue _
  have hr : vectorLowBits (vectorSub (commitment S sk rhoPrime kappa).val
      (scaled S sk mu rhoPrime kappa sk.s2).val) v.gamma2 = fun i j ↦
        Fips204.lowBits v (remainder S sk mu rhoPrime kappa i j) := by
    rw [vectorSub_val, vectorLowBits_val]
    rfl
  have hhint : vectorMakeHint (scaled S sk mu rhoPrime kappa sk.t0).val
      (scaled S sk mu rhoPrime kappa sk.s2).val
      (commitment S sk rhoPrime kappa).val v.gamma2 =
        (hint S sk mu rhoPrime kappa).bits := vectorMakeHint_val _ _ _
  rw [signAttempt]
  dsimp only
  rw [hw, hhash, hs1, hs2, ht0, hz, hr, hhint, vectorCountOnes_bits]

/-- The two tests let a round pass if and only if it passes in FIPS 204. -/
theorem accepted_iff :
    (¬(v.gamma1 - v.beta ≤ vectorMax (response S sk mu rhoPrime kappa).val ∨
        v.gamma2 - v.beta ≤ vectorMaxSigned fun i j ↦
          Fips204.lowBits v (remainder S sk mu rhoPrime kappa i j)) ∧
      ¬(v.gamma2 ≤ vectorMax (scaled S sk mu rhoPrime kappa sk.t0).val ∨
        v.omega < ones (hint S sk mu rhoPrime kappa))) ↔
      Passes S sk mu rhoPrime kappa := by
  have hbeta1 := v.beta_lt_gamma1
  have hbeta2 := v.beta_lt_gamma2
  have hz := vectorMax_val (response S sk mu rhoPrime kappa)
    (show 0 < v.gamma1 - v.beta by omega)
  have hr := vectorMaxSigned_lt (fun i j ↦ Fips204.lowBits v (remainder S sk mu rhoPrime kappa i j))
    (show 0 < v.gamma2 - v.beta by omega)
  have hct0 := vectorMax_val (scaled S sk mu rhoPrime kappa sk.t0)
    (show 0 < v.gamma2 by omega)
  rw [Nat.cast_sub hbeta1.le] at hz
  rw [Nat.cast_sub hbeta2.le] at hr
  rw [not_or, not_or, not_le, not_le, not_le, not_lt, hz, hr, hct0]
  exact ⟨fun ⟨⟨h1, h2⟩, h3, h4⟩ ↦ ⟨h1, h2, h3, h4⟩, fun ⟨h1, h2, h3, h4⟩ ↦ ⟨⟨h1, h2⟩, h3, h4⟩⟩

/-- What a round that passes is encoded from. -/
def partsOf {S : Sampling v} {sk : SecretKey v} {mu rhoPrime : Bytes} {kappa : ℕ}
    (h : Passes S sk mu rhoPrime kappa) : SignatureParts v where
  cTilde := commitmentHash S sk mu rhoPrime kappa
  z := fun i j ↦ (response S sk mu rhoPrime kappa i j).valMinAbs
  h := hint S sk mu rhoPrime kappa
  length_cTilde := S.length_xof _ _
  z_range := fun i j ↦ by
    have hz := abs_lt.mp (h.response i j)
    omega
  ones_le := h.ones_le

theorem ofParts_partsOf {S : Sampling v} {sk : SecretKey v} {mu rhoPrime : Bytes}
    {kappa : ℕ} (h : Passes S sk mu rhoPrime kappa) :
    Sig.ofParts (partsOf h) = ⟨commitmentHash S sk mu rhoPrime kappa,
      (response S sk mu rhoPrime kappa).val, (hint S sk mu rhoPrime kappa).bits⟩ := by
  have hval : (PolyVec.repr fun i j ↦ (response S sk mu rhoPrime kappa i j).valMinAbs) =
        (response S sk mu rhoPrime kappa).val := by
    funext i j
    simp only [PolyVec.repr, Poly.repr, ZMod.coe_valMinAbs, PolyVec.val, Poly.val]
  rw [Sig.ofParts, partsOf, hval]

/-- A round of `ml_dsa_sign_internal` is a round of FIPS 204. -/
theorem signAttempt_refines :
    (signAttempt S sk.rho (.ofSecret sk) mu rhoPrime kappa).map sigEncode =
      (Fips204.signAttempt S sk mu rhoPrime kappa).map some := by
  have hiff := accepted_iff S sk mu rhoPrime kappa
  rw [signAttempt_eq]
  by_cases h : Passes S sk mu rhoPrime kappa
  · obtain ⟨h1, h2⟩ := hiff.mpr h
    rw [if_neg h1, if_neg h2, (signAttempt_eq_some S sk mu rhoPrime kappa).mpr ⟨h, rfl⟩,
      Option.map_some, Option.map_some, ← ofParts_partsOf h, sigEncode_ofParts,
      SignatureParts.encode, partsOf]
  · have hnone : Fips204.signAttempt S sk mu rhoPrime kappa = none :=
      Option.eq_none_iff_forall_ne_some.mpr fun sig hsig ↦
        h ((signAttempt_eq_some S sk mu rhoPrime kappa).mp hsig).1
    rw [hnone]
    by_cases h1 : v.gamma1 - v.beta ≤ vectorMax (response S sk mu rhoPrime kappa).val ∨
        v.gamma2 - v.beta ≤ vectorMaxSigned fun i j ↦
          Fips204.lowBits v (remainder S sk mu rhoPrime kappa i j)
    · rw [if_pos h1]
      rfl
    · rw [if_neg h1, if_pos (not_not.mp fun h2 ↦ h (hiff.mp ⟨h1, h2⟩))]
      rfl

/-- A round that gives a signature ends the loop, and a rejected one does not. -/
theorem signLoop_succ (rounds : ℕ) :
    signLoop S sk.rho (.ofSecret sk) mu rhoPrime (rounds + 1) kappa =
      match Fips204.signAttempt S sk mu rhoPrime kappa with
      | some sig => some (some sig)
      | none => signLoop S sk.rho (.ofSecret sk) mu rhoPrime rounds (kappa + v.l) := by
  have hround := signAttempt_refines S sk mu rhoPrime kappa
  rw [signLoop]
  cases hspec : Fips204.signAttempt S sk mu rhoPrime kappa with
  | none =>
    rw [hspec, Option.map_none, Option.map_eq_none_iff] at hround
    rw [hround]
  | some sig =>
    rw [hspec, Option.map_some, Option.map_eq_some_iff] at hround
    obtain ⟨sig', hattempt, hencode⟩ := hround
    rw [hattempt]
    exact congrArg some hencode

/-- The loop finds the first round that passes. -/
theorem signLoop_eq (rounds i : ℕ) :
    signLoop S sk.rho (.ofSecret sk) mu rhoPrime rounds (v.l * i) =
      (firstSome (fun i ↦ Fips204.signAttempt S sk mu rhoPrime (v.l * i)) rounds i).map some := by
  induction rounds generalizing i with
  | zero => rfl
  | succ rounds ih =>
    rw [signLoop_succ, firstSome]
    cases Fips204.signAttempt S sk mu rhoPrime (v.l * i) with
    | some sig => rfl
    | none => exact ih (i + 1)

end Attempt

/-! ## Verification -/

section Verify

variable {S} {pk : PublicKey v}

theorem vectorUseHint_val {n : ℕ} (h : PolyVec n Bool) (w : PolyVec n (ZMod q)) :
    vectorUseHint h.bits w.val v.gamma2 =
      PolyVec.repr fun i j ↦ Fips204.useHint v (h i j) (w i j) :=
  funext fun i ↦ funext fun j ↦
    eq_repr_of_lt_m (useHint_val v (h i j) (w i j)) (useHint_range v (h i j) (w i j)).2

/-- A coefficient of `t1` is shifted without reduction. -/
theorem vectorScalePower2Round_repr {n : ℕ} {t1 : PolyVec n ℤ}
    (h : ∀ i j, 0 ≤ t1 i j ∧ t1 i j < 2 ^ 10) :
    vectorScalePower2Round t1.repr = PolyVec.repr fun i j ↦ t1 i j * 2 ^ dBits := by
  funext i j
  obtain ⟨h0, hlt⟩ := h i j
  have hq : (q : ℤ) = 8380417 := q_int
  have hshift : t1 i j * 2 ^ dBits < q := by
    rw [dBits]
    omega
  change (t1 i j : ZMod q).val <<< dBits = ((t1 i j * 2 ^ dBits : ℤ) : ZMod q).val
  rw [val_of_lt h0 (by omega), val_of_lt (by positivity) hshift, Nat.shiftLeft_eq,
    Int.toNat_mul h0 (by positivity)]
  rfl

/-- The vector from which the hint recovers `w1`. -/
theorem wApprox_val (cTilde : Bytes) (z : PolyVec v.l ℤ) :
    vectorSub (matrixMultVector (S.expandA pk.rho) z.repr)
      (vectorMultScalar (vectorScalePower2Round pk.t1.repr)
        (S.sampleInBall cTilde).coeff.repr) = (wApprox S pk cTilde z).val := by
  rw [vectorScalePower2Round_repr pk.t1_range, matrixMultVector_repr, vectorMultScalar_repr,
    vectorSub_val]
  rfl

/-- The norm is that of the coefficients which the signature encodes. -/
theorem vectorMax_z (parts : SignatureParts v) :
    vectorMax parts.z.repr < v.gamma1 - v.beta ↔
      ∀ i j, |parts.z i j| < (v.gamma1 : ℤ) - v.beta := by
  have hbeta := v.beta_lt_gamma1
  have hgamma : (v.gamma1 : ℤ) ≤ 2 ^ 19 := by exact_mod_cast v.gamma1_le
  have hmax := vectorMax_val parts.z.residue (show 0 < v.gamma1 - v.beta by omega)
  rw [Nat.cast_sub hbeta.le] at hmax
  refine hmax.trans (forall₂_congr fun i j ↦ ?_)
  have hz : |parts.z i j| ≤ 2 ^ 20 := by
    have hrange := parts.z_range i j
    rw [abs_le]
    omega
  rw [PolyVec.residue, Poly.residue, Native.valMinAbs_intCast hz]

/-- On the encoding of a signature the tests are those of the standard. -/
theorem verifyInternal_encode {key : Key v} {msgIsMu : Bool} {msg mu : Bytes}
    (hmu : messageMu S (S.xof pk.encode 64) msgIsMu msg = some mu)
    (parts : SignatureParts v) :
    verifyInternal S (key.filledPublic S pk) msgIsMu msg parts.encode = true ↔
      (∀ i j, |parts.z i j| < (v.gamma1 : ℤ) - v.beta) ∧
        parts.cTilde = S.xof (mu ++ Fips204.w1Encode fun i j ↦
          Fips204.useHint v (parts.h i j) (wApprox S pk parts.cTilde parts.z i j))
            v.cTildeLen := by
  have hdecode : sigDecode v parts.encode = some (Sig.ofParts parts) :=
    sigDecode_eq_some.mpr ⟨parts, rfl, rfl⟩
  have hw : vectorSub (matrixMultVector (S.expandA pk.rho) (Sig.ofParts parts).z)
      (vectorMultScalar (vectorScalePower2Round pk.t1.repr)
        (S.sampleInBall (Sig.ofParts parts).cTilde).coeff.repr) =
          (wApprox S pk parts.cTilde parts.z).val := wApprox_val _ _
  have hw1 : w1Encode (vectorUseHint (Sig.ofParts parts).hint
      (wApprox S pk parts.cTilde parts.z).val v.gamma2) = Fips204.w1Encode fun i j ↦
        Fips204.useHint v (parts.h i j) (wApprox S pk parts.cTilde parts.z i j) := by
    rw [Sig.ofParts, vectorUseHint_val, w1Encode_repr fun i j ↦ useHint_range v _ _]
  rw [verifyInternal, hdecode]
  simp only [Key.filledPublic, hmu, hw, hw1, decide_eq_true_eq]
  exact and_congr (vectorMax_z parts) eq_comm

/-- `ml_dsa_verify_internal` accepts what FIPS 204 accepts. -/
theorem verifyInternal_iff {key : Key v} {msgIsMu : Bool} {msg sigEnc : Bytes} :
    verifyInternal S (key.filledPublic S pk) msgIsMu msg sigEnc = true ↔
      ∃ mu, messageMu S (S.xof pk.encode 64) msgIsMu msg = some mu ∧
        Accepts S pk mu sigEnc := by
  constructor
  · intro hverify
    -- a signature that is not one, or a `mu` of the wrong length, is not accepted
    cases hdecode : sigDecode v sigEnc with
    | none =>
      rw [verifyInternal, hdecode] at hverify
      exact nomatch hverify
    | some sig =>
      cases hmu : messageMu S (S.xof pk.encode 64) msgIsMu msg with
      | none =>
        rw [verifyInternal, hdecode] at hverify
        simp only [Key.filledPublic, hmu] at hverify
        exact nomatch hverify
      | some mu =>
        obtain ⟨parts, -, rfl⟩ := sigDecode_eq_some.mp hdecode
        exact ⟨mu, rfl, parts, rfl, (verifyInternal_encode hmu parts).mp hverify⟩
  · rintro ⟨mu, hmu, parts, rfl, haccepts⟩
    exact (verifyInternal_encode hmu parts).mpr haccepts

end Verify

end Ossl

end MlDsa
