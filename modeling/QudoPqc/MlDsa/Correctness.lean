import QudoPqc.MlDsa.Delegation

/-!
# Signatures verify

A signature that a round of signing gives is accepted by verification. For a key with
`t = A s1 + s2 = t1 2 ^ d + t0` and a response `z = y + c s1`, what the verifier computes is

  `A z - c t1 2 ^ d = w - c s2 + c t0`,

an identity of the ring (`wApprox_response`). The signer's tests bound the low bits of `w - c s2`,
so that it has the high bits of `w`, and bound `c t0`, so that the hint leads from `w - c s2 + c t0`
back to the high bits of `w - c s2`.

Nothing of this is particular to one implementation. With the comparisons of OpenSSL's functions and
the engine's with FIPS 204 it holds between any two of them, for every key object that the
operations on key objects can produce (`qudo_sign_verifies`).
-/

namespace MlDsa

open Fips204

namespace Fips204

variable {v : Variant} (S : Sampling v)

/-! ## Hints -/

/-- The hint leads back to the high bits of the residue that was moved. -/
theorem useHint_makeHint {r : ZMod q} {t : ℤ} (ht : |t| < v.gamma2) :
    useHint v (makeHint v (t : ZMod q) r) r = highBits v (r + (t : ZMod q)) := by
  have hsplit := decompose_isSplit v r
  have hmoved := decompose_isSplit v (r + (t : ZMod q))
  rw [useHint, makeHint]
  by_cases hne : highBits v r = highBits v (r + (t : ZMod q))
  · rw [if_neg (by rw [decide_eq_true_iff, not_not]; exact hne), hne]
  · have hnext := hsplit.high_eq_neighbour hmoved ht (Ne.symm hne)
    rw [if_pos (decide_eq_true hne)]
    exact hnext.symm

/-- A residue is made up of its high and its low part. -/
theorem power2Round_sum (r : ZMod q) :
    (((power2Round r).1 * 2 ^ dBits + (power2Round r).2 : ℤ) : ZMod q) = r := by
  have hdvd : (2 ^ dBits : ℤ) ∣ r.val - modPm r.val (2 ^ dBits) := by
    obtain ⟨-, -, t, ht⟩ := modPm_spec (r.val : ℤ) (show (0 : ℤ) < 2 ^ dBits by norm_num)
    exact ⟨t, by omega⟩
  rw [power2Round, Int.ediv_mul_cancel hdvd, sub_add_cancel, Int.cast_natCast,
    ZMod.natCast_zmod_val]

/-! ## The ring -/

open Negacyclic

theorem toAdjoinRoot_dot {n : ℕ} (a b : PolyVec n (ZMod q)) :
    toAdjoinRoot (dot a b) = ∑ j, toAdjoinRoot (a j) * toAdjoinRoot (b j) := by
  have hdot : dot a b = ∑ j, negacyclic (a j) (b j) := by
    funext i
    rw [Finset.sum_apply]
    rfl
  rw [hdot, toAdjoinRoot_sum]
  exact Finset.sum_congr rfl fun j _ ↦ adjoinRoot_negacyclic (a j) (b j)

section Round

variable {S} {sk : SecretKey v} {mu rhoPrime : Bytes} {kappa : ℕ}

/-- `t = t1 2 ^ d + t0`, for the public key that belongs to a private key. -/
theorem publicVector_eq (hsk : sk.Consistent S) (i : Fin v.k) :
    publicVector S sk.rho sk.s1 sk.s2 i =
      (fun j ↦ (((sk.publicKey S).t1 i j * 2 ^ dBits : ℤ) : ZMod q)) + (sk.t0 i).residue := by
  funext j
  have hsum := power2Round_sum (publicVector S sk.rho sk.s1 sk.s2 i j)
  rw [← hsk.t0_eq, Int.cast_add] at hsum
  exact hsum.symm

/-- What the verifier computes, in terms of the signer's values. -/
theorem wApprox_response (hsk : sk.Consistent S) {z : PolyVec v.l ℤ}
    (hz : ∀ i, (z i).residue = response S sk mu rhoPrime kappa i) (i : Fin v.k) :
    wApprox S (sk.publicKey S) (commitmentHash S sk mu rhoPrime kappa) z i =
      remainder S sk mu rhoPrime kappa i + scaled S sk mu rhoPrime kappa sk.t0 i := by
  have hkey := congrArg toAdjoinRoot (publicVector_eq hsk i)
  rw [publicVector, toAdjoinRoot_add, toAdjoinRoot_add, toAdjoinRoot_dot] at hkey
  refine toAdjoinRoot_injective ?_
  have hrem : remainder S sk mu rhoPrime kappa i =
      commitment S sk rhoPrime kappa i - scaled S sk mu rhoPrime kappa sk.s2 i := rfl
  have hrho : (sk.publicKey S).rho = sk.rho := rfl
  have hchallenge : S.sampleInBall (commitmentHash S sk mu rhoPrime kappa) =
      challenge S sk mu rhoPrime kappa := rfl
  rw [wApprox, hrho, hchallenge, hrem, toAdjoinRoot_sub, toAdjoinRoot_add, toAdjoinRoot_sub,
    toAdjoinRoot_dot, commitment, toAdjoinRoot_dot, scaled, scaled, adjoinRoot_negacyclic,
    adjoinRoot_negacyclic, adjoinRoot_negacyclic]
  simp only [hz, response, scaled, toAdjoinRoot_add, adjoinRoot_negacyclic, mul_add,
    Finset.sum_add_distrib, mul_left_comm (toAdjoinRoot (S.expandA _ _ _)), ← Finset.mul_sum]
  linear_combination (toAdjoinRoot (challenge S sk mu rhoPrime kappa).coeff.residue) * hkey

/-- The signer's tests leave the high bits of `w` alone. -/
theorem highBits_remainder (hpass : Passes S sk mu rhoPrime kappa) (i : Fin v.k)
    (j : Fin numCoeff) :
    highBits v (remainder S sk mu rhoPrime kappa i j) =
      highBits v (commitment S sk rhoPrime kappa i j) := by
  have hshort := Native.abs_negacyclic_short (c := challenge S sk mu rhoPrime kappa)
    (sk.s2_short i) j
  have hcs2 : ((negacyclic (challenge S sk mu rhoPrime kappa).coeff (sk.s2 i) j : ℤ) : ZMod q) =
      scaled S sk mu rhoPrime kappa sk.s2 i j :=
    congrFun (Native.residue_negacyclic _ _) j
  generalize negacyclic (challenge S sk mu rhoPrime kappa).coeff (sk.s2 i) j = e at hshort hcs2
  have hback : remainder S sk mu rhoPrime kappa i j + (e : ZMod q) =
      commitment S sk rhoPrime kappa i j := by
    rw [hcs2, remainder, sub_add_cancel]
  have hsplit := decompose_isSplit v (remainder S sk mu rhoPrime kappa i j)
  have hmoved := decompose_isSplit v (remainder S sk mu rhoPrime kappa i j + (e : ZMod q))
  have hlow : |lowBits v (remainder S sk mu rhoPrime kappa i j) + e| < v.gamma2 := by
    have hsum := abs_add_le (lowBits v (remainder S sk mu rhoPrime kappa i j)) e
    have htest := hpass.remainder i j
    linarith
  rw [← hback]
  exact ((hsplit.add_of_abs_lt hlow).unique hmoved).1

/-- A round that is not rejected gives a signature that is accepted. -/
theorem accepts_of_passes (hsk : sk.Consistent S) (hpass : Passes S sk mu rhoPrime kappa) :
    Accepts S (sk.publicKey S) mu
      (sigEncode (commitmentHash S sk mu rhoPrime kappa)
        (fun i j ↦ (response S sk mu rhoPrime kappa i j).valMinAbs)
        (hint S sk mu rhoPrime kappa)) := by
  have hgamma : (v.beta : ℤ) < v.gamma1 := by exact_mod_cast v.beta_lt_gamma1
  have hrange : ∀ i j, -(v.gamma1 : ℤ) < (response S sk mu rhoPrime kappa i j).valMinAbs ∧
      (response S sk mu rhoPrime kappa i j).valMinAbs ≤ v.gamma1 := by
    intro i j
    have htest := abs_lt.mp (hpass.response i j)
    omega
  have hz : ∀ i, Poly.residue (fun j ↦ (response S sk mu rhoPrime kappa i j).valMinAbs) =
      response S sk mu rhoPrime kappa i := fun i ↦ funext fun j ↦ ZMod.coe_valMinAbs _
  have hhigh : (fun i j ↦ useHint v (hint S sk mu rhoPrime kappa i j)
      (wApprox S (sk.publicKey S) (commitmentHash S sk mu rhoPrime kappa)
        (fun i j ↦ (response S sk mu rhoPrime kappa i j).valMinAbs) i j)) =
      commitmentHigh S sk rhoPrime kappa := by
    funext i j
    have ht := hpass.ct0 i j
    rw [← abs_neg] at ht
    have hmove := useHint_makeHint (r := remainder S sk mu rhoPrime kappa i j +
      scaled S sk mu rhoPrime kappa sk.t0 i j) ht
    rw [Int.cast_neg, ZMod.coe_valMinAbs, add_neg_cancel_right, highBits_remainder hpass] at hmove
    rw [wApprox_response hsk hz]
    exact hmove
  refine ⟨⟨commitmentHash S sk mu rhoPrime kappa, _, hint S sk mu rhoPrime kappa,
    S.length_xof _ _, hrange, hpass.ones_le⟩, ?_, ?_, ?_⟩
  · rw [SignatureParts.encode]
  · dsimp only
    exact hpass.response
  · dsimp only
    rw [hhigh, commitmentHash]

end Round

end Fips204

/-! ## Key objects -/

namespace Ossl

open Fallible

variable {v : Variant} {S : Sampling v} {P : Native.Products v}

/-- `qudo_verify` accepts what FIPS 204 accepts, for an object with the encoding of a public key. -/
theorem qudoVerify_of_accepts {key : Key v} {pk : PublicKey v} {msgIsMu : Bool}
    {msg sig mu : Bytes} (hpub : key.pubEncoding = some pk.encode)
    (hmu : messageMu S (S.xof pk.encode 64) msgIsMu msg = some mu)
    (haccepts : Accepts S pk mu sig) : qudoVerify S P key msgIsMu msg sig = true := by
  have hlen : sig.length = v.params.sigLen := by
    obtain ⟨parts, rfl, -⟩ := haccepts
    exact length_sigEncode parts
  have hmsg : msgIsMu = true → msg.length = 64 := by
    rintro rfl
    by_contra hne
    rw [messageMu_eq_none hne] at hmu
    exact Option.some_ne_none mu hmu.symm
  have hok : (msgIsMu && msg.length != 64) = false := by
    cases msgIsMu with
    | false => rfl
    | true => rw [hmsg rfl]; rfl
  obtain rfl : Native.messageMu S (S.xof pk.encode 64) [] msg msgIsMu = mu :=
    Option.some.inj ((messageMu_eq hmsg).symm.trans hmu)
  rw [qudoVerify, if_neg (not_not.mpr hlen), hok, if_neg Bool.false_ne_true, hpub]
  exact (Native.signVerifyInternal_iff pk).mpr haccepts

/-- Signing for the object of a private key gives something FIPS 204 accepts, on both sides. -/
theorem accepts_of_sign {key : Key v} {sk : SecretKey v} (hsk : sk.Consistent S)
    {msgIsMu : Bool} {msg rnd out sig : Bytes} (hrnd : rnd.length = 32)
    (hout : out.length = v.params.sigLen)
    (hsign : qudoSign S P (key.filled (sk.publicKey S) sk) msgIsMu msg (some rnd) out =
        (some (), sig) ∨
      ∃ rounds, signInternal S rounds (key.filled (sk.publicKey S) sk) msgIsMu msg rnd =
        some (some sig)) :
    ∃ mu, messageMu S sk.tr msgIsMu msg = some mu ∧
      Accepts S (sk.publicKey S) mu sig := by
  have hround : ∀ {mu rhoPrime left i}, firstSome (fun i ↦
      Fips204.signAttempt S sk mu rhoPrime (v.l * i)) left i = some sig →
      Accepts S (sk.publicKey S) mu sig := by
    intro mu rhoPrime left i h
    obtain ⟨j, hj⟩ := exists_of_firstSome h
    obtain ⟨hpass, rfl⟩ := (signAttempt_eq_some S sk mu rhoPrime (v.l * j)).mp hj
    exact accepts_of_passes hsk hpass
  rcases hsign with hsign | ⟨rounds, hsign⟩
  · have hmsg : msgIsMu = true → msg.length = 64 := by
      rintro rfl
      simp only [qudoSign, Act.ofOption_some_bind, Act.require_bind_eq_some] at hsign
      exact beq_iff_eq.mp hsign.2.1
    refine ⟨_, messageMu_eq hmsg, hround ((qudoSign_filled hrnd hmsg (messageMu_eq hmsg) hout).mp
      hsign)⟩
  · cases hmu : messageMu S sk.tr msgIsMu msg with
    | none =>
      rw [signInternal] at hsign
      simp only [Key.filled, hmu] at hsign
      exact absurd (Option.some.inj hsign).symm (Option.some_ne_none sig)
    | some mu =>
      rw [signInternal_filled hmu, Option.map_eq_some_iff] at hsign
      obtain ⟨sig', hfirst, heq⟩ := hsign
      cases heq
      exact ⟨mu, rfl, hround hfirst⟩

/-- After every history with a correct engine, a signature that either implementation returns for
the key object is accepted by the engine's verification with the object itself, and by both with any
object that its public encoding is decoded into. -/
theorem qudo_sign_verifies (S : Sampling v) (P P' : Native.Products v) (calls : List Invocation)
    (hcalls : Along (perform S) (Generates S) calls keyNew) {pub enc : Bytes}
    (hpub : (after (perform S) calls keyNew).pubEncoding = some pub)
    (henc : (after (perform S) calls keyNew).privEncoding = some enc) (msgIsMu : Bool)
    {msg rnd out sig : Bytes} (hrnd : rnd.length = 32) (hout : out.length = v.params.sigLen)
    (hsign : qudoSign S P (after (perform S) calls keyNew) msgIsMu msg (some rnd) out =
        (some (), sig) ∨
      ∃ rounds, signInternal S rounds (after (perform S) calls keyNew) msgIsMu msg rnd =
        some (some sig)) :
    qudoVerify S P' (after (perform S) calls keyNew) msgIsMu msg sig = true ∧
      ∀ ok key₀ u verifier, (pkDecode S ok pub).run key₀ = (some u, verifier) →
        qudoVerify S P' verifier msgIsMu msg sig = true ∧
          verifyInternal S verifier msgIsMu msg sig = true := by
  have hsound : (after (perform S) calls keyNew).Sound S :=
    hcalls.invariant sound_perform (.unloaded unloaded_keyNew)
  obtain ⟨sk, hsk, hkey, rfl, -, -⟩ := hsound.pair_of_encodings hpub henc
  rw [hkey] at hsign
  obtain ⟨mu, hmu, haccepts⟩ := accepts_of_sign hsk hrnd hout hsign
  rw [hsk.tr_eq] at hmu
  refine ⟨qudoVerify_of_accepts hpub hmu haccepts, fun ok key₀ u verifier hdecode ↦ ?_⟩
  obtain ⟨-, pk, hpk, rfl⟩ := (pkDecode_eq_some S ok).mp hdecode
  obtain rfl := PublicKey.encode_injective hpk
  exact ⟨qudoVerify_of_accepts rfl hmu haccepts, verifyInternal_iff.mpr ⟨mu, hmu, haccepts⟩⟩

/-- A key generated from a seed: what it signs verifies. -/
theorem qudo_sign_verifies_idle :
    let S := idleSampling .mlDsa87
    let key := after (perform S) (generatedFromSeed S) keyNew
    ∃ sig, qudoSign S (Native.engineProducts .mlDsa87) key false [1, 2, 3]
      (some (List.replicate 32 7))
        (List.replicate 4627 0) = (some (), sig) ∧
      qudoVerify S (Native.engineProducts .mlDsa87) key false [1, 2, 3] sig = true := by
  intro S key
  have hkey := after_generatedFromSeed S
  have hrnd : (List.replicate 32 (7 : UInt8)).length = 32 := List.length_replicate
  have hout : (List.replicate 4627 (0 : UInt8)).length = Variant.mlDsa87.params.sigLen :=
    List.length_replicate
  obtain ⟨sig, hsign⟩ := exists_qudoSign_idle (Native.engineProducts .mlDsa87)
    { (keyNew : Key .mlDsa87) with seed := some ⟨List.replicate 32 7, List.length_replicate⟩ }
    (keyGen S (List.replicate 32 7)).1 (keyGen S (List.replicate 32 7)).2
    [1, 2, 3] hrnd hout
  have hsign' : qudoSign S (Native.engineProducts .mlDsa87) key false [1, 2, 3]
      (some (List.replicate 32 7)) (List.replicate 4627 0) = (some (), sig) := by
    rw [show key = after (perform S) (generatedFromSeed S) keyNew from rfl, hkey]
    exact hsign
  exact ⟨sig, hsign', (qudo_sign_verifies S (Native.engineProducts .mlDsa87)
    (Native.engineProducts .mlDsa87) _
    (along_generatedFromSeed S) (congrArg Key.pubEncoding hkey) (congrArg Key.privEncoding hkey)
    false hrnd hout (.inl hsign')).1⟩

end Ossl

end MlDsa
