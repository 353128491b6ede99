import QudoPqc.MlDsa.KeyHistory
import QudoPqc.MlDsa.NativeNtt
import QudoPqc.MlDsa.Upstream

/-!
# Delegated signing and verification

`qudo_sign` and `qudo_verify` of `ml_dsa_sign.c`, which replace `ml_dsa_sign_internal` and
`ml_dsa_verify_internal` in the delegated build. They take the encodings of the key object, check
the lengths the engine relies on, and call the engine through `QUDO_MLDSA_sign_internal` and
`QUDO_MLDSA_verify_internal`, which dispatch on the parameter set.

Both sides are compared with FIPS 204, and so with one another. The engine gives up after
`nonceUb` rounds, where OpenSSL goes on; a signature found by then is OpenSSL's
(`qudo_sign_eq_upstream`). Verification agrees on every byte string (`qudo_verify_eq_upstream`).
-/

namespace MlDsa

open Codec Fallible Fallible.Act Fips204

namespace Ossl

variable {v : Variant} (S : Sampling v) (P : Native.Products v)

/-! ## The functions -/

/-- `qudo_sign`, in the buffer for the signature. -/
def qudoSign (priv : Key v) (msgIsMu : Bool) (encodedMsg : Bytes) (rnd : Option Bytes) :
    Act Bytes Unit := do
  let rnd ← ofOption rnd
  require (rnd.length == 32)
  require (!msgIsMu || encodedMsg.length == 64)
  let sk ← ofOption priv.privEncoding
  let sigLen ← Native.signSignatureInternal S P encodedMsg [] rnd sk msgIsMu
  require (sigLen == v.params.sigLen)

/-- `qudo_verify`. -/
def qudoVerify (pub : Key v) (msgIsMu : Bool) (msgEnc sigEnc : Bytes) : Bool :=
  if sigEnc.length ≠ v.params.sigLen then false
  else if msgIsMu && msgEnc.length != 64 then false
  else
    match pub.pubEncoding with
    | none => false
    | some pk => Native.signVerifyInternal S P sigEnc msgEnc [] pk msgIsMu

/-! ## Signing -/

section Sign

variable {S P}

/-- With no message representative of the wrong length, both sides derive the same one. -/
theorem messageMu_eq {tr msg : Bytes} {msgIsMu : Bool}
    (h : msgIsMu = true → msg.length = 64) :
    messageMu S tr msgIsMu msg = some (Native.messageMu S tr [] msg msgIsMu) := by
  rw [messageMu, Native.messageMu]
  cases msgIsMu with
  | false => rfl
  | true =>
    rw [if_pos rfl, if_neg (not_not.mpr (h rfl)), if_pos rfl, List.take_of_length_le (h rfl).le]

theorem messageMu_eq_none {tr msg : Bytes} (h : msg.length ≠ 64) :
    messageMu S tr true msg = none := by
  rw [messageMu, if_pos rfl, if_pos h]

/-- The rounds of both sides, for the key object of a private key. -/
theorem signInternal_filled {key : Key v} {pk : PublicKey v} {sk : SecretKey v}
    {msgIsMu : Bool} {msg rnd mu : Bytes} (hmu : messageMu S sk.tr msgIsMu msg = some mu)
    (rounds : ℕ) :
    signInternal S rounds (key.filled pk sk) msgIsMu msg rnd =
      (firstSome (fun i ↦ Fips204.signAttempt S sk mu (S.xof (sk.K ++ (rnd ++ mu)) 64) (v.l * i))
        rounds 0).map some := by
  rw [signInternal]
  simp only [Key.filled, hmu]
  exact signLoop_eq S sk mu _ rounds 0

/-- `qudo_sign` finds the first round that passes, for the key object of a private key. -/
theorem qudoSign_filled {key : Key v} {pk : PublicKey v} {sk : SecretKey v}
    {msgIsMu : Bool} {msg rnd mu out sig : Bytes} (hrnd : rnd.length = 32)
    (hmsg : msgIsMu = true → msg.length = 64) (hmu : messageMu S sk.tr msgIsMu msg = some mu)
    (hout : out.length = v.params.sigLen) :
    qudoSign S P (key.filled pk sk) msgIsMu msg (some rnd) out = (some (), sig) ↔
      firstSome (fun i ↦ Fips204.signAttempt S sk mu (S.xof (sk.K ++ (rnd ++ mu)) 64) (v.l * i))
        v.nonceUb 0 = some sig := by
  have hlen : (!msgIsMu || msg.length == 64) = true := by
    cases msgIsMu with
    | false => rfl
    | true => rw [hmsg rfl]; rfl
  obtain rfl : Native.messageMu S sk.tr [] msg msgIsMu = mu :=
    Option.some.inj ((messageMu_eq hmsg).symm.trans hmu)
  have hengine : ∀ n t, Native.signSignatureInternal S P msg [] rnd sk.encode msgIsMu out =
      (some n, t) ↔ _ := fun n t ↦ Native.signSignatureInternal_eq_some S P sk hout
  simp only [List.take_of_length_le hrnd.le] at hengine
  simp only [qudoSign, ofOption_some_bind, Key.filled, require_bind_eq_some]
  rw [bind_eq_some]
  simp only [hengine, require_eq_some, beq_iff_eq]
  constructor
  · rintro ⟨-, -, n, t, ⟨-, hfirst⟩, -, rfl⟩
    exact hfirst
  · intro hfirst
    exact ⟨hrnd, hlen, _, sig, ⟨rfl, hfirst⟩, rfl, rfl⟩

/-- Delegated signing is OpenSSL's. For the key object that `ossl_ml_dsa_sk_decode` has filled,
every message and every 32-byte `rnd`, `qudo_sign` returns a signature if and only if
`ml_dsa_sign_internal` returns the same one in as many rounds as the engine allows itself. -/
theorem qudo_sign_eq_upstream (S : Sampling v) (P : Native.Products v) (ok : Call → Bool)
    (src : Source) {key₀ key : Key v} {u : Unit}
    (hkey : (skDecode S ok src).run key₀ = (some u, key)) (msgIsMu : Bool)
    {msg rnd out sig : Bytes} (hrnd : rnd.length = 32) (hout : out.length = v.params.sigLen) :
    qudoSign S P key msgIsMu msg (some rnd) out = (some (), sig) ↔
      ∀ rounds, v.nonceUb ≤ rounds →
        signInternal S rounds key msgIsMu msg rnd = some (some sig) := by
  obtain ⟨-, -, sk, -, -, rfl⟩ := (skDecode_eq_some S ok key₀).mp hkey
  by_cases hmsg : msgIsMu = true → msg.length = 64
  · have hmu : messageMu S sk.tr msgIsMu msg = some (Native.messageMu S sk.tr [] msg msgIsMu) :=
      messageMu_eq hmsg
    rw [qudoSign_filled hrnd hmsg hmu hout]
    simp only [signInternal_filled hmu, Option.map_eq_some_iff, Option.some.injEq,
      exists_eq_right]
    exact ⟨fun h rounds hle ↦ firstSome_mono h hle, fun h ↦ h _ le_rfl⟩
  · -- a message representative of the wrong length is refused on both sides
    obtain ⟨rfl, hlen⟩ := Classical.not_imp.mp hmsg
    have hbad : (!true || msg.length == 64) = false := beq_false_of_ne hlen
    refine iff_of_false (fun hsign ↦ ?_) fun hrounds ↦ ?_
    · simp only [qudoSign, ofOption_some_bind, require_bind_eq_some, hbad] at hsign
      exact Bool.false_ne_true hsign.2.1
    · have hnone := hrounds _ le_rfl
      rw [signInternal] at hnone
      simp only [Key.filled, messageMu_eq_none hlen] at hnone
      exact Option.some_ne_none _ (Option.some.inj hnone).symm

end Sign

section Idle

/-- Samplers with which no round is rejected: the mask, the matrix and the challenge are zero. -/
def idleSampling (v : Variant) : Sampling v :=
  { zeroSampling v with shake256 := fun _ i ↦ (bitPack v.gamma1 v.zBits 0).getD i 0 }

theorem expandMask_idle (rhoPrime : Bytes) (kappa : ℕ) :
    expandMask (idleSampling v) rhoPrime kappa = 0 := by
  funext i
  have hlen : (bitPack v.gamma1 v.zBits 0).length = 32 * v.zBits :=
    length_bitPack _ _ _
  have hbytes : (idleSampling v).xof (rhoPrime ++ storeLe 2 (kappa + i)) (32 * v.zBits) =
      bitPack v.gamma1 v.zBits 0 := by
    change List.ofFn (fun n : Fin (32 * v.zBits) ↦ (bitPack v.gamma1 v.zBits 0).getD n 0) = _
    refine List.ext_getElem (by rw [List.length_ofFn, hlen]) fun n hn hn' ↦ ?_
    rw [List.getElem_ofFn, List.getD_eq_getElem _ _ hn']
  have hroom : (2 : ℤ) ^ v.zBits = 2 * v.gamma1 := by cases v <;> rfl
  have hpos := v.beta_lt_gamma1
  obtain ⟨hrange, hpack⟩ := bitPack_bitUnpack v.gamma1 hlen
  have hread := Native.polyzUnpack_eq (v := v) (fun j ↦ by
      have hj := hrange j
      rw [hroom] at hj
      omega) ((List.take_of_length_le hlen.le).trans hpack.symm)
  have hzero := Native.polyzUnpack_eq (v := v) (z := 0) (fun j ↦ by
      rw [Pi.zero_apply]
      omega) (List.take_of_length_le hlen.le)
  rw [expandMask, hbytes, ← hread, hzero]
  rfl

theorem ones_false {n : ℕ} :
    ones (fun (_ : Fin n) (_ : Fin numCoeff) ↦ false) = 0 := by
  simp [ones, tally, rowBytes, positions]

/-- A row of the zero matrix. -/
theorem dot_idle (rho : Bytes) (i : Fin v.k) (y : PolyVec v.l (ZMod q)) :
    dot ((idleSampling v).expandA rho i) y = 0 := by
  funext j
  rw [dot]
  refine Finset.sum_eq_zero fun l _ ↦ ?_
  exact congrFun (Negacyclic.negacyclic_zero_left _) j

theorem negacyclic_idle (c : Bytes) (p : Poly (ZMod q)) :
    negacyclic ((idleSampling v).sampleInBall c).coeff.residue p = 0 := by
  have hc : ((idleSampling v).sampleInBall c).coeff.residue = 0 := funext fun _ ↦ Int.cast_zero
  rw [hc, Negacyclic.negacyclic_zero_left]

theorem passes_idle (sk : SecretKey v) (mu rhoPrime : Bytes) (kappa : ℕ) :
    Passes (idleSampling v) sk mu rhoPrime kappa := by
  have hbeta1 : (v.beta : ℤ) < v.gamma1 := by exact_mod_cast v.beta_lt_gamma1
  have hbeta2 : (v.beta : ℤ) < v.gamma2 := by exact_mod_cast v.beta_lt_gamma2
  have hscaled : ∀ {n : ℕ} (s : PolyVec n ℤ) i,
      scaled (idleSampling v) sk mu rhoPrime kappa s i = 0 := fun _ _ ↦ negacyclic_idle _ _
  have hresponse : ∀ i j, response (idleSampling v) sk mu rhoPrime kappa i j = 0 := by
    intro i j
    rw [response, hscaled, expandMask_idle, add_zero]
    exact Int.cast_zero
  have hremainder : ∀ i j, remainder (idleSampling v) sk mu rhoPrime kappa i j = 0 := by
    intro i j
    have hw : commitment (idleSampling v) sk rhoPrime kappa i j = 0 :=
      congrFun (dot_idle sk.rho i _) j
    rw [remainder, hw, hscaled, Pi.zero_apply, sub_zero]
  have hlow : Fips204.lowBits v 0 = 0 := by cases v <;> decide
  have hhint : hint (idleSampling v) sk mu rhoPrime kappa = fun _ _ ↦ false := by
    funext i j
    rw [hint, hremainder, hscaled, Fips204.makeHint, Pi.zero_apply, neg_zero, add_zero,
      add_zero, decide_eq_false_iff_not, not_not]
  refine ⟨fun i j ↦ ?_, fun i j ↦ ?_, fun i j ↦ ?_, ?_⟩
  · rw [hresponse, ZMod.valMinAbs_zero, abs_zero]
    omega
  · rw [hremainder, hlow, abs_zero]
    omega
  · rw [hscaled, Pi.zero_apply, ZMod.valMinAbs_zero, abs_zero]
    omega
  · rw [hhint, ones_false]
    exact Nat.zero_le _

/-- The first round passes. -/
theorem exists_qudoSign_idle (P : Native.Products v) (key : Key v) (pk : PublicKey v)
    (sk : SecretKey v) (msg : Bytes) {rnd out : Bytes} (hrnd : rnd.length = 32)
    (hout : out.length = v.params.sigLen) :
    ∃ sig, qudoSign (idleSampling v) P (key.filled pk sk) false msg (some rnd) out =
      (some (), sig) := by
  have hpos : 1 ≤ v.nonceUb := by cases v <;> decide +kernel
  obtain ⟨mu, hmu⟩ : ∃ mu, messageMu (idleSampling v) sk.tr false msg = some mu := ⟨_, rfl⟩
  obtain ⟨sig, hattempt⟩ : ∃ sig, Fips204.signAttempt (idleSampling v) sk mu
      ((idleSampling v).xof (sk.K ++ (rnd ++ mu)) 64) (v.l * 0) = some sig :=
    ⟨_, (signAttempt_eq_some _ _ _ _ _).mpr ⟨passes_idle _ _ _ _, rfl⟩⟩
  refine ⟨sig, (qudoSign_filled hrnd (fun h ↦ absurd h Bool.false_ne_true) hmu hout).mpr
    (firstSome_mono ?_ hpos)⟩
  rw [firstSome, hattempt]

/-- A key object, and samplers with which both sides return a signature. -/
theorem qudo_sign_eq_upstream_idle :
    let S := idleSampling .mlDsa44
    let sk := (keyGen S (List.replicate 32 0)).2
    let key := (keyNew : Key .mlDsa44).filled (sk.publicKey S) sk
    ∃ sig, qudoSign S (Native.engineProducts .mlDsa44) key false [1, 2, 3]
      (some (List.replicate 32 7))
        (List.replicate 2420 0) = (some (), sig) ∧
      ∀ rounds, Variant.nonceUb .mlDsa44 ≤ rounds →
        signInternal S rounds key false [1, 2, 3] (List.replicate 32 7) = some (some sig) := by
  intro S sk key
  have hkey : (skDecode S (fun _ ↦ true) (.buffer sk.encode)).run keyNew = (some (), key) :=
    (skDecode_eq_some S (fun _ ↦ true) keyNew).mpr
      ⟨⟨rfl, rfl, rfl, rfl⟩, ⟨rfl, .inr rfl, rfl, rfl, rfl, rfl, rfl, rfl, rfl⟩, sk, rfl,
        keyGen_consistent S _, rfl⟩
  have hrnd : (List.replicate 32 (7 : UInt8)).length = 32 := List.length_replicate
  have hout : (List.replicate 2420 (0 : UInt8)).length = Variant.mlDsa44.params.sigLen :=
    List.length_replicate
  obtain ⟨sig, hsign⟩ := exists_qudoSign_idle (Native.engineProducts .mlDsa44) keyNew
    (sk.publicKey S) sk
    [1, 2, 3] hrnd hout
  exact ⟨sig, hsign, (qudo_sign_eq_upstream S (Native.engineProducts .mlDsa44) _ _ hkey false hrnd
    hout).mp hsign⟩

end Idle

/-! ## Verification -/

/-- Delegated verification is OpenSSL's. For the key object that `ossl_ml_dsa_pk_decode` has filled,
`qudo_verify` and `ml_dsa_verify_internal` accept the same messages and signatures. -/
theorem qudo_verify_eq_upstream (S : Sampling v) (P : Native.Products v) (ok : Call → Bool)
    {input : Bytes} {key₀ key : Key v} {u : Unit}
    (hkey : (pkDecode S ok input).run key₀ = (some u, key)) (msgIsMu : Bool)
    (msg sig : Bytes) :
    qudoVerify S P key msgIsMu msg sig = verifyInternal S key msgIsMu msg sig := by
  obtain ⟨-, pk, -, rfl⟩ := (pkDecode_eq_some S ok).mp hkey
  rw [Bool.eq_iff_iff, verifyInternal_iff, qudoVerify]
  by_cases hlen : sig.length = v.params.sigLen
  · rw [if_neg (not_not.mpr hlen)]
    by_cases hmsg : msgIsMu = true → msg.length = 64
    · have hok : (msgIsMu && msg.length != 64) = false := by
        cases msgIsMu with
        | false => rfl
        | true => rw [hmsg rfl]; rfl
      rw [hok, if_neg Bool.false_ne_true, messageMu_eq hmsg]
      simp only [Key.filledPublic, Option.some.injEq, exists_eq_left']
      exact Native.signVerifyInternal_iff pk
    · obtain ⟨rfl, hbad⟩ := Classical.not_imp.mp hmsg
      have hrefused : (true && msg.length != 64) = true := bne_iff_ne.mpr hbad
      rw [messageMu_eq_none hbad, if_pos hrefused]
      refine iff_of_false Bool.false_ne_true ?_
      rintro ⟨mu, hmu, -⟩
      exact Option.some_ne_none mu hmu.symm
  · rw [if_pos hlen]
    refine iff_of_false Bool.false_ne_true ?_
    rintro ⟨mu, -, parts, rfl, -⟩
    exact hlen (length_sigEncode parts)

/-- A signature with a zero `z` and an empty hint. -/
def idleParts (v : Variant) (mu : Bytes) : SignatureParts v where
  cTilde := (idleSampling v).xof (mu ++ Fips204.w1Encode (v := v) fun _ _ ↦
    Fips204.highBits v 0) v.cTildeLen
  z := 0
  h := fun _ _ ↦ false
  length_cTilde := Sampling.length_xof _ _ _
  z_range := fun _ _ ↦ by
    have hpos := v.beta_lt_gamma1
    simp only [Pi.zero_apply]
    omega
  ones_le := by
    rw [ones_false]
    exact Nat.zero_le _

theorem accepts_idle (pk : PublicKey v) (mu : Bytes) :
    Accepts (idleSampling v) pk mu (idleParts v mu).encode := by
  have hbeta : (v.beta : ℤ) < v.gamma1 := by exact_mod_cast v.beta_lt_gamma1
  have hw : wApprox (idleSampling v) pk (idleParts v mu).cTilde (idleParts v mu).z = 0 := by
    funext i
    rw [wApprox, dot_idle, negacyclic_idle, sub_zero]
    rfl
  refine ⟨idleParts v mu, rfl, fun i j ↦ ?_, ?_⟩
  · have hz : (idleParts v mu).z i j = 0 := rfl
    rw [hz, abs_zero]
    omega
  · have hhint : ∀ i j, Fips204.useHint v ((idleParts v mu).h i j) 0 = Fips204.highBits v 0 :=
      fun i j ↦ if_neg Bool.false_ne_true
    rw [hw]
    simp only [Pi.zero_apply, hhint]
    rw [idleParts]

/-- The key object of an encoded public key, and a signature that both sides accept. -/
theorem qudo_verify_eq_upstream_idle :
    let S := idleSampling .mlDsa65
    let pk := (keyGen S (List.replicate 32 0)).1
    let key := (keyNew : Key .mlDsa65).filledPublic S pk
    let mu := List.replicate 64 5
    let sig := (idleParts .mlDsa65 mu).encode
    verifyInternal S key true mu sig = true ∧
      qudoVerify S (Native.engineProducts .mlDsa65) key true mu sig =
        verifyInternal S key true mu sig := by
  intro S pk key mu sig
  have hkey : (pkDecode S (fun _ ↦ true) pk.encode).run keyNew = (some (), key) :=
    (pkDecode_eq_some S (fun _ ↦ true)).mpr
      ⟨⟨rfl, rfl, rfl, rfl, rfl, rfl, rfl⟩, pk, rfl, rfl⟩
  have hmu : messageMu S (S.xof pk.encode 64) true mu = some mu :=
    (if_pos rfl).trans (if_neg (not_not.mpr List.length_replicate))
  exact ⟨verifyInternal_iff.mpr ⟨mu, hmu, accepts_idle pk mu⟩,
    qudo_verify_eq_upstream S (Native.engineProducts .mlDsa65) _ hkey true mu sig⟩

end Ossl

end MlDsa
