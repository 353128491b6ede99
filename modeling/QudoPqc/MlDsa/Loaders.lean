import QudoPqc.MlDsa.Canonical
import QudoPqc.MlDsa.KeyAtomic
import QudoPqc.MlDsa.KeyGeneration

/-!
# The two loaders of ML-DSA private keys

`ossl_ml_dsa_sk_decode` recomputes the public key from `s1` and `s2`, and compares `t0` and `tr`
with what the private key repeats of it. `ossl_ml_dsa_keypair_decode`, which the delegated build
adds, is given the public key and compares `rho` and `tr` only. They agree on the public key that
belongs to the private key; the one difference is that the first drops the seed.
-/

namespace MlDsa

open Codec Fallible Fallible.Act Fips204
open Fallible.Traced (run_bind run_fetch run_onFailure run_require)

namespace Ossl

variable {v : Variant} {ok : Call → Bool} {key : Key v}

/-- `pkEncode(rho, Power2Round_high(A s1 + s2))`, with the vector `t0`, as the code computes them.
-/
def derivedPublic (S : Sampling v) (rho : Bytes) (p : PrivVectors v) :
    Bytes × PolyVec v.k ℕ :=
  let t := vectorPower2Round (vectorAdd (matrixMultVector (S.expandA rho) p.s1) p.s2)
  (rho ++ encodeVec polyEncode10Bits t.1, t.2)

theorem derivedPublic_eq (S : Sampling v) (sk : SecretKey v) :
    derivedPublic S sk.rho (.ofSecret sk) = ((sk.publicKey S).encode, PolyVec.repr fun i j ↦
      (Fips204.power2Round (publicVector S sk.rho sk.s1 sk.s2 i j)).2) := by
  have ht : vectorAdd (matrixMultVector (S.expandA sk.rho) sk.s1.repr) sk.s2.repr =
      PolyVec.val (publicVector S sk.rho sk.s1 sk.s2) := by
    rw [matrixMultVector_repr]
    exact vectorAdd_val _ sk.s2.residue
  have hpk : sk.rho ++ encodeVec polyEncode10Bits (sk.publicKey S).t1.repr =
      (sk.publicKey S).encode := by
    rw [encodeVec_polyEncode10Bits (sk.publicKey S).t1_range]
    rfl
  rw [derivedPublic, ← hpk]
  simp only [PrivVectors.ofSecret, ht, vectorPower2Round_val]
  rfl

/-- The derived public part agrees with what a private key repeats of it. -/
theorem consistent_of_derivedPublic (S : Sampling v) {sk : SecretKey v}
    (htr : sk.tr = S.xof (sk.publicKey S).encode 64)
    (ht0 : (derivedPublic S sk.rho (.ofSecret sk)).2 = sk.t0.repr) : sk.Consistent S := by
  refine ⟨fun i j ↦ ?_, htr⟩
  rw [derivedPublic_eq] at ht0
  have heq := (repr_t0_inj (fun i j ↦ (power2Round_range _).2) sk.t0_range).mp ht0
  exact (congrFun (congrFun heq i) j).symm

section Agreement

variable (S : Sampling v) (hok : ∀ c, ok c = true) (hkey : key.Empty)

include hok hkey

theorem skDecode_accepts (bytes : Bytes) (key' : Key v) :
    (skDecode S ok (.buffer bytes)).run key = (some (), key') ↔
      ∃ sk : SecretKey v, bytes = sk.encode ∧ sk.Consistent S ∧
        key' = { key with seed := none }.filled (sk.publicKey S) sk := by
  rw [skDecode_eq_some]
  simp [hkey.pubEncoding_eq, hkey.privEncoding_eq, hkey.t1_eq, hkey.priv_eq, hok, Source.mayFill,
    Source.bytes]

theorem keypairDecode_accepts (pk sk : Bytes) (key' : Key v) :
    (keypairDecode S ok pk sk).run key = (some (), key') ↔
      ∃ (pk' : PublicKey v) (sk' : SecretKey v), pk = pk'.encode ∧
        sk = sk'.encode ∧ pk'.rho = sk'.rho ∧ sk'.tr = S.xof pk'.encode 64 ∧
        key' = key.filled pk' sk' := by
  rw [keypairDecode_eq_some]
  simp [hkey.pubEncoding_eq, hkey.privEncoding_eq, hkey.t1_eq, hkey.priv_eq, hok]

omit hok hkey in
/-- A failed `ossl_ml_dsa_keypair_decode` leaves an empty object, if the two vectors it allocates
can be had. -/
theorem keypairDecode_failed_empty (hallocT1 : ok .allocT1 = true) (hallocS1 : ok .allocS1 = true)
    (pk sk : Bytes) :
    Triple Key.Empty (keypairDecode S ok pk sk).run (fun _ _ ↦ True) Key.Empty := by
  have ht1 : Triple Key.Empty (keyPubAlloc ok).run (fun _ key ↦ Key.priv (v := v) key = none)
      Key.Empty := by
    intro key hkey
    rw [(yields_keyPubAlloc ok key () _).mpr ⟨⟨hkey.t1_eq, hallocT1⟩, rfl, rfl⟩]
    exact ⟨fun _ _ ↦ hkey.priv_eq, nofun⟩
  have hpriv : Triple (fun key ↦ Key.priv (v := v) key = none) (keyPrivAlloc ok).run
      (fun _ _ ↦ True) Key.Empty := by
    intro key hnone
    rw [(yields_keyPrivAlloc ok key () _).mpr ⟨⟨hnone, hallocS1⟩, rfl, rfl⟩]
    exact ⟨fun _ _ ↦ trivial, nofun⟩
  rw [keypairDecode]
  simp only [run_bind, run_fetch, run_require, run_onFailure, run_resetKeepingSeed]
  -- from the allocations on, a failure resets the object
  exact .fetch_bind_any fun _ ↦ .require_keep fun _ ↦ .require_keep fun _ ↦ .bind ht1 fun _ ↦
    .bind hpriv fun _ ↦ .onFailure (.any _) fun _ _ ↦ ⟨rfl, rfl, rfl, rfl⟩

omit hok in
/-- The loaders agree where the public key is the one that belongs to the private key; and a pair
that is refused leaves an empty object with the seed it had. -/
theorem dsa_loaders_agree (pk sk : Bytes) :
    ((∀ c, ok c = true) →
      (∀ key₁, (skDecode S ok (.buffer sk)).run key = (some (), key₁) →
        key₁.pubEncoding = some pk →
        ∃ key₂, (keypairDecode S ok pk sk).run key = (some (), key₂) ∧
          key₁ = { key₂ with seed := none }) ∧
      ∀ key₂ p, (keypairDecode S ok pk sk).run key = (some (), key₂) → key₂.priv = some p →
        derivedPublic S key₂.rho p = (pk, p.t0) →
        ∃ key₁, (skDecode S ok (.buffer sk)).run key = (some (), key₁) ∧
          key₁ = { key₂ with seed := none }) ∧
    (ok .allocT1 = true → ok .allocS1 = true →
      ∀ key', (keypairDecode S ok pk sk).run key = (none, key') →
        key'.seed = key.seed ∧ key'.Empty) := by
  refine ⟨fun hok ↦ ⟨fun key₁ h hpub ↦ ?_, fun key₂ p h hp hderived ↦ ?_⟩,
    fun hallocT1 hallocS1 key' h ↦ ?_⟩
  · obtain ⟨sk', rfl, hsk, rfl⟩ := (skDecode_accepts S hok hkey sk key₁).mp h
    cases hpub
    exact ⟨_, (keypairDecode_accepts S hok hkey _ _ _).mpr
      ⟨sk'.publicKey S, sk', rfl, rfl, rfl, hsk.tr_eq, rfl⟩, rfl⟩
  · obtain ⟨pk', sk', rfl, rfl, hrho, htr, rfl⟩ :=
      (keypairDecode_accepts S hok hkey pk sk key₂).mp h
    cases hp
    have hderived' : derivedPublic S sk'.rho (.ofSecret sk') = (pk'.encode, sk'.t0.repr) := hderived
    obtain rfl : pk' = sk'.publicKey S := PublicKey.encode_injective
      (Prod.mk.inj (hderived'.symm.trans (derivedPublic_eq S sk'))).1
    have hsk : sk'.Consistent S :=
      consistent_of_derivedPublic S htr (congrArg Prod.snd hderived')
    exact ⟨_, (skDecode_accepts S hok hkey sk'.encode _).mpr ⟨sk', rfl, hsk, rfl⟩, rfl⟩
  · have hseed := keeps_seed_keypairDecode ok (S := S) pk sk key
    have hempty := (keypairDecode_failed_empty S hallocT1 hallocS1 pk sk key hkey).2
    rw [h] at hseed hempty
    exact ⟨hseed, hempty rfl⟩

end Agreement

/-- Both loaders accept the keys generated from a seed, and the second one refuses empty strings. -/
theorem dsa_loaders_agree_new :
    let S := zeroSampling .mlDsa65
    let keys := keyGen S (List.replicate 32 1)
    let refused := (keypairDecode S (fun _ ↦ true) [] []).run keyNew
    (∃ key₁ key₂, (skDecode S (fun _ ↦ true) (.buffer keys.2.encode)).run keyNew = (some (), key₁) ∧
      (keypairDecode S (fun _ ↦ true) keys.1.encode keys.2.encode).run keyNew = (some (), key₂) ∧
      key₁ = { key₂ with seed := none }) ∧
    refused.1 = none ∧ refused.2.seed = none ∧ refused.2.Empty := by
  intro S keys refused
  have hempty : (keyNew : Key .mlDsa65).Empty := ⟨rfl, rfl, rfl, rfl⟩
  have hrun := (skDecode_accepts S (fun _ ↦ rfl) hempty keys.2.encode _).mpr
    ⟨keys.2, rfl, keyGen_consistent S _, rfl⟩
  have hagree := @dsa_loaders_agree .mlDsa65 (fun _ ↦ true) keyNew S hempty
  obtain ⟨key₂, hpair, heq⟩ := ((hagree keys.1.encode _).1 fun _ ↦ rfl).1 _ hrun rfl
  have hnone : refused.1 = none := rfl
  exact ⟨⟨_, key₂, hrun, hpair, heq⟩, hnone, (hagree [] []).2 rfl rfl _ (Prod.ext hnone rfl)⟩

end Ossl

end MlDsa
