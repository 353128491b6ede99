import QudoPqc.MlKem.Engine
import QudoPqc.MlKem.Upstream

/-!
# The delegated build against the upstream build

With `QUDO_PQC_DELEGATE` the key generation, the encapsulation and the decapsulation of ML-KEM are
those of the engine: the adapters in `ml_kem.c` pass encodings to it and read encodings back. The
upstream functions work on the vectors of the key object. Here the two are compared on one and the
same object.
-/

namespace MlKem

open Codec Fallible Fallible.Act Fips203
open Fallible.Traced (run_bind run_cleanup run_fetch run_ofOption run_require)

namespace Ossl

variable {v : Variant}

/-! ## Key generation -/

section Generation

variable (H : Primitives) {ok : Call → Bool}

/-- The two builds leave objects that differ in the matrix only. -/
theorem withSeed_withPrivate_upstream (key : Key v) (sk : SecretKey v)
    (seed : Bytes) :
    (key.withPrivate H .delegated sk).withSeed seed =
      { (key.withPrivate H .upstream sk).withSeed seed with
        m := ((key.withPrivate H .delegated sk).withSeed seed).m } := rfl

/-- The key generation of the delegated build leaves what upstream leaves, but for the matrix. -/
theorem kem_genkey_refines (key : Key v) (p : Storage v) (hok : ∀ c, ok c = true)
    {engine : KeypairEngine} {seed : Bytes} (hseed : seed.length = 64)
    (hengine : engine seed = some ((keyGenSeed H v seed hseed).pub.encode,
      (keyGenSeed H v seed hseed).encode H)) (pubenc : Bool) :
    ∃ (pub : Option Bytes) (delegated upstream : Key v),
      (qudoGenkey H ok engine seed pubenc).run (key.addStorage p true) = (some pub, delegated) ∧
      (genkey H ok seed pubenc).run (key.addStorage p true) = (some pub, upstream) ∧
      delegated = { upstream with m := delegated.m } ∧
      delegated.deref delegated.d = (if key.retainSeed then some (seed.take 32) else none) ∧
      (key.retainSeed = false → delegated.mem .zbufHigh = .zero) ∧
      (∀ len, delegated.encodePublicKey len = upstream.encodePublicKey len) ∧
      (∀ len, delegated.encodePrivateKey len = upstream.encodePrivateKey len) ∧
      (∀ len, delegated.encodeSeed len = upstream.encodeSeed len) ∧
      ∀ other, delegated.pubkeyCmp other = upstream.pubkeyCmp other ∧
        other.pubkeyCmp delegated = other.pubkeyCmp upstream := by
  let stored := key.addStorage p true
  let sk := keyGenSeed H v seed hseed
  have hdelegated : (qudoGenkey H ok engine seed pubenc).run stored = _ :=
    (qudoGenkey_eq_some_of_storage stored rfl rfl rfl hseed
      fun pair hpair ↦ Option.some.inj (hpair.symm.trans hengine)).mpr
    ⟨⟨hok _, hok _, hok _, hok _⟩, by rw [hengine]; rfl, rfl, rfl⟩
  refine ⟨_, _, _, hdelegated, run_genkey stored rfl rfl rfl hseed hok pubenc,
    withSeed_withPrivate_upstream H stored sk seed, ?_, ?_, fun _ ↦ rfl, fun _ ↦ rfl, fun _ ↦ rfl,
    fun _ ↦ ⟨rfl, rfl⟩⟩
  · change ((stored.withPrivate H .delegated sk).withSeed seed).deref
      (if key.retainSeed then some .zbufHigh else none) = _
    split
    next h =>
      change some (if key.retainSeed then (⟨.d, seed.take 32⟩ : Contents) else .zero).bytes = _
      rw [if_pos h]
    next h => rfl
  · intro h
    change (if key.retainSeed then (⟨.d, seed.take 32⟩ : Contents) else .zero) = _
    rw [h]
    rfl

theorem kem_genkey_refines_sevens :
    ∃ pub delegated,
      (qudoGenkey zeroPrimitives (fun _ ↦ true) (fips203Engine zeroPrimitives .mlKem768) sevens
        true).run ((keyNew : Key .mlKem768).addStorage .blank true) = (some pub, delegated) ∧
      delegated.deref delegated.d = some (sevens.take 32) := by
  have hengine : fips203Engine zeroPrimitives .mlKem768 sevens = some _ := dif_pos length_sevens
  obtain ⟨pub, delegated, -, hrun, -, -, hd, -⟩ :=
    kem_genkey_refines zeroPrimitives (keyNew : Key .mlKem768) .blank (fun _ ↦ rfl) length_sevens
      hengine true
  exact ⟨pub, delegated, hrun, hd⟩

end Generation

/-! ## Encapsulation and decapsulation -/

section Encapsulation

variable {H : Primitives} {ok : Call → Bool} {key : Key v} {pk : PublicKey v}
  {sk : SecretKey v} {P : Native.Kpke}

variable (H) in
/-- The object as the upstream build has it: with the matrix of its matrix seed. -/
def Key.expanded (key : Key v) : Key v :=
  { key with m := (key.deref key.rho).map (matrixExpand H v.rank) }

theorem Key.HoldsPublic.m_expanded (h : key.HoldsPublic H pk) :
    (key.expanded H).m = some (matrixExpand H v.rank pk.rho) := by
  rw [expanded, deref, h.rho_eq, Option.map_some, Option.map_some, h.mem_low]

theorem Key.HoldsPublic.encryptCpa (h : key.HoldsPublic H pk) (hok : ∀ c, ok c = true)
    (m r : Bytes) :
    Ossl.encryptCpa H ok (key.expanded H) m r = some (encrypt H pk m r) := by
  have ht : (key.expanded H).t = some pk.t.repr := h.t_eq
  exact encryptCpa_eq ht h.m_expanded (hok _) m r

/-- `encap` on an object that holds a public key. -/
theorem run_encap (h : key.HoldsPublic H pk) (hok : ∀ c, ok c = true) (entropy : Bytes) :
    (encap H ok entropy).run (key.expanded H) =
      (some (encaps H pk entropy), key.expanded H) := by
  have hpkhash : (key.expanded H).deref (key.expanded H).pkhash = some (H.sha3_256 pk.encode) :=
    h.deref_pkhash
  rw [encap, run_bind, run_fetch, fetch_bind, run_bind, run_ofOption, hpkhash, ofOption_some_bind,
    run_bind, run_require, require_bind (hok _), run_bind, run_ofOption, h.encryptCpa hok,
    ofOption_some_bind]
  rfl

/-- `decap` on an object that holds a private key. -/
theorem run_decap (h : key.HoldsPrivate H sk) (hok : ∀ c, ok c = true) {ctext : Bytes}
    (hlen : ctext.length = v.ctextBytes) :
    (decap H ok ctext).run (key.expanded H) =
      (some (decaps H sk ctext), key.expanded H) := by
  have hpkhash : (key.expanded H).deref (key.expanded H).pkhash = some (H.sha3_256 sk.pub.encode) :=
    h.deref_pkhash
  have hz : (key.expanded H).deref (key.expanded H).z = some sk.z := h.deref_z
  have hs : (key.expanded H).s = some sk.s.repr := h.s_eq
  rw [decap, run_bind, run_fetch, fetch_bind, run_bind, run_require, require_bind (hok _), run_bind,
    run_ofOption, hz, ofOption_some_bind, run_bind, run_ofOption, decryptCpa_eq hs hlen,
    ofOption_some_bind, run_bind, run_ofOption, hpkhash, ofOption_some_bind, reencrypt,
    if_pos (hok _), h.encryptCpa hok]
  refine Prod.ext (congrArg some ?_) rfl
  exact if_congr eq_comm rfl rfl

/-- `qudo_encap` on an object that holds a public key. -/
theorem run_qudoEncap (h : key.HoldsPublic H pk) (hP : P.Correct H v) (hok : ∀ c, ok c = true)
    (entropy : Bytes) :
    (qudoEncap ok (Native.kemEncDerand H v P) entropy).run key =
      (some (encaps H pk entropy), key) := by
  rw [qudoEncap, run_bind, run_require, require_bind (hok _), run_bind, run_require,
    require_bind (hok _), run_bind, run_fetch, fetch_bind, run_bind, run_ofOption,
    h.encodePublicKey, ofOption_some_bind, run_ofOption, Native.kemEncDerand_encode hP]
  rfl

/-- `qudo_decap` on an object that holds a private key. -/
theorem run_qudoDecap (h : key.HoldsPrivate H sk) (hP : P.Correct H v) (hok : ∀ c, ok c = true)
    (ctext : Bytes) :
    (qudoDecap ok (Native.kemDec H v P) ctext).run key =
      (some (decaps H sk ctext), key) := by
  rw [qudoDecap, run_bind, run_require, require_bind (hok _), run_bind, run_require,
    require_bind (hok _), run_bind, run_fetch, fetch_bind, run_cleanup, cleanup_eq_some]
  refine ⟨key, ?_, rfl⟩
  rw [run_bind, run_ofOption, h.encodePrivateKey, ofOption_some_bind, run_ofOption,
    Native.kemDec_encode hP]
  rfl

/-- `ossl_ml_kem_encap_seed` in either build. -/
theorem run_encapSeed {encap : Bytes → Proc v (Bytes × Bytes)}
    (h : key.havePubkey = true) (hok : ∀ c, ok c = true) {entropy : Bytes}
    (hlen : entropy.length = 32) :
    (encapSeed ok encap v.ctextBytes 32 entropy).run key = (encap entropy).run key := by
  rw [encapSeed, run_bind, run_fetch, fetch_bind, run_bind, run_require, require_bind h, run_bind,
    run_require, require_bind]
  rw [hlen, hok]
  simp

/-- `ossl_ml_kem_decap` in either build. -/
theorem run_decapsulate {decap : Bytes → Proc v Bytes}
    (h : key.havePrvkey = true) (hok : ∀ c, ok c = true) {ctext : Bytes}
    (hlen : ctext.length = v.ctextBytes) :
    (decapsulate ok decap 32 ctext).run key = (decap ctext).run key := by
  rw [decapsulate, run_bind, run_fetch, fetch_bind, run_bind, run_require, require_bind h, run_bind,
    run_require, require_bind]
  rw [hlen, hok]
  simp

variable (H) in
/-- Whatever a key object has been through: if it has a public key, encapsulation in the delegated
build succeeds and returns what upstream returns, and so does decapsulation if it has a private key.
The secret is the rejection secret if the ciphertext is not that of the decrypted message. -/
theorem kem_delegation_agrees (calls : List Invocation)
    (h : Along (perform H) (Generates H) calls (keyNew : Key v)) (hP : P.Correct H v)
    (hok : ∀ c, ok c = true) :
    let key : Key v := after (perform H) calls keyNew
    (key.havePubkey = true → ∀ entropy : Bytes, entropy.length = 32 →
      ∃ ctext secret,
        (encapSeed ok (qudoEncap ok (Native.kemEncDerand H v P)) v.ctextBytes 32 entropy).run key =
          (some (ctext, secret), key) ∧
        (encapSeed ok (encap H ok) v.ctextBytes 32 entropy).run (key.expanded H) =
          (some (ctext, secret), key.expanded H)) ∧
    (key.havePrvkey = true → ∀ ctext : Bytes, ctext.length = v.ctextBytes →
      ∃ secret,
        (decapsulate ok (qudoDecap ok (Native.kemDec H v P)) 32 ctext).run key =
          (some secret, key) ∧
        (decapsulate ok (decap H ok) 32 ctext).run (key.expanded H) =
          (some secret, key.expanded H) ∧
        ∃ m pkhash z, decryptCpa key ctext = some m ∧ key.deref key.pkhash = some pkhash ∧
          key.deref key.z = some z ∧
          (encryptCpa H ok (key.expanded H) m ((H.sha3_512 (m ++ pkhash)).drop 32) ≠ some ctext →
            secret = H.xof (z ++ ctext) 32)) := by
  intro key
  have hkey : key.Sound H (lastSeed H calls (keyNew : Key v) none) :=
    sound_after calls h (.empty empty_keyNew)
  refine ⟨fun ht entropy hlen ↦ ?_, fun hs ctext hlen ↦ ?_⟩
  · obtain ⟨pk, hpk⟩ := hkey.holdsPublic ht
    have ht' : (key.expanded H).havePubkey = true := ht
    refine ⟨_, _, (run_encapSeed ht hok hlen).trans (run_qudoEncap hpk hP hok entropy), ?_⟩
    exact (run_encapSeed ht' hok hlen).trans (run_encap hpk hok entropy)
  · obtain ⟨sk, hsk, -⟩ := hkey.holdsPrivate hs
    have hs' : (key.expanded H).havePrvkey = true := hs
    refine ⟨_, (run_decapsulate hs hok hlen).trans (run_qudoDecap hsk hP hok ctext),
      (run_decapsulate hs' hok hlen).trans (run_decap hsk hok hlen), _, _, _,
      decryptCpa_eq hsk.s_eq hlen, hsk.deref_pkhash, hsk.deref_z, fun hne ↦ if_neg fun heq ↦ ?_⟩
    exact hne ((hsk.encryptCpa hok _ _).trans (congrArg some heq))

theorem kem_delegation_agrees_generated :
    let key : Key .mlKem768 :=
      after (perform zeroPrimitives) (generatedFromSeed zeroPrimitives .mlKem768) keyNew
    let P := Native.fips203Kpke zeroPrimitives .mlKem768
    ∃ ctext secret,
      (encapSeed (fun _ ↦ true)
        (qudoEncap (fun _ ↦ true) (Native.kemEncDerand zeroPrimitives .mlKem768 P)) 1088 32
        (sevens.take 32)).run key = (some (ctext, secret), key) := by
  intro key P
  have hkey : key = _ := after_generatedFromSeed
  have hpub : key.havePubkey = true := by
    rw [hkey]
    rfl
  have allOk : ∀ c : Call, (fun _ ↦ true : Call → Bool) c = true := fun _ ↦ rfl
  obtain ⟨hencap, -⟩ := kem_delegation_agrees zeroPrimitives
    (generatedFromSeed zeroPrimitives .mlKem768) along_generatedFromSeed
    (Native.correct_fips203Kpke _ _) allOk
  obtain ⟨ctext, secret, hrun, -⟩ := hencap hpub (sevens.take 32) rfl
  exact ⟨ctext, secret, hrun⟩

end Encapsulation

end Ossl

end MlKem
