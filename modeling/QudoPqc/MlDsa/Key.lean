import QudoPqc.Fallible.Trace
import QudoPqc.MlDsa.PolyCodec
import QudoPqc.MlDsa.Ring

/-!
# ML-DSA keys

The key object of `ml_dsa_key.c` and the functions of `ml_dsa_key.c` and `ml_dsa_encoders.c` that
fill it in, copy it and clear it: prekeys, the decoders, key generation as OpenSSL has it
(`keygenInternal`), the delegated key generation (`qudoKeygen`, with the engine's
`QUDO_MLDSA_keypair_internal` as a parameter) and `ossl_ml_dsa_generate_key`, which runs either.

## Failures

Allocations, digests and sampling can fail. `Call` names these calls, and a function
`ok : Call → Bool` says which of them succeed in a run. A failed call leaves its output as it was;
the code never reads such an output.

## Released memory

Each function also emits the private buffers it releases, and its private local buffers when it
returns, with what they contain then (`Released`). Buffers that only ever hold public data or
have not been written yet are not recorded. A buffer that keeps its contents until it is released
is recorded where its contents are final.
-/

namespace MlDsa

open Codec Fallible Fallible.Traced Fips204

namespace Ossl

variable {v : Variant}

/-! ## The key object -/

/-- `ML_DSA_SEED_BYTES` bytes. -/
abbrev Seed : Type := { s : Bytes // s.length = 32 }

/-- A byte string as a seed, if it has the length of one. -/
def Seed.ofBytes (bs : Bytes) : Option Seed :=
  if h : bs.length = 32 then some ⟨bs, h⟩ else none

/-- The one allocation that holds `s1`, `s2` and `t0`. -/
structure PrivVectors (v : Variant) where
  s1 : PolyVec v.l ℕ
  s2 : PolyVec v.k ℕ
  t0 : PolyVec v.k ℕ

/-- `ML_DSA_KEY`. A pointer that may be `NULL` is an option. -/
structure Key (v : Variant) where
  rho : Bytes
  tr : Bytes
  K : Bytes
  pubEncoding : Option Bytes
  privEncoding : Option Bytes
  seed : Option Seed
  provFlags : UInt32
  t1 : Option (PolyVec v.k ℕ)
  priv : Option (PrivVectors v)

/-- `ML_DSA_KEY_PREFER_SEED`. -/
def preferSeedFlag : UInt32 := (1 : UInt32) <<< 0

/-- `ML_DSA_KEY_RETAIN_SEED`. -/
def retainSeedFlag : UInt32 := (1 : UInt32) <<< 1

/-- `ML_DSA_KEY_PROV_FLAGS_DEFAULT`. -/
def provFlagsDefault : UInt32 := preferSeedFlag ||| retainSeedFlag

/-- `(prov_flags & ML_DSA_KEY_RETAIN_SEED) != 0`. -/
def Key.retainSeed (key : Key v) : Bool := key.provFlags &&& retainSeedFlag != 0

/-- A key object as `OPENSSL_zalloc` leaves it, with its flags. -/
def Key.blank (provFlags : UInt32) : Key v where
  rho := List.replicate 32 0
  tr := List.replicate 64 0
  K := List.replicate 32 0
  pubEncoding := none
  privEncoding := none
  seed := none
  provFlags := provFlags
  t1 := none
  priv := none

/-- `ossl_ml_dsa_key_new`. -/
def keyNew : Key v := .blank provFlagsDefault

/-- The calls that may fail. -/
inductive Call
  | allocKey
  | mdCtxNew
  | allocT1
  | allocS1
  | allocT0
  | allocPolys
  | allocPk
  | allocSk
  | allocSeed
  | dupPub
  | dupPriv
  | dupSeed
  | expandSeed
  | expandS
  | expandA
  | hashPk
  | engineNew
  deriving DecidableEq, Repr

/-! ## Released memory -/

/-- What a buffer is used for. -/
inductive Held
  | seed
  | K
  | encoding
  | inputTr
  | vectors
  | s1Ntt
  | t
  | t0
  deriving DecidableEq, Repr

/-- A buffer that is released, with its contents: bytes or coefficients. -/
structure Released where
  held : Held
  content : List ℕ
  deriving DecidableEq, Repr

/-- Nothing but zeros is left. -/
def Released.Wiped (r : Released) : Prop := ∀ x ∈ r.content, x = 0

instance (r : Released) : Decidable r.Wiped := inferInstanceAs (Decidable (∀ x ∈ r.content, x = 0))

/-- A byte buffer. -/
def Released.bytes (held : Held) (bs : Bytes) : Released := ⟨held, bs.map UInt8.toNat⟩

/-- A function on a key object, with the buffers it releases. -/
abbrev Proc (v : Variant) : Type → Type := Traced (Key v) Released

/-- `OPENSSL_cleanse`. -/
def cleanse (bs : Bytes) : Bytes := bs.map fun _ ↦ 0

/-- `OPENSSL_clear_free` of a pointer that may be `NULL`. -/
def clearFree (held : Held) (bs : Option Bytes) : Proc v Unit :=
  emit (bs.toList.map fun bs ↦ .bytes held (cleanse bs))

/-- The coefficients of a vector. -/
def coeffs {n : ℕ} (p : PolyVec n ℕ) : List ℕ := (List.ofFn fun i ↦ List.ofFn (p i)).flatten

/-- `vector_zero`. -/
def vectorZero {n : ℕ} (_p : PolyVec n ℕ) : PolyVec n ℕ := fun _ _ ↦ 0

/-- The contents of the private allocation. -/
def PrivVectors.coeffs (p : PrivVectors v) : List ℕ :=
  Ossl.coeffs p.s1 ++ (Ossl.coeffs p.s2 ++ Ossl.coeffs p.t0)

/-- `vector_zero` of the three private vectors. -/
def PrivVectors.zero (p : PrivVectors v) : PrivVectors v :=
  ⟨vectorZero p.s1, vectorZero p.s2, vectorZero p.t0⟩

/-! ## Clearing and copying -/

/-- The fields `ossl_ml_dsa_key_reset` clears. -/
def Key.reset (key : Key v) : Key v :=
  { key with
    t1 := none, priv := none, K := cleanse key.K, pubEncoding := none, privEncoding := none,
    seed := none }

/-- `ossl_ml_dsa_key_reset`. -/
def keyReset : Proc v Unit := do
  let key ← fetch
  emit (key.priv.toList.map fun p ↦ ⟨.vectors, p.zero.coeffs⟩)
  clearFree .encoding key.privEncoding
  clearFree .seed (key.seed.map Subtype.val)
  update Key.reset

/-- `ossl_ml_dsa_key_free`: the object itself holds `K`. -/
def keyFree : Proc v Unit := do
  keyReset
  let key ← fetch
  emit [.bytes .K key.K]

section Functions

variable (S : Sampling v) (ok : Call → Bool)

/-- `ossl_ml_dsa_key_pub_alloc`. -/
def keyPubAlloc : Proc v Unit := do
  let key ← fetch
  require key.t1.isNone
  require (ok .allocT1)
  update fun key ↦ { key with t1 := some fun _ _ ↦ 0 }

/-- `ossl_ml_dsa_key_priv_alloc`. -/
def keyPrivAlloc : Proc v Unit := do
  let key ← fetch
  require key.priv.isNone
  require (ok .allocS1)
  update fun key ↦ { key with priv := some ⟨fun _ _ ↦ 0, fun _ _ ↦ 0, fun _ _ ↦ 0⟩ }

/-- `ossl_ml_dsa_set_prekey`. -/
def setPrekey (flagsSet flagsClr : UInt32) (seed sk : Option Bytes) :
    Proc v Unit := do
  let key ← fetch
  require (key.pubEncoding.isNone && key.privEncoding.isNone &&
    sk.all (fun sk ↦ sk.length == v.params.skLen) && seed.all (fun seed ↦ seed.length == 32) &&
    key.seed.isNone)
  onFailure (do
      require (sk.isNone || ok .dupPriv)
      update fun key ↦ { key with privEncoding := sk }
      require (seed.isNone || ok .dupSeed)
      update fun key ↦ { key with seed := seed.bind Seed.ofBytes }
      update fun key ↦ { key with provFlags := (key.provFlags ||| flagsSet) &&& ~~~flagsClr })
    (do
      let key ← fetch
      clearFree .encoding key.privEncoding
      clearFree .seed (key.seed.map Subtype.val)
      update fun key ↦ { key with privEncoding := none, seed := none })

/-- `OSSL_KEYMGMT_SELECT_PRIVATE_KEY`. -/
def selectPrivateKey : UInt32 := 0x01

/-- `OSSL_KEYMGMT_SELECT_KEYPAIR`. -/
def selectKeypair : UInt32 := 0x03

/-- The public part of `ossl_ml_dsa_key_dup`. -/
def dupPublic (src : Key v) : Proc v Unit :=
  forSome src.pubEncoding fun pub ↦ do
    update fun ret ↦ { ret with rho := src.rho, tr := src.tr }
    forSome src.t1 fun t1 ↦ do
      keyPubAlloc ok
      update fun ret ↦ { ret with t1 := some t1 }
    require (ok .dupPub)
    update fun ret ↦ { ret with pubEncoding := some (pub.take v.params.pkLen) }

/-- The private part of `ossl_ml_dsa_key_dup`, without the seed. -/
def dupPrivate (src : Key v) : Proc v Unit :=
  forSome src.privEncoding fun enc ↦ do
    update fun ret ↦ { ret with K := src.K }
    forSome src.priv fun p ↦ do
      keyPrivAlloc ok
      update fun ret ↦ { ret with priv := some p }
    require (ok .dupPriv)
    update fun ret ↦ { ret with privEncoding := some (enc.take v.params.skLen) }

/-- The seed in `ossl_ml_dsa_key_dup`. -/
def dupSeed (src : Key v) : Proc v Unit :=
  forSome src.seed fun seed ↦ do
    require (ok .dupSeed)
    update fun ret ↦ { ret with seed := some seed }

/-- What `ossl_ml_dsa_key_dup` fills into the new object. -/
def dupInto (src : Key v) (selection : UInt32) : Proc v Unit :=
  onFailure (if selection &&& selectKeypair != 0 then do
      dupPublic ok src
      (if selection &&& selectPrivateKey != 0 then do
        dupPrivate ok src
        dupSeed ok src
      else pure ())
    else pure ()) keyFree

/-- `ossl_ml_dsa_key_dup`: the copy, unless it fails. -/
def keyDup (selection : UInt32) : Proc v (Key v) := do
  let src ← fetch
  require !(src.pubEncoding.isNone && (src.privEncoding.isSome || src.seed.isSome))
  require (ok .allocKey)
  apart (dupInto ok src selection) (.blank src.provFlags)

/-! ## Encoding -/

/-- `ossl_ml_dsa_pk_encode`. -/
def pkEncode : Proc v Unit := do
  require (ok .allocPk)
  let key ← fetch
  let t1 ← ofOption key.t1
  let enc := key.rho ++ encodeVec polyEncode10Bits t1
  require (enc.length == v.params.pkLen)
  update fun key ↦ { key with pubEncoding := some enc }

/-- `ossl_ml_dsa_sk_encode`. -/
def skEncode : Proc v Unit := do
  require (ok .allocSk)
  let key ← fetch
  let priv ← ofOption key.priv
  let enc := key.rho ++ (key.K ++ (key.tr ++ (encodeVec (etaEncode v) priv.s1 ++
    (encodeVec (etaEncode v) priv.s2 ++
      encodeVec polyEncodeSignedTwoToPower12 priv.t0))))
  onFailure (require (enc.length == v.params.skLen)) (clearFree .encoding (some enc))
  clearFree .encoding key.privEncoding
  update fun key ↦ { key with privEncoding := some enc }

/-! ## From the private to the public part -/

/-- `public_from_private`: `t1` and `t0`. The block with `t` and the transformed `s1` is released at
the end; only the second is zeroed. -/
def publicFromPrivate : Proc v (PolyVec v.k ℕ × PolyVec v.k ℕ) := do
  require (ok .allocPolys)
  require (ok .expandA)
  let key ← fetch
  let priv ← ofOption key.priv
  let t := vectorAdd (matrixMultVector (S.expandA key.rho) priv.s1) priv.s2
  emit [⟨.t, coeffs t⟩, ⟨.s1Ntt, coeffs (vectorZero priv.s1)⟩]
  pure (vectorPower2Round t)

/-- `shake_xof` of the encoded public key into `tr`. -/
def hashPublic : Proc v Unit := do
  require (ok .hashPk)
  let key ← fetch
  let enc ← ofOption key.pubEncoding
  update fun key ↦ { key with tr := S.xof enc 64 }

/-- `ossl_ml_dsa_key_public_from_private`. The vector `t0` computed here is released as it is. -/
def keyPublicFromPrivate : Proc v Unit := do
  require (ok .allocT0)
  require (ok .mdCtxNew)
  keyPubAlloc ok
  let t ← publicFromPrivate S ok
  emit [⟨.t0, coeffs t.2⟩]
  update fun key ↦ { key with t1 := some t.1 }
  let key ← fetch
  let priv ← ofOption key.priv
  require (decide (t.2 = priv.t0))
  pkEncode ok
  hashPublic S ok

/-- The check of `ossl_ml_dsa_sk_decode` that a private key belongs to its public part. -/
def checkPublic (inputTr : Bytes) : Proc v Unit := do
  keyPublicFromPrivate S ok
  let key ← fetch
  require (inputTr == key.tr)

/-! ## Decoding -/

/-- `ossl_ml_dsa_pk_decode`. -/
def pkDecode (input : Bytes) : Proc v Unit := do
  let key ← fetch
  require (key.privEncoding.isNone && key.pubEncoding.isNone)
  require (input.length == v.params.pkLen)
  keyPubAlloc ok
  require (ok .mdCtxNew)
  let rho ← ofOption (Packet.getBytes 32 input)
  update fun key ↦ { key with rho := rho.1 }
  let t1 ← ofOption (Packet.getVector polyDecode10Bits v.k rho.2)
  update fun key ↦ { key with t1 := some t1.1 }
  require (ok .hashPk)
  update fun key ↦ { key with tr := S.xof input 64 }
  require (ok .dupPub)
  update fun key ↦ { key with pubEncoding := some input }

/-- The reads of `ossl_ml_dsa_sk_decode` and `ossl_ml_dsa_keypair_decode`, with the final check
that nothing remains; returns `input_tr`. `atReturn` is what the caller does to `input_tr` before
it returns. -/
def decodePrivate (atReturn : Bytes → Bytes) (sk : Bytes) :
    Proc v Bytes := do
  let rho ← ofOption (Packet.getBytes 32 sk)
  update fun key ↦ { key with rho := rho.1 }
  let K ← ofOption (Packet.getBytes 32 rho.2)
  update fun key ↦ { key with K := K.1 }
  let inputTr ← ofOption (Packet.getBytes 64 K.2)
  emit [.bytes .inputTr (atReturn inputTr.1)]
  let s1 ← ofOption (Packet.getVector (etaDecode v) v.l inputTr.2)
  update fun key ↦ { key with priv := key.priv.map fun p ↦ { p with s1 := s1.1 } }
  let s2 ← ofOption (Packet.getVector (etaDecode v) v.k s1.2)
  update fun key ↦ { key with priv := key.priv.map fun p ↦ { p with s2 := s2.1 } }
  let t0 ← ofOption (Packet.getVector polyDecodeSignedTwoToPower12 v.k s2.2)
  update fun key ↦ { key with priv := key.priv.map fun p ↦ { p with t0 := t0.1 } }
  require t0.2.isEmpty
  pure inputTr.1

/-- The argument of `ossl_ml_dsa_sk_decode`: the key's own `priv_encoding` or another buffer. -/
inductive Source
  | own
  | buffer (bytes : Bytes)

/-- The bytes a source holds. -/
def Source.bytes (key : Key v) : Source → Bytes
  | own => key.privEncoding.getD []
  | buffer bytes => bytes

/-- `key->priv_encoding == NULL || key->priv_encoding == in`. -/
def Source.mayFill (key : Key v) : Source → Bool
  | own => true
  | buffer _ => key.privEncoding.isNone

/-- `ossl_ml_dsa_sk_decode`. -/
def skDecode (src : Source) : Proc v Unit := do
  let key ← fetch
  clearFree .seed (key.seed.map Subtype.val)
  update fun key ↦ { key with seed := none }
  let input := src.bytes key
  require (src.mayFill key && key.pubEncoding.isNone)
  require (input.length == v.params.skLen)
  keyPrivAlloc ok
  let inputTr ← decodePrivate id input
  require (key.privEncoding.isSome || ok .dupPriv)
  update fun key ↦ { key with privEncoding := some input }
  onFailure (checkPublic S ok inputTr) keyReset

/-- The clean-up of `ossl_ml_dsa_keypair_decode`, with the seed held aside. -/
def resetKeepingSeed : Proc v Unit := do
  let key ← fetch
  update fun key ↦ { key with seed := none }
  keyReset
  update fun key' ↦ { key' with seed := key.seed }

/-- `ossl_ml_dsa_keypair_decode`. -/
def keypairDecode (pk sk : Bytes) : Proc v Unit := do
  let key ← fetch
  require (key.privEncoding.isNone && key.pubEncoding.isNone)
  require (pk.length == v.params.pkLen && sk.length == v.params.skLen)
  keyPubAlloc ok
  keyPrivAlloc ok
  onFailure (do
      let inputTr ← decodePrivate cleanse sk
      let pkRho ← ofOption (Packet.getBytes 32 pk)
      let key ← fetch
      require (pkRho.1 == key.rho)
      let t1 ← ofOption (Packet.getVector polyDecode10Bits v.k pkRho.2)
      update fun key ↦ { key with t1 := some t1.1 }
      require t1.2.isEmpty
      require (ok .mdCtxNew)
      require (ok .hashPk)
      update fun key ↦ { key with tr := S.xof pk 64 }
      require (inputTr == S.xof pk 64)
      require (ok .dupPub)
      update fun key ↦ { key with pubEncoding := some pk }
      require (ok .dupPriv)
      update fun key ↦ { key with privEncoding := some sk })
    resetKeepingSeed

/-! ## Key generation -/

/-- The key without its seed, unless the seed is retained. -/
def Key.dropSeed (retain : Bool) (key : Key v) : Key v :=
  if key.seed.isSome && !retain then { key with seed := none } else key

/-- The clean-up of the seed at the end of both key generations. -/
def dropSeed (retain : Bool) : Proc v Unit := do
  let key ← fetch
  (if retain then pure () else clearFree .seed (key.seed.map Subtype.val))
  update (Key.dropSeed retain)

/-- `keygen_internal`. -/
def keygenInternal : Proc v Unit := do
  let out ← fetch
  cleanup (do
      let seed ← ofOption out.seed
      require (ok .mdCtxNew)
      keyPubAlloc ok
      keyPrivAlloc ok
      let augmented := seed.1 ++ [UInt8.ofNat v.k, UInt8.ofNat v.l]
      emit [.bytes .seed (cleanse augmented)]
      require (ok .expandSeed)
      let expanded := S.xof augmented 128
      emit [.bytes .seed (cleanse expanded)]
      update fun key ↦ { key with rho := expanded.take 32, K := expanded.drop 96 }
      require (ok .expandS)
      let s := S.expandS ((expanded.drop 32).take 64)
      update fun key ↦ { key with priv := key.priv.map fun p ↦
        { p with s1 := PolyVec.repr fun i ↦ (s.1 i).1, s2 := PolyVec.repr fun i ↦ (s.2 i).1 } }
      let t ← publicFromPrivate S ok
      update fun key ↦ { key with
        t1 := some t.1, priv := key.priv.map fun p ↦ { p with t0 := t.2 } }
      pkEncode ok
      hashPublic S ok
      skEncode ok)
    (dropSeed out.retainSeed)

/-- `qudo_keygen`, with `QUDO_MLDSA_keypair_internal` as `engine`. -/
def qudoKeygen (engine : Seed → Option (Bytes × Bytes)) :
    Proc v Unit := do
  let out ← fetch
  cleanup (do
      let seed ← ofOption out.seed
      require (ok .engineNew)
      emit [.bytes .seed (cleanse seed.1)]
      require (ok .allocPk)
      require (ok .allocSk)
      clearFree .encoding ((engine seed).map Prod.snd)
      let pair ← ofOption (engine seed)
      keypairDecode S ok pair.1 pair.2)
    (dropSeed out.retainSeed)

/-- A new seed for a key that has none, with the result of `RAND_priv_bytes_ex`. -/
def ensureSeed (random : Option Seed) : Proc v Unit := do
  let out ← fetch
  if out.seed.isNone then do
    require (ok .allocSeed)
    let seed ← ofOption random
    update fun key ↦ { key with seed := some seed }
  else pure ()

/-- Key generation, and the comparison with the prekey that was set before. -/
def keygenMatching (keygen : Proc v Unit) (prekey : Option Bytes) :
    Proc v Unit := do
  keygen
  forSome prekey fun sk ↦ do
    let key ← fetch
    let enc ← ofOption key.privEncoding
    onFailure (require (enc.take v.params.skLen == sk.take v.params.skLen)) keyReset

/-- `ossl_ml_dsa_generate_key`, with the key generation of the build. -/
def generateKey (keygen : Proc v Unit) (random : Option Seed) :
    Proc v Unit := do
  let out ← fetch
  ensureSeed ok random
  update fun key ↦ { key with privEncoding := none }
  cleanup (keygenMatching keygen out.privEncoding) (clearFree .encoding out.privEncoding)

end Functions

end Ossl

end MlDsa
