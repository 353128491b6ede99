import QudoPqc.Fallible.Trace
import QudoPqc.MlKem.ScalarCodec

/-!
# The ML-KEM key object

`ML_KEM_KEY` and the functions of `ml_kem.c` that fill it in, copy it and clear it. Two builds are
modelled: in the delegated one the engine generates keys, encapsulates and decapsulates, and the
matrix of a key is left zero.

## Pointers

The byte pointers of a key point into the object itself (`seedbuf`) or into the private part of its
allocation (`zbuf`), and `seedbuf` holds different things at different times. So a pointer is a
`Place` or `NULL`, and the object has a memory that says what is at each place. The allocation
also holds the vectors; a vector pointer that may be `NULL` is an option.

## Failures and released memory

As for ML-DSA: `ok : Call → Bool` says which of the calls that may fail succeed, a failed call
leaves its output as it was, and the functions emit what they release with what it contains then.
Memory that has just been allocated contains nothing; it is modelled as zeros.
-/

namespace MlKem

open Codec Fallible Fallible.Traced

/-- The builds of `ml_kem.c`, without and with `QUDO_PQC_DELEGATE`. -/
inductive Build
  | upstream
  | delegated
  deriving DecidableEq, Repr

namespace Ossl

variable {v : Variant}

/-! ## Memory -/

/-- The places a byte pointer of a key may point to: the halves of `seedbuf` in the object and of
`zbuf` in the private allocation. -/
inductive Place
  | seedbufLow
  | seedbufHigh
  | zbufLow
  | zbufHigh
  deriving DecidableEq, Repr

/-- The pointer `ML_KEM_RANDOM_BYTES` further on. -/
def Place.next : Place → Place
  | seedbufLow => seedbufHigh
  | zbufLow => zbufHigh
  | p => p

/-- What bytes are. -/
inductive Held
  | nothing
  | rho
  | pkhash
  | z
  | d
  | s
  | seed
  | dk
  deriving DecidableEq, Repr

/-- Whether it is part of the private key. -/
def Held.secret : Held → Bool
  | nothing => false
  | rho => false
  | pkhash => false
  | z => true
  | d => true
  | s => true
  | seed => true
  | dk => true

/-- Bytes, with what they are. -/
structure Contents where
  held : Held
  bytes : Bytes
  deriving DecidableEq, Repr

/-- Zeros. -/
def Contents.zero : Contents := ⟨.nothing, List.replicate 32 0⟩

/-- A buffer that is released, with its contents: bytes or coefficients. -/
structure Released where
  held : Held
  content : List ℕ
  deriving DecidableEq, Repr

/-- What is private has been overwritten with zeros. -/
def Released.Wiped (r : Released) : Prop := r.held.secret = true → ∀ x ∈ r.content, x = 0

instance (r : Released) : Decidable r.Wiped :=
  inferInstanceAs (Decidable (r.held.secret = true → ∀ x ∈ r.content, x = 0))

/-- The release of bytes. -/
def Contents.released (c : Contents) : Released := ⟨c.held, c.bytes.map UInt8.toNat⟩

/-- `OPENSSL_cleanse`. -/
def cleanse (bs : Bytes) : Bytes := bs.map fun _ ↦ 0

/-! ## The key object -/

/-- `ML_KEM_KEY`, without the fetched digests. -/
structure Key (v : Variant) where
  mem : Place → Contents
  rho : Option Place
  pkhash : Option Place
  t : Option (Vec v.rank ℕ)
  m : Option (Matrix v.rank ℕ)
  s : Option (Vec v.rank ℕ)
  z : Option Place
  d : Option Place
  provFlags : UInt32
  encodedDk : Option Bytes

/-- `ML_KEM_KEY_RANDOM_PCT`. -/
def randomPctFlag : UInt32 := (1 : UInt32) <<< 0

/-- `ML_KEM_KEY_PREFER_SEED`. -/
def preferSeedFlag : UInt32 := (1 : UInt32) <<< 2

/-- `ML_KEM_KEY_RETAIN_SEED`. -/
def retainSeedFlag : UInt32 := (1 : UInt32) <<< 3

/-- `ML_KEM_KEY_PROV_FLAGS_DEFAULT`. -/
def provFlagsDefault : UInt32 := randomPctFlag ||| preferSeedFlag ||| retainSeedFlag

/-- `prov_flags & ML_KEM_KEY_RETAIN_SEED`. -/
def Key.retainSeed (key : Key v) : Bool := key.provFlags &&& retainSeedFlag != 0

/-- `ossl_ml_kem_key_new`. -/
def keyNew : Key v where
  mem := fun _ ↦ .zero
  rho := none
  pkhash := none
  t := none
  m := none
  s := none
  z := none
  d := none
  provFlags := provFlagsDefault
  encodedDk := none

namespace Key

/-- `ossl_ml_kem_have_pubkey`. -/
def havePubkey (key : Key v) : Bool := key.t.isSome

/-- `ossl_ml_kem_have_prvkey`. -/
def havePrvkey (key : Key v) : Bool := key.s.isSome

/-- `ossl_ml_kem_have_seed`. -/
def haveSeed (key : Key v) : Bool := key.d.isSome

/-- `ossl_ml_kem_have_dkenc`. -/
def haveDkenc (key : Key v) : Bool := key.encodedDk.isSome

/-- `ossl_ml_kem_decoded_key`. -/
def decodedKey (key : Key v) : Bool := key.encodedDk.isSome || (key.s.isNone && key.d.isSome)

/-- The key with new contents at a place. -/
def write (p : Place) (c : Contents) (key : Key v) : Key v :=
  { key with mem := Function.update key.mem p c }

/-- The bytes a pointer points to. -/
def deref (key : Key v) (p : Option Place) : Option Bytes :=
  p.map fun p ↦ (key.mem p).bytes

/-! ## Encoding -/

/-- `encode_pubkey`. -/
def encodePubkey (key : Key v) : Option Bytes := do
  let t ← key.t
  let rho ← key.deref key.rho
  pure (vectorEncode 12 t ++ rho)

/-- `encode_prvkey`. -/
def encodePrvkey (key : Key v) : Option Bytes := do
  let s ← key.s
  let pub ← key.encodePubkey
  let pkhash ← key.deref key.pkhash
  let z ← key.deref key.z
  pure (vectorEncode 12 s ++ (pub ++ (pkhash ++ z)))

/-- `ossl_ml_kem_encode_public_key`. -/
def encodePublicKey (len : ℕ) (key : Key v) : Option Bytes :=
  if key.havePubkey && len == v.pubkeyBytes then key.encodePubkey else none

/-- `ossl_ml_kem_encode_private_key`. -/
def encodePrivateKey (len : ℕ) (key : Key v) : Option Bytes :=
  if key.havePrvkey && len == v.prvkeyBytes then key.encodePrvkey else none

/-- `ossl_ml_kem_encode_seed`. -/
def encodeSeed (len : ℕ) (key : Key v) : Option Bytes :=
  if key.haveSeed && len == 64 then do
    let d ← key.deref key.d
    let z ← key.deref key.z
    pure (d ++ z)
  else none

/-- `ossl_ml_kem_pubkey_cmp`. -/
def pubkeyCmp (key key' : Key v) : Bool :=
  if key.havePubkey && key'.havePubkey then key.deref key.pkhash == key'.deref key'.pkhash
  else key.havePubkey == key'.havePubkey

end Key

/-- The calls that may fail. -/
inductive Call
  | allocKey
  | allocStorage
  | mdCtxNew
  | hashH
  | matrixExpand
  | hashG
  | prf
  | kdf
  | engineNew
  | allocPrvenc
  | allocPubenc
  deriving DecidableEq, Repr

/-! ## Storage -/

/-- The allocation of a key. A public key has only the first two fields of it. -/
structure Storage (v : Variant) where
  t : Vec v.rank ℕ
  m : Matrix v.rank ℕ
  s : Vec v.rank ℕ
  zbufLow : Contents
  zbufHigh : Contents

/-- An allocation with nothing in it. -/
def Storage.blank : Storage v := ⟨fun _ _ ↦ 0, fun _ _ _ ↦ 0, fun _ _ ↦ 0, .zero, .zero⟩

/-- What `OPENSSL_malloc` returns. -/
def mallocStorage (ok : Call → Bool) : Option (Storage v) :=
  if ok .allocStorage then some .blank else none

/-- The key with its pointers in new storage. -/
def Key.addStorage (p : Storage v) (priv : Bool) (key : Key v) : Key v :=
  let key := { key with
    mem := fun
      | .seedbufLow => .zero
      | .seedbufHigh => .zero
      | place => key.mem place
    rho := some .seedbufLow, pkhash := some .seedbufHigh, d := none, z := none, t := some p.t,
    m := some p.m }
  if priv then
    { key with
      mem := fun
        | .zbufLow => p.zbufLow
        | .zbufHigh => p.zbufHigh
        | place => key.mem place
      s := some p.s, z := some .zbufLow }
  else key

/-- A function on a key object, with the buffers it releases. -/
abbrev Proc (v : Variant) : Type → Type := Traced (Key v) Released

/-- `add_storage`. -/
def addStorage (p : Option (Storage v)) (priv : Bool) : Proc v Unit := do
  let p ← ofOption p
  update (Key.addStorage p priv)

/-- The coefficients of a vector. -/
def coeffs {n : ℕ} (p : Vec n ℕ) : List ℕ := (List.ofFn fun i ↦ List.ofFn (p i)).flatten

/-- The private part of the allocation, as it is when the allocation is freed. -/
def Key.storageReleased (key : Key v) : List Released :=
  match key.s with
  | some s => [⟨.s, coeffs s⟩, (key.mem .zbufLow).released, (key.mem .zbufHigh).released]
  | none => []

/-- `OPENSSL_cleanse` of `s` with the two byte strings after it, for a private key. -/
def Key.cleansePrv (key : Key v) : Key v :=
  if key.havePrvkey then
    { (key.write .zbufLow .zero).write .zbufHigh .zero with s := some fun _ _ ↦ 0 }
  else key

/-- The key without its allocation. -/
def Key.dropStorage (key : Key v) : Key v :=
  { key with t := none, m := none, s := none, z := none, d := none }

/-- `ossl_ml_kem_key_reset`. -/
def keyReset : Proc v Unit := do
  let key ← fetch
  if key.t.isNone then pure ()
  else do
    update Key.cleansePrv
    let key ← fetch
    emit key.storageReleased
    update Key.dropStorage

/-- `seedbuf`, as it is when the object is freed. -/
def Key.seedbufReleased (key : Key v) : List Released :=
  [(key.mem .seedbufLow).released, (key.mem .seedbufHigh).released]

/-- `ossl_ml_kem_key_free`. -/
def keyFree : Proc v Unit := do
  let key ← fetch
  (if key.decodedKey then do
    update fun key ↦ (key.write .seedbufLow .zero).write .seedbufHigh .zero
    forSome key.encodedDk fun dk ↦ emit [Contents.released ⟨.dk, cleanse dk⟩]
  else pure ())
  keyReset
  let key ← fetch
  emit key.seedbufReleased

/-! ## Duplication -/

/-- `OSSL_KEYMGMT_SELECT_PRIVATE_KEY`. -/
def selectPrivateKey : UInt32 := 0x01

/-- `OSSL_KEYMGMT_SELECT_PUBLIC_KEY`. -/
def selectPublicKey : UInt32 := 0x02

/-- `OSSL_KEYMGMT_SELECT_KEYPAIR`. -/
def selectKeypair : UInt32 := selectPrivateKey ||| selectPublicKey

/-- The selection bits that the key can fulfil. -/
def Key.fulfil (key : Key v) (selection : UInt32) : UInt32 :=
  if !key.havePubkey then 0
  else if !key.havePrvkey then selection &&& ~~~selectPrivateKey
  else selection

/-- `OPENSSL_memdup` of the allocation, with or without its private part. -/
def dupStorage (ok : Call → Bool) (key : Key v) (priv : Bool) : Option (Storage v) := do
  guard (ok .allocStorage)
  let t ← key.t
  let m ← key.m
  if priv then do
    let s ← key.s
    pure ⟨t, m, s, key.mem .zbufLow, key.mem .zbufHigh⟩
  else pure ⟨t, m, fun _ _ ↦ 0, .zero, .zero⟩

/-- Writing through a pointer of the key. -/
def store (ptr : Key v → Option Place) (c : Contents) : Proc v Unit := do
  let key ← fetch
  let p ← ofOption (ptr key)
  update (Key.write p c)

/-- The private storage of the copy, and `d` if the source has it. -/
def dupPrivate (ok : Call → Bool) (src : Key v) : Proc v Unit := do
  addStorage (dupStorage ok src true) true
  if src.d.isSome then update fun ret ↦ { ret with d := ret.z.map Place.next } else pure ()

/-- The `switch` of `ossl_ml_kem_key_dup`. -/
def dupSelected (ok : Call → Bool) (src : Key v) (selected : UInt32) :
    Proc v Unit :=
  if selected == 0 then pure ()
  else if selected == selectPublicKey then addStorage (dupStorage ok src false) false
  else dupPrivate ok src

/-- The values of `rho` and `pkhash`, after `add_storage` has cleared them. -/
def restoreSeedbuf (src : Key v) : Proc v Unit := do
  let rho ← ofOption (src.deref src.rho)
  store Key.rho ⟨.rho, rho⟩
  let pkhash ← ofOption (src.deref src.pkhash)
  store Key.pkhash ⟨.pkhash, pkhash⟩

/-- What `ossl_ml_kem_key_dup` does to the copy of the object. -/
def dupInto (ok : Call → Bool) (src : Key v) (selection : UInt32) :
    Proc v Unit := do
  let selected := src.fulfil selection &&& selectKeypair
  onFailure (dupSelected ok src selected) (do
    let ret ← fetch
    emit ret.seedbufReleased)
  if selected != 0 then restoreSeedbuf src else pure ()

/-- The copy of the object, before anything of its storage is copied. -/
def Key.shell (src : Key v) : Key v :=
  { src with
    d := none, z := none, rho := none, pkhash := none, s := none, m := none, t := none }

/-- `ossl_ml_kem_key_dup`: the copy, unless it fails. -/
def keyDup (ok : Call → Bool) (selection : UInt32) : Proc v (Key v) := do
  let src ← fetch
  require !src.decodedKey
  require (ok .allocKey)
  apart (dupInto ok src selection) src.shell

/-! ## Parsing -/

/-- `ossl_ml_kem_set_seed`. -/
def setSeed (seed : Bytes) : Proc v Unit := do
  let key ← fetch
  require (!key.havePubkey && !key.haveSeed && seed.length == 64)
  update fun key ↦ { key with z := some .seedbufLow, d := some .seedbufHigh }
  store Key.d ⟨.d, seed.take 32⟩
  store Key.z ⟨.z, seed.drop 32⟩

section Functions

variable (H : Primitives) (build : Build) (ok : Call → Bool)

/-- `matrix_expand`: the transpose of the matrix of FIPS 203. -/
def matrixExpand (n : ℕ) (rho : Bytes) : Matrix n ℕ := fun i j ↦
  (H.sampleNtt (rho ++ [UInt8.ofNat i, UInt8.ofNat j])).repr

/-- `parse_pubkey`, on at least `pubkey_bytes` bytes. -/
def parsePubkey (input : Bytes) : Proc v Unit := do
  let t ← ofOption (vectorDecode12 v.rank input)
  update fun key ↦ { key with t := some t.1 }
  let rho := t.2.take 32
  store Key.rho ⟨.rho, rho⟩
  require (ok .hashH)
  store Key.pkhash ⟨.pkhash, H.sha3_256 (input.take v.pubkeyBytes)⟩
  match build with
  | .upstream => do
    require (ok .matrixExpand)
    update fun key ↦ { key with m := some (matrixExpand H v.rank rho) }
  | .delegated => update fun key ↦ { key with m := some fun _ _ _ ↦ 0 }

/-- `parse_prvkey`, on at least `prvkey_bytes` bytes. -/
def parsePrvkey (input : Bytes) : Proc v Unit := do
  let s ← ofOption (vectorDecode12 v.rank input)
  update fun key ↦ { key with s := some s.1 }
  parsePubkey H build ok s.2
  let rest := s.2.drop v.pubkeyBytes
  let key ← fetch
  let pkhash ← ofOption (key.deref key.pkhash)
  require (pkhash == rest.take 32)
  store Key.z ⟨.z, (rest.drop 32).take 32⟩

/-- `ossl_ml_kem_parse_public_key`. -/
def parsePublicKey (input : Bytes) : Proc v Unit := do
  let key ← fetch
  require (!key.havePubkey && !key.haveDkenc)
  require (input.length == v.pubkeyBytes && ok .mdCtxNew)
  onFailure (do
      addStorage (mallocStorage ok) false
      parsePubkey H build ok input)
    keyReset

/-- `ossl_ml_kem_parse_private_key`. -/
def parsePrivateKey (input : Bytes) : Proc v Unit := do
  let key ← fetch
  require (!key.havePubkey && !key.haveDkenc)
  require (input.length == v.prvkeyBytes && ok .mdCtxNew)
  onFailure (do
      addStorage (mallocStorage ok) true
      parsePrvkey H build ok input)
    keyReset

/-! ## Key generation -/

/-- `ML_KEM_SEED_BYTES` bytes: `d` and `z`. -/
abbrev Seed : Type := { seed : Bytes // seed.length = 64 }

/-- The end of both key generations: `z`, and `d` if it is to be retained. -/
def storeSeed (seed : Bytes) : Proc v Unit := do
  store Key.z ⟨.z, (seed.drop 32).take 32⟩
  update fun key ↦ { key with d := key.z.map Place.next }
  let key ← fetch
  if key.retainSeed then store Key.d ⟨.d, seed.take 32⟩
  else do
    store Key.d .zero
    update fun key ↦ { key with d := none }

/-- `OPENSSL_clear_free` of a pointer that may be `NULL`. -/
def clearFree (held : Held) (bs : Option Bytes) : Proc v Unit :=
  emit (bs.toList.map fun bs ↦ Contents.released ⟨held, cleanse bs⟩)

/-- `QUDO_KEM_keypair_from_seed`: the two encodings for a seed, unless it fails. -/
abbrev KeypairEngine : Type := Bytes → Option (Bytes × Bytes)

/-- `qudo_genkey`: what it writes to `pubenc`. -/
def qudoGenkey (engine : KeypairEngine) (seed : Bytes) (pubenc : Bool) :
    Proc v (Option Bytes) := do
  require (ok .engineNew)
  require (ok .allocPrvenc)
  cleanup (do
      require (ok .allocPubenc)
      let pair ← ofOption (engine seed)
      parsePrvkey H .delegated ok pair.2
      storeSeed seed
      pure (if pubenc then some pair.1 else none))
    (clearFree .dk ((engine seed).map Prod.snd))

/-- The seed that `ossl_ml_kem_genkey` starts from: the stashed one, or the result of
`RAND_priv_bytes_ex`. -/
def takeSeed (random : Option Seed) : Proc v Bytes := do
  let key ← fetch
  if key.haveSeed then do
    let seed ← ofOption (key.encodeSeed 64)
    update fun key ↦ { key with d := none, z := none }
    pure seed
  else do
    let seed ← ofOption random
    pure seed.1

/-- `ossl_ml_kem_genkey`, with the key generation of the build; `pubenc` is the length of the
buffer for the public key, if there is one. The local `seed` is zeroed at the end, but not if no
digest context can be allocated. -/
def generateKey (genkey : Bytes → Bool → Proc v (Option Bytes))
    (pubenc : Option ℕ) (random : Option Seed) :
    Proc v (Option Bytes) := do
  let key ← fetch
  require (!key.havePubkey && !key.haveDkenc)
  require (pubenc.all (· == v.pubkeyBytes))
  let seed ← takeSeed random
  onFailure (require (ok .mdCtxNew)) (emit [Contents.released ⟨.seed, seed⟩])
  onFailure
    (cleanup (do
        addStorage (mallocStorage ok) true
        genkey seed pubenc.isSome)
      (emit [Contents.released ⟨.seed, cleanse seed⟩]))
    keyReset

/-! ## Delegated encapsulation and decapsulation -/

/-- `QUDO_KEM_encaps_derand`: ciphertext and shared secret for a public key and entropy. -/
abbrev EncapsEngine : Type := Bytes → Bytes → Option (Bytes × Bytes)

/-- `QUDO_KEM_decaps`: the shared secret for a private key and a ciphertext. -/
abbrev DecapsEngine : Type := Bytes → Bytes → Option Bytes

/-- `qudo_encap`. -/
def qudoEncap (engine : EncapsEngine) (entropy : Bytes) :
    Proc v (Bytes × Bytes) := do
  require (ok .engineNew)
  require (ok .allocPubenc)
  let key ← fetch
  let pubenc ← ofOption (key.encodePublicKey v.pubkeyBytes)
  ofOption (engine pubenc entropy)

/-- `qudo_decap`. -/
def qudoDecap (engine : DecapsEngine) (ctext : Bytes) :
    Proc v Bytes := do
  require (ok .engineNew)
  require (ok .allocPrvenc)
  let key ← fetch
  cleanup (do
      let prvenc ← ofOption (key.encodePrivateKey v.prvkeyBytes)
      ofOption (engine prvenc ctext))
    (clearFree .dk (key.encodePrivateKey v.prvkeyBytes))

/-- `ossl_ml_kem_encap_seed`, with the encapsulation of the build. -/
def encapSeed (encap : Bytes → Proc v (Bytes × Bytes))
    (clen slen : ℕ) (entropy : Bytes) :
    Proc v (Bytes × Bytes) := do
  let key ← fetch
  require key.havePubkey
  require (clen == v.ctextBytes && slen == 32 && entropy.length == 32 && ok .mdCtxNew)
  encap entropy

/-- `ossl_ml_kem_decap`, with the decapsulation of the build. -/
def decapsulate (decap : Bytes → Proc v Bytes) (slen : ℕ)
    (ctext : Bytes) : Proc v Bytes := do
  let key ← fetch
  require key.havePrvkey
  require (slen == 32 && ctext.length == v.ctextBytes && ok .mdCtxNew)
  decap ctext

end Functions

end Ossl

end MlKem
