import QudoPqc.MlKem.Key

/-!
# What the key functions read and write

For each function that fills in a key object: when it succeeds, and what the object is then. A
parser succeeds exactly on the encoding of a key, and leaves the object that holds this key
(`Key.withPublic`, `Key.withPrivate`).
-/

namespace MlKem

open Codec Fallible Fallible.Act Fips203
open Fallible.Traced (run_apart run_bind run_cleanup run_emit run_fetch run_ite run_ofOption
  run_onFailure run_pure run_require run_update)

namespace Fips203

variable {v : Variant} (H : Primitives)

/-- KeyGen_internal of `d` and `z` in a row. -/
def keyGenSeed (v : Variant) (seed : Bytes) (hseed : seed.length = 64) : SecretKey v :=
  keyGen H v (seed.take 32) (seed.drop 32) (by rw [List.length_drop, hseed])

end Fips203

namespace Ossl

variable {v : Variant}

/-! ## Clearing -/

/-- The key after `ossl_ml_kem_key_reset`. -/
def Key.reset (key : Key v) : Key v := if key.t.isNone then key else key.cleansePrv.dropStorage

theorem run_keyReset (key : Key v) : (keyReset.run key) = (some (), key.reset) := by
  rw [keyReset, run_bind, run_fetch, fetch_bind, run_ite, Key.reset]
  split <;> rfl

@[simp] theorem run_keyReset_snd (key : Key v) : (keyReset.run key).2 = key.reset := by
  rw [run_keyReset]

@[simp] theorem run_clearFree (held : Held) (bs : Option Bytes) :
    (clearFree held bs : Proc v Unit).run = pure () := rfl

/-- The key after `ossl_ml_kem_key_free` has cleared it. -/
def Key.freed (key : Key v) : Key v :=
  (if key.decodedKey then (key.write .seedbufLow .zero).write .seedbufHigh .zero else key).reset

theorem run_keyFree (key : Key v) : keyFree.run key = (some (), key.freed) := by
  have hdecoded : (if key.decodedKey then do
        Traced.update fun key : Key v ↦ (key.write .seedbufLow .zero).write .seedbufHigh .zero
        Traced.forSome key.encodedDk fun dk ↦ Traced.emit [Contents.released ⟨.dk, cleanse dk⟩]
      else pure () : Proc v Unit).run key = (some (),
        if key.decodedKey then (key.write .seedbufLow .zero).write .seedbufHigh .zero
        else key) := by
    cases key.decodedKey with
    | true => cases key.encodedDk <;> rfl
    | false => rfl
  rw [keyFree, run_bind, run_fetch, fetch_bind, run_bind, bind_of_eq_some _ hdecoded, run_bind,
    bind_of_eq_some _ (run_keyReset _)]
  rfl

theorem Key.reset_of_none {key : Key v} (h : key.t = none) : key.reset = key := by
  rw [reset, h]
  rfl

theorem Key.reset_of_isSome {key : Key v} (h : key.t.isSome) :
    key.reset = key.cleansePrv.dropStorage := by
  rw [reset, if_neg]
  rw [Option.isNone_iff_eq_none]
  exact Option.isSome_iff_ne_none.mp h

/-! ## Writing through pointers -/

theorem run_store (ptr : Key v → Option Place) (c : Contents) :
    (store ptr c).run = fetch >>= fun key ↦ ofOption (ptr key) >>= fun p ↦
      update (Key.write p c) := by
  simp only [store, run_bind, run_fetch, run_ofOption, run_update]

theorem store_bind {β : Type} (ptr : Key v → Option Place) (c : Contents)
    (f : Unit → Act (Key v) β) (key : Key v) :
    ((store ptr c).run >>= f) key =
      (ofOption (ptr key) >>= fun p ↦ update (Key.write p c) >>= f) key := by
  rw [run_store]
  cases hp : ptr key with
  | none => simp only [bind, fetch, ofOption, hp]
  | some p => simp only [bind, fetch, ofOption, hp]

/-! ## Storage -/

@[simp] theorem run_addStorage_some (p : Storage v) (priv : Bool) (key : Key v) :
    (addStorage (some p) priv).run key = (some (), key.addStorage p priv) := rfl

@[simp] theorem run_addStorage_none (priv : Bool) (key : Key v) :
    (addStorage none priv).run key = (none, key) := rfl

/-! ## Parsing -/

section Parsing

variable (H : Primitives) (build : Build) (ok : Call → Bool)

/-- The matrix that parsing stores. -/
def Build.matrix (rho : Bytes) : Matrix v.rank ℕ :=
  match build with
  | .upstream => matrixExpand H v.rank rho
  | .delegated => fun _ _ _ ↦ 0

/-- The calls of `parse_pubkey` succeed. -/
def Build.Hashes : Prop := ok .hashH = true ∧ (build = .upstream → ok .matrixExpand = true)

/-- The key with a public key in its storage. -/
def Key.withPublic (pk : PublicKey v) (key : Key v) : Key v :=
  { key with
    t := some pk.t.repr
    m := some (Build.matrix H build pk.rho)
    mem := fun
      | .seedbufLow => ⟨.rho, pk.rho⟩
      | .seedbufHigh => ⟨.pkhash, H.sha3_256 pk.encode⟩
      | p => key.mem p }

/-- The key with a private key in its storage. -/
def Key.withPrivate (sk : SecretKey v) (key : Key v) : Key v :=
  { key.withPublic H build sk.pub with
    s := some sk.s.repr
    mem := fun
      | .zbufLow => ⟨.z, sk.z⟩
      | p => (key.withPublic H build sk.pub).mem p }

variable {H build ok} {key key' : Key v} {u : Unit} {input seed : Bytes} {pub : Option Bytes}

/-- The bytes from which `parse_pubkey` reads a public key. -/
theorem vectorDecode12_eq_some (hlen : v.pubkeyBytes ≤ input.length)
    {t : Vec v.rank ℕ × Bytes} :
    vectorDecode12 v.rank input = some t ↔
      ∃ pk : PublicKey v, t.1 = pk.t.repr ∧ pk.rho = t.2.take 32 ∧
        input = pk.encode ++ t.2.drop 32 := by
  rw [reads_vectorDecode12 v.rank input t.1 t.2]
  constructor
  · rintro ⟨hlt, hinput⟩
    have hrest : 32 ≤ t.2.length := by
      rw [hinput, List.length_append, length_encodeVec, Variant.pubkeyBytes,
        Variant.vectorBytes, degree] at hlen
      omega
    refine ⟨⟨t.1.residue, t.2.take 32, List.length_take_of_le hrest⟩,
      (Vec.repr_residue hlt).symm, rfl, ?_⟩
    rw [PublicKey.encode, Vec.repr_residue hlt, List.append_assoc, List.take_append_drop]
    exact hinput
  · rintro ⟨pk, ht, hrho, hinput⟩
    refine ⟨ht ▸ pk.t.repr_lt, ?_⟩
    rw [hinput, PublicKey.encode, hrho, List.append_assoc, List.take_append_drop, ht]

/-- `parse_pubkey` after the vector has been read. -/
theorem parsePubkey_of_decode {t : Vec v.rank ℕ × Bytes}
    (ht : vectorDecode12 v.rank input = some t) (hrho : key.rho = some .seedbufLow)
    (hpkhash : key.pkhash = some .seedbufHigh) :
    (parsePubkey H build ok input).run key = (some u, key') ↔
      Build.Hashes build ok ∧ { key with
        t := some t.1
        m := some (Build.matrix H build (t.2.take 32))
        mem := fun
          | .seedbufLow => ⟨.rho, t.2.take 32⟩
          | .seedbufHigh => ⟨.pkhash, H.sha3_256 (input.take v.pubkeyBytes)⟩
          | p => key.mem p } = key' := by
  have hmem (c c' : Contents) :
      Function.update (Function.update key.mem .seedbufLow c) .seedbufHigh c' = fun
        | .seedbufLow => c
        | .seedbufHigh => c'
        | p => key.mem p := by
    funext p
    cases p <;> rfl
  simp only [parsePubkey, run_bind, run_ofOption, ht, ofOption_some_bind, run_update, update_bind,
    store_bind, hrho, hpkhash, run_require, require_bind_eq_some, Key.write, Build.Hashes,
    and_assoc]
  refine and_congr_right fun _ ↦ ?_
  cases build with
  | upstream =>
    simp only [run_bind, run_require, require_bind_eq_some, run_update, update_eq_some, hmem,
      forall_const]
    rfl
  | delegated =>
    simp only [run_update, update_eq_some, hmem]
    exact (and_iff_right fun h ↦ Build.noConfusion h).symm

variable (key) in
/-- `parse_pubkey` succeeds exactly on the encoding of a public key. -/
theorem parsePubkey_eq_some (hlen : v.pubkeyBytes ≤ input.length)
    (hrho : key.rho = some .seedbufLow) (hpkhash : key.pkhash = some .seedbufHigh) :
    (parsePubkey H build ok input).run key = (some u, key') ↔
      Build.Hashes build ok ∧ ∃ (pk : PublicKey v) (rest : Bytes),
        input = pk.encode ++ rest ∧ key.withPublic H build pk = key' := by
  have htake (pk : PublicKey v) (rest : Bytes) :
      (pk.encode ++ rest).take v.pubkeyBytes = pk.encode := by
    rw [← pk.length_encode, List.take_left]
  constructor
  · intro h
    have hdecode := h
    rw [parsePubkey, run_bind, run_ofOption] at hdecode
    obtain ⟨t, ht, -⟩ := ofOption_bind_eq_some.mp hdecode
    obtain ⟨pk, hpkt, hpkrho, hinput⟩ := (vectorDecode12_eq_some hlen).mp ht
    obtain ⟨hok, rfl⟩ := (parsePubkey_of_decode ht hrho hpkhash).mp h
    refine ⟨hok, pk, _, hinput, ?_⟩
    rw [hinput, htake, hpkt, ← hpkrho]
    rfl
  · rintro ⟨hok, pk, rest, rfl, rfl⟩
    have ht : vectorDecode12 v.rank (pk.encode ++ rest) = some (pk.t.repr, pk.rho ++ rest) := by
      refine (vectorDecode12_eq_some hlen).mpr ⟨pk, rfl, ?_, ?_⟩
      · rw [← pk.length_rho, List.take_left]
      · rw [← pk.length_rho, List.drop_left]
    refine (parsePubkey_of_decode ht hrho hpkhash).mpr ⟨hok, ?_⟩
    rw [htake, ← pk.length_rho, List.take_left]
    rfl

variable (key) in
theorem Key.deref_pkhash_withPublic (pk : PublicKey v)
    (hpkhash : key.pkhash = some .seedbufHigh) :
    (key.withPublic H build pk).deref (key.withPublic H build pk).pkhash =
      some (H.sha3_256 pk.encode) := by
  change (key.withPublic H build pk).deref key.pkhash = _
  rw [hpkhash]
  rfl

theorem Key.write_zbufLow_withPublic (sk : SecretKey v) (key : Key v) :
    ({ key with s := some sk.s.repr }.withPublic H build sk.pub).write .zbufLow ⟨.z, sk.z⟩ =
      key.withPrivate H build sk := by
  have hmem : ({ key with s := some sk.s.repr }.withPublic H build sk.pub).mem =
      (key.withPublic H build sk.pub).mem := rfl
  rw [write, withPrivate, hmem]
  congr 1
  funext p
  cases p <;> rfl

variable (key) in
/-- `parse_prvkey` succeeds exactly on the encoding of a private key. -/
theorem parsePrvkey_eq_some (hlen : input.length = v.prvkeyBytes)
    (hrho : key.rho = some .seedbufLow) (hpkhash : key.pkhash = some .seedbufHigh)
    (hz : key.z = some .zbufLow) :
    (parsePrvkey H build ok input).run key = (some u, key') ↔
      Build.Hashes build ok ∧ ∃ sk : SecretKey v,
        input = sk.encode H ∧ key.withPrivate H build sk = key' := by
  have hafter (s : Vec v.rank ℕ) (pk : PublicKey v) :
      ({ key with s := some s }.withPublic H build pk).z = some .zbufLow := hz
  rw [parsePrvkey, run_bind, run_ofOption, ofOption_bind_eq_some]
  simp only [run_bind, run_update, update_bind, run_fetch, run_ofOption, run_require]
  constructor
  · rintro ⟨⟨s, rest⟩, hs, h⟩
    obtain ⟨hlt, rfl⟩ := (reads_vectorDecode12 v.rank input s rest).mp hs
    have hrest : rest.length = v.pubkeyBytes + 64 := by
      rw [List.length_append, length_encodeVec, Variant.prvkeyBytes, Variant.pubkeyBytes,
        Variant.vectorBytes, degree] at hlen
      rw [Variant.pubkeyBytes, Variant.vectorBytes, degree]
      omega
    have hle : v.pubkeyBytes ≤ rest.length := by omega
    obtain ⟨_, r, hparse, h⟩ := bind_eq_some.mp h
    obtain ⟨hok, pk, tail, rfl, rfl⟩ :=
      (parsePubkey_eq_some { key with s := some s } hle hrho hpkhash).mp hparse
    rw [List.length_append, pk.length_encode, Nat.add_left_cancel_iff] at hrest
    rw [← pk.length_encode, List.drop_left, fetch_bind,
      Key.deref_pkhash_withPublic { key with s := some s } pk hpkhash, ofOption_some_bind,
      require_bind_eq_some, beq_iff_eq, run_store, fetch_bind, hafter, ofOption_some_bind,
      update_eq_some] at h
    obtain ⟨hhash, rfl⟩ := h
    have htail : tail = H.sha3_256 pk.encode ++ tail.drop 32 := by
      rw [hhash, List.take_append_drop]
    have hzlen : (tail.drop 32).length = 32 := by rw [List.length_drop, hrest]
    refine ⟨hok, ⟨s.residue, pk, tail.drop 32, hzlen⟩, ?_, ?_⟩
    · rw [SecretKey.encode, Vec.repr_residue hlt, ← htail]
    · rw [← Key.write_zbufLow_withPublic, Vec.repr_residue hlt, List.take_of_length_le hzlen.le]
  · rintro ⟨hok, sk, rfl, rfl⟩
    have hle : v.pubkeyBytes ≤
        (sk.pub.encode ++ (H.sha3_256 sk.pub.encode ++ sk.z)).length := by
      rw [List.length_append, sk.pub.length_encode]
      omega
    refine ⟨(sk.s.repr, sk.pub.encode ++ (H.sha3_256 sk.pub.encode ++ sk.z)),
      (reads_vectorDecode12 v.rank _ _ _).mpr ⟨sk.s.repr_lt, rfl⟩, bind_eq_some.mpr ⟨(), _,
      (parsePubkey_eq_some { key with s := some sk.s.repr } hle hrho hpkhash).mpr
        ⟨hok, sk.pub, _, rfl, rfl⟩, ?_⟩⟩
    rw [← sk.pub.length_encode, List.drop_left, fetch_bind,
      Key.deref_pkhash_withPublic { key with s := some sk.s.repr } sk.pub hpkhash,
      ofOption_some_bind, require_bind_eq_some, beq_iff_eq, run_store, fetch_bind, hafter,
      ofOption_some_bind, update_eq_some, ← Key.write_zbufLow_withPublic,
      ← H.length_sha3_256 sk.pub.encode, List.take_left, List.drop_left, H.length_sha3_256,
      List.take_of_length_le sk.length_z.le]
    exact ⟨rfl, rfl⟩

/-- The key that `ossl_ml_kem_parse_public_key` leaves. -/
def Key.loadedPublic (H : Primitives) (build : Build) (pk : PublicKey v) (key : Key v) :
    Key v :=
  (key.addStorage .blank false).withPublic H build pk

/-- The key that `ossl_ml_kem_parse_private_key` leaves. -/
def Key.loadedPrivate (H : Primitives) (build : Build) (sk : SecretKey v) (key : Key v) :
    Key v :=
  (key.addStorage .blank true).withPrivate H build sk

/-- Neither keys nor an encoded private key. -/
def Key.Unloaded (key : Key v) : Prop := key.t = none ∧ key.encodedDk = none

/-- The check before anything is parsed or generated. -/
theorem Key.unloaded_iff :
    ((!key.havePubkey) = true ∧ (!key.haveDkenc) = true) ↔ key.Unloaded := by
  rw [Unloaded, havePubkey, haveDkenc]
  simp

theorem addStorage_malloc_bind_eq_some {β : Type} {f : Unit → Act (Key v) β} {b : β} {priv : Bool} :
    ((addStorage (mallocStorage ok) priv).run >>= f) key = (some b, key') ↔
      ok .allocStorage = true ∧ f () (key.addStorage .blank priv) = (some b, key') := by
  rw [mallocStorage]
  cases ok .allocStorage with
  | false => simp [bind_of_eq_none f (run_addStorage_none priv key)]
  | true => simp [bind_of_eq_some f (run_addStorage_some .blank priv key)]

/-- `ossl_ml_kem_parse_public_key` succeeds exactly on the encoding of a public key. -/
theorem parsePublicKey_eq_some :
    (parsePublicKey H build ok input).run key = (some u, key') ↔
      key.Unloaded ∧ (ok .mdCtxNew = true ∧ ok .allocStorage = true ∧ Build.Hashes build ok) ∧
        ∃ pk : PublicKey v, input = pk.encode ∧ key.loadedPublic H build pk = key' := by
  simp only [parsePublicKey, run_bind, run_fetch, fetch_bind, run_require, require_bind_eq_some,
    Bool.and_eq_true, beq_iff_eq, Key.unloaded_iff, run_onFailure, onFailure_eq_some,
    addStorage_malloc_bind_eq_some]
  refine and_congr_right fun _ ↦ ?_
  constructor
  · rintro ⟨⟨hlen, hctx⟩, halloc, h⟩
    obtain ⟨hok, pk, rest, hinput, rfl⟩ :=
      (parsePubkey_eq_some (key.addStorage .blank false) hlen.ge rfl rfl).mp h
    refine ⟨⟨hctx, halloc, hok⟩, pk, ?_, rfl⟩
    rw [hinput, List.length_append, pk.length_encode, Nat.add_eq_left] at hlen
    rw [hinput, List.length_eq_zero_iff.mp hlen, List.append_nil]
  · rintro ⟨⟨hctx, halloc, hok⟩, pk, rfl, rfl⟩
    exact ⟨⟨pk.length_encode, hctx⟩, halloc, (parsePubkey_eq_some (key.addStorage .blank false)
      pk.length_encode.ge rfl rfl).mpr ⟨hok, pk, [], (List.append_nil _).symm, rfl⟩⟩

/-- `ossl_ml_kem_parse_private_key` succeeds exactly on the encoding of a private key. -/
theorem parsePrivateKey_eq_some :
    (parsePrivateKey H build ok input).run key = (some u, key') ↔
      key.Unloaded ∧ (ok .mdCtxNew = true ∧ ok .allocStorage = true ∧ Build.Hashes build ok) ∧
        ∃ sk : SecretKey v, input = sk.encode H ∧ key.loadedPrivate H build sk = key' := by
  simp only [parsePrivateKey, run_bind, run_fetch, fetch_bind, run_require, require_bind_eq_some,
    Bool.and_eq_true, beq_iff_eq, Key.unloaded_iff, run_onFailure, onFailure_eq_some,
    addStorage_malloc_bind_eq_some]
  refine and_congr_right fun _ ↦ ?_
  constructor
  · rintro ⟨⟨hlen, hctx⟩, halloc, h⟩
    obtain ⟨hok, sk, hinput, rfl⟩ :=
      (parsePrvkey_eq_some (key.addStorage .blank true) hlen rfl rfl rfl).mp h
    exact ⟨⟨hctx, halloc, hok⟩, sk, hinput, rfl⟩
  · rintro ⟨⟨hctx, halloc, hok⟩, sk, rfl, rfl⟩
    exact ⟨⟨sk.length_encode H, hctx⟩, halloc, (parsePrvkey_eq_some (key.addStorage .blank true)
      (sk.length_encode H) rfl rfl rfl).mpr ⟨hok, sk, rfl, rfl⟩⟩

/-- The key with a seed stashed in it. -/
def Key.stashed (seed : Bytes) (key : Key v) : Key v :=
  { key with
    z := some .seedbufLow
    d := some .seedbufHigh
    mem := fun
      | .seedbufLow => ⟨.z, seed.drop 32⟩
      | .seedbufHigh => ⟨.d, seed.take 32⟩
      | p => key.mem p }

theorem run_setSeed (seed : Bytes) (key : Key v) :
    (setSeed seed).run key =
      if key.t = none ∧ key.d = none ∧ seed.length = 64 then (some (), key.stashed seed)
      else (none, key) := by
  have hmem (c c' : Contents) :
      Function.update (Function.update key.mem .seedbufHigh c') .seedbufLow c = fun
        | .seedbufLow => c
        | .seedbufHigh => c'
        | p => key.mem p := by
    funext p
    cases p <;> rfl
  rw [setSeed, run_bind, run_fetch, fetch_bind, run_bind, run_require]
  split
  next h =>
    rw [require_bind (by simp [Key.havePubkey, Key.haveSeed, h]), run_bind, run_update, update_bind,
      run_bind, store_bind, ofOption_some_bind, update_bind, run_store, fetch_bind, Key.write,
      ofOption_some_bind, update, Key.write, hmem]
    rfl
  next h =>
    have hfalse : (!key.havePubkey && !key.haveSeed && seed.length == 64) = false := by
      rw [Bool.eq_false_iff]
      simpa [Key.havePubkey, Key.haveSeed, and_assoc] using h
    rw [hfalse, require_false_bind]

/-! ## Key generation -/

/-- The key with a seed beside its private key. -/
def Key.withSeed (seed : Bytes) (key : Key v) : Key v :=
  { key with
    mem := fun
      | .zbufLow => ⟨.z, (seed.drop 32).take 32⟩
      | .zbufHigh => if key.retainSeed then ⟨.d, seed.take 32⟩ else .zero
      | p => key.mem p
    d := if key.retainSeed then some .zbufHigh else none }

variable (key) in
theorem run_storeSeed (hz : key.z = some .zbufLow) :
    (storeSeed seed).run key = (some (), key.withSeed seed) := by
  have hmem (c c' : Contents) :
      Function.update (Function.update key.mem .zbufLow c) .zbufHigh c' = fun
        | .zbufLow => c
        | .zbufHigh => c'
        | p => key.mem p := by
    funext p
    cases p <;> rfl
  rw [storeSeed, run_bind, store_bind, hz, ofOption_some_bind, update_bind, run_bind, run_update,
    update_bind, run_bind, run_fetch, fetch_bind, Key.withSeed]
  cases hr : key.retainSeed with
  | true =>
    rw [if_pos, run_store, fetch_bind]
    · simp only [Key.write, hz, Option.map_some, Place.next, ofOption_some_bind, update, hmem]
      rfl
    · exact hr
  | false =>
    rw [if_neg, run_bind, store_bind]
    · simp only [Key.write, hz, Option.map_some, Place.next, ofOption_some_bind, update_bind, hmem]
      rfl
    · exact fun h ↦ Bool.false_ne_true (hr.symm.trans h)

/-- The seed from which `ossl_ml_kem_genkey` starts. -/
def Key.seedSource (random : Option Seed) (key : Key v) : Option Bytes :=
  if key.haveSeed then key.encodeSeed 64 else random.map Subtype.val

/-- The key after its seed has been taken. -/
def Key.seedTaken (key : Key v) : Key v :=
  if key.haveSeed then { key with d := none, z := none } else key

theorem Key.addStorage_seedTaken (p : Storage v) (priv : Bool) (key : Key v) :
    key.seedTaken.addStorage p priv = key.addStorage p priv := by
  rw [seedTaken]
  split
  · cases priv <;> rfl
  · rfl

theorem takeSeed_bind_eq_some {β : Type} {random : Option Seed} {f : Bytes → Act (Key v) β}
    {b : β} : ((takeSeed random).run >>= f) key = (some b, key') ↔
      ∃ seed, key.seedSource random = some seed ∧ f seed key.seedTaken = (some b, key') := by
  rw [takeSeed, run_bind, run_fetch, Key.seedSource, Key.seedTaken]
  cases h : key.haveSeed with
  | true =>
    rw [bind_eq_some]
    simp only [fetch_bind, h, if_true, run_bind, run_ofOption, run_update, run_pure,
      ofOption_bind_eq_some, update_bind, pure_eq_some]
    constructor
    · rintro ⟨_, _, ⟨seed, hseed, rfl, rfl⟩, hf⟩
      exact ⟨seed, hseed, hf⟩
    · rintro ⟨seed, hseed, hf⟩
      exact ⟨seed, _, ⟨seed, hseed, rfl, rfl⟩, hf⟩
  | false =>
    rw [bind_eq_some]
    simp only [fetch_bind, h, Bool.false_eq_true, if_false, run_bind, run_ofOption, run_pure,
      ofOption_bind_eq_some, pure_eq_some, Option.map_eq_some_iff]
    constructor
    · rintro ⟨_, _, ⟨seed, hseed, rfl, rfl⟩, hf⟩
      exact ⟨seed, ⟨seed, hseed, rfl⟩, hf⟩
    · rintro ⟨_, ⟨seed, hseed, rfl⟩, hf⟩
      exact ⟨seed, _, ⟨seed, hseed, rfl, rfl⟩, hf⟩

/-- `ossl_ml_kem_genkey` runs the key generation in new storage. -/
theorem generateKey_eq_some
    {genkey : Bytes → Bool → Proc v (Option Bytes)}
    {pubenc : Option ℕ} {random : Option Seed} :
    (generateKey ok genkey pubenc random).run key = (some pub, key') ↔
      key.Unloaded ∧ pubenc.all (· == v.pubkeyBytes) = true ∧
        (ok .mdCtxNew = true ∧ ok .allocStorage = true) ∧
        ∃ seed, key.seedSource random = some seed ∧
          (genkey seed pubenc.isSome).run (key.addStorage .blank true) = (some pub, key') := by
  simp only [generateKey, run_bind, run_fetch, fetch_bind, run_require, require_bind_eq_some,
    Bool.and_eq_true, Key.unloaded_iff, takeSeed_bind_eq_some, run_onFailure,
    onFailure_bind_eq_some, onFailure_eq_some, run_cleanup, cleanup_eq_some, run_emit, pure_snd,
    exists_eq_right, addStorage_malloc_bind_eq_some, Key.addStorage_seedTaken]
  refine and_congr_right fun _ ↦ and_congr_right fun _ ↦ ?_
  constructor
  · rintro ⟨seed, hseed, hctx, halloc, h⟩
    exact ⟨⟨hctx, halloc⟩, seed, hseed, h⟩
  · rintro ⟨⟨hctx, halloc⟩, seed, hseed, h⟩
    exact ⟨seed, hseed, hctx, halloc, h⟩

variable (H) in
/-- What the engine returns are the encodings of KeyGen_internal. -/
def KeypairEngine.Correct (v : Variant) (engine : KeypairEngine) : Prop :=
  ∀ seed (hseed : seed.length = 64) pair, engine seed = some pair →
    pair = ((keyGenSeed H v seed hseed).pub.encode, (keyGenSeed H v seed hseed).encode H)

variable (key) in
/-- `qudo_genkey` leaves the key object of the key that the seed generates. -/
theorem qudoGenkey_eq_some_of_storage (hrho : key.rho = some .seedbufLow)
    (hpkhash : key.pkhash = some .seedbufHigh) (hz : key.z = some .zbufLow)
    {engine : KeypairEngine} (hseed : seed.length = 64)
    (hengine : ∀ pair, engine seed = some pair →
      pair = ((keyGenSeed H v seed hseed).pub.encode, (keyGenSeed H v seed hseed).encode H))
    {pubenc : Bool} :
    (qudoGenkey H ok engine seed pubenc).run key = (some pub, key') ↔
      (ok .engineNew = true ∧ ok .allocPrvenc = true ∧ ok .allocPubenc = true ∧
          ok .hashH = true) ∧
        (engine seed).isSome = true ∧
        pub = (if pubenc then some (keyGenSeed H v seed hseed).pub.encode else none) ∧
        (key.withPrivate H .delegated (keyGenSeed H v seed hseed)).withSeed seed =
          key' := by
  generalize hsk : keyGenSeed H v seed hseed = sk
  have hpair : ∀ pair, engine seed = some pair → pair = (sk.pub.encode, sk.encode H) := by
    rw [← hsk]
    exact hengine
  have hz' : (key.withPrivate H .delegated sk).z = some .zbufLow := hz
  simp only [qudoGenkey, run_bind, run_require, require_bind_eq_some, run_cleanup, cleanup_eq_some,
    run_clearFree, pure_snd, exists_eq_right, run_ofOption, ofOption_bind_eq_some, run_pure]
  constructor
  · rintro ⟨hnew, hprv, hpub, pair, heng, h⟩
    obtain rfl := hpair pair heng
    obtain ⟨_, r, hparse, h⟩ := bind_eq_some.mp h
    obtain ⟨⟨hhash, -⟩, sk', henc, rfl⟩ :=
      (parsePrvkey_eq_some key (sk.length_encode H) hrho hpkhash hz).mp hparse
    obtain rfl := SecretKey.encode_injective H henc
    rw [bind_of_eq_some _ (run_storeSeed (key.withPrivate H .delegated sk) hz'), pure_eq_some] at h
    obtain ⟨rfl, rfl⟩ := h
    exact ⟨⟨hnew, hprv, hpub, hhash⟩, by rw [heng]; rfl, rfl, rfl⟩
  · rintro ⟨⟨hnew, hprv, hpub, hhash⟩, hsome, rfl, rfl⟩
    obtain ⟨pair, heng⟩ := Option.isSome_iff_exists.mp hsome
    obtain rfl := hpair pair heng
    refine ⟨hnew, hprv, hpub, _, heng, bind_eq_some.mpr ⟨(), _,
      (parsePrvkey_eq_some key (sk.length_encode H) hrho hpkhash hz).mpr
        ⟨⟨hhash, fun h ↦ Build.noConfusion h⟩, sk, rfl, rfl⟩, ?_⟩⟩
    exact bind_eq_some.mpr ⟨(), _, run_storeSeed (key.withPrivate H .delegated sk) hz',
      pure_eq_some.mpr ⟨rfl, rfl⟩⟩

/-- The same, in new storage. -/
theorem qudoGenkey_eq_some {engine : KeypairEngine} (hengine : engine.Correct H v)
    (hseed : seed.length = 64) {pubenc : Bool} :
    (qudoGenkey H ok engine seed pubenc).run (key.addStorage .blank true) = (some pub, key') ↔
      (ok .engineNew = true ∧ ok .allocPrvenc = true ∧ ok .allocPubenc = true ∧
          ok .hashH = true) ∧
        (engine seed).isSome = true ∧
        pub = (if pubenc then some (keyGenSeed H v seed hseed).pub.encode else none) ∧
        (key.loadedPrivate H .delegated (keyGenSeed H v seed hseed)).withSeed seed =
          key' :=
  qudoGenkey_eq_some_of_storage (key.addStorage .blank true) rfl rfl rfl hseed (hengine seed hseed)

end Parsing

/-! ## Duplication -/

section Duplication

variable {ok : Call → Bool} {src ret copy : Key v}

/-- What `ossl_ml_kem_key_dup` selects of a key. -/
def Key.selected (selection : UInt32) (src : Key v) : UInt32 :=
  src.fulfil selection &&& selectKeypair

/-- What `OPENSSL_memdup` copies. -/
theorem dupStorage_eq_some {priv : Bool} {p : Storage v} (h : dupStorage ok src priv = some p) :
    src.t = some p.t ∧ src.m = some p.m ∧ (priv = true →
      src.s = some p.s ∧ p.zbufLow = src.mem .zbufLow ∧ p.zbufHigh = src.mem .zbufHigh) := by
  cases priv <;> simp only [dupStorage, Option.bind_eq_bind, Option.bind_eq_some_iff] at h
  · obtain ⟨-, -, t, ht, m, hm, h⟩ := h
    cases h
    exact ⟨ht, hm, nofun⟩
  · obtain ⟨-, -, t, ht, m, hm, h⟩ := h
    rw [if_pos trivial, Option.bind_eq_some_iff] at h
    obtain ⟨s, hs, h⟩ := h
    cases h
    exact ⟨ht, hm, fun _ ↦ ⟨hs, rfl, rfl⟩⟩

/-- The copy with the storage `p`. -/
def Key.copied (src ret : Key v) (p : Storage v) (priv : Bool) (rho pkhash : Bytes) : Key v :=
  ({ ret.addStorage p priv with
    d := if priv && src.d.isSome then some .zbufHigh else none }.write .seedbufLow
      ⟨.rho, rho⟩).write .seedbufHigh ⟨.pkhash, pkhash⟩

theorem dupSelected_eq_some {selected : UInt32} (hselected : selected ≠ 0) {u : Unit}
    (h : (dupSelected ok src selected).run ret = (some u, copy)) :
    ∃ p, dupStorage ok src (selected != selectPublicKey) = some p ∧
      copy = { ret.addStorage p (selected != selectPublicKey) with
        d := if selected != selectPublicKey && src.d.isSome then some .zbufHigh else none } := by
  rw [dupSelected, if_neg (by simpa using hselected)] at h
  cases hpub : selected == selectPublicKey with
  | true =>
    rw [hpub, if_pos rfl] at h
    rw [bne, hpub]
    cases hp : dupStorage ok src false with
    | none =>
      rw [hp] at h
      exact absurd (congrArg Prod.fst h).symm (Option.some_ne_none u)
    | some p =>
      rw [hp] at h
      exact ⟨p, hp, (Prod.mk.inj h).2.symm⟩
  | false =>
    rw [hpub, if_neg Bool.false_ne_true, dupPrivate, run_bind] at h
    rw [bne, hpub]
    cases hp : dupStorage ok src true with
    | none =>
      rw [hp, bind_of_eq_none _ (run_addStorage_none true ret)] at h
      exact absurd (congrArg Prod.fst h).symm (Option.some_ne_none u)
    | some p =>
      rw [hp, bind_of_eq_some _ (run_addStorage_some p true ret)] at h
      refine ⟨p, hp, ?_⟩
      cases hd : src.d.isSome with
      | true =>
        rw [hd] at h
        exact (Prod.mk.inj h).2.symm
      | false =>
        rw [hd] at h
        exact (Prod.mk.inj h).2.symm

theorem restoreSeedbuf_eq_some {u : Unit} (h : (restoreSeedbuf src).run ret = (some u, copy))
    (hrho : ret.rho = some .seedbufLow) (hpkhash : ret.pkhash = some .seedbufHigh) :
    ∃ rho pkhash, src.deref src.rho = some rho ∧ src.deref src.pkhash = some pkhash ∧
      copy = (ret.write .seedbufLow ⟨.rho, rho⟩).write .seedbufHigh ⟨.pkhash, pkhash⟩ := by
  rw [restoreSeedbuf, run_bind, run_ofOption] at h
  obtain ⟨rho, hrho', h⟩ := ofOption_bind_eq_some.mp h
  rw [run_bind, store_bind, hrho, ofOption_some_bind, update_bind, run_bind, run_ofOption] at h
  obtain ⟨pkhash, hpkhash', h⟩ := ofOption_bind_eq_some.mp h
  rw [run_store, fetch_bind, show (ret.write .seedbufLow ⟨.rho, rho⟩).pkhash = _ from hpkhash,
    ofOption_some_bind, update_eq_some] at h
  exact ⟨rho, pkhash, hrho', hpkhash', h.symm⟩

theorem dupInto_eq_some {selection : UInt32} {u : Unit}
    (h : (dupInto ok src selection).run ret = (some u, copy)) :
    src.selected selection = 0 ∧ copy = ret ∨
      src.selected selection ≠ 0 ∧ ∃ p rho pkhash,
        dupStorage ok src (src.selected selection != selectPublicKey) = some p ∧
        src.deref src.rho = some rho ∧ src.deref src.pkhash = some pkhash ∧
        copy = src.copied ret p (src.selected selection != selectPublicKey) rho pkhash := by
  rw [dupInto, run_bind, run_onFailure, onFailure_bind_eq_some, ← Key.selected] at h
  by_cases hzero : src.selected selection = 0
  · rw [hzero] at h
    obtain ⟨-, rfl⟩ := pure_eq_some.mp h
    exact .inl ⟨hzero, rfl⟩
  · obtain ⟨_, r, hdup, hrest⟩ := bind_eq_some.mp h
    obtain ⟨p, hp, rfl⟩ := dupSelected_eq_some hzero hdup
    rw [if_pos (by simpa using hzero)] at hrest
    have hptr : (ret.addStorage p (src.selected selection != selectPublicKey)).rho =
          some .seedbufLow ∧
        (ret.addStorage p (src.selected selection != selectPublicKey)).pkhash =
          some .seedbufHigh := by
      cases src.selected selection != selectPublicKey <;> exact ⟨rfl, rfl⟩
    obtain ⟨rho, pkhash, hrho, hpkhash, rfl⟩ := restoreSeedbuf_eq_some hrest hptr.1 hptr.2
    exact .inr ⟨hzero, p, rho, pkhash, hp, hrho, hpkhash, rfl⟩

/-- A copy is made of an object that is not just decoded. -/
theorem keyDup_eq_some {selection : UInt32} {key' : Key v}
    (h : (keyDup ok selection).run src = (some copy, key')) :
    src.decodedKey = false ∧ ∃ u, (dupInto ok src selection).run src.shell = (some u, copy) := by
  simp only [keyDup, run_bind, run_fetch, run_require, run_apart, fetch_bind,
    require_bind_eq_some] at h
  obtain ⟨hdecoded, -, h⟩ := h
  obtain ⟨hcopy, -⟩ := Prod.mk.inj h
  obtain ⟨u, hu, rfl⟩ := Option.map_eq_some_iff.mp hcopy
  exact ⟨by simpa using hdecoded, u, Prod.ext hu rfl⟩

end Duplication

end Ossl

end MlKem
