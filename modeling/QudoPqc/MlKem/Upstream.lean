import QudoPqc.MlKem.Compression
import QudoPqc.MlKem.KeyHistory
import QudoPqc.MlKem.Noise

/-!
# The functions of the upstream build

Key generation, encryption and decryption, encapsulation and decapsulation as `ml_kem.c` has them
without `QUDO_PQC_DELEGATE`. They work on the vectors and the matrix of a key object, where FIPS 203
works on encodings; on an object that holds a key they compute what FIPS 203 says of the key.
-/

namespace MlKem

open Codec Fallible Fallible.Act Fips203
open Fallible.Traced (run_bind run_fetch run_ite run_ofOption run_require run_update)

namespace Ossl

variable {v : Variant}

section Functions

variable (H : Primitives) (ok : Call → Bool)

/-! ## Key generation -/

/-- `hash_h_pubkey`: the digest of the public key, one scalar at a time. -/
def hashHPubkey {n : ℕ} (t : Vec n ℕ) (rho : Bytes) : Bytes :=
  H.sha3_256 ((List.ofFn fun i ↦ scalarEncode 12 (t i)).foldl (· ++ ·) [] ++ rho)

/-- The hash of the public key in `genkey`, and its encoding if that is asked for. -/
def storePkhash (pubenc : Bool) : Proc v (Option Bytes) := do
  let key ← .fetch
  if pubenc then do
    let enc ← .ofOption key.encodePubkey
    .require (ok .hashH)
    store Key.pkhash ⟨.pkhash, H.sha3_256 enc⟩
    pure (some enc)
  else do
    let t ← .ofOption key.t
    let rho ← .ofOption (key.deref key.rho)
    .require (ok .hashH)
    store Key.pkhash ⟨.pkhash, hashHPubkey H t rho⟩
    pure none

/-- `genkey`. -/
def genkey (seed : Bytes) (pubenc : Bool) : Proc v (Option Bytes) := do
  .require (ok .hashG)
  let hashed := H.sha3_512 (seed.take 32 ++ [UInt8.ofNat v.rank])
  let sigma := hashed.drop 32
  store Key.rho ⟨.rho, hashed.take 32⟩
  .require (ok .matrixExpand)
  let m := matrixExpand H v.rank (hashed.take 32)
  .update fun key ↦ { key with m := some m }
  let s ← .ofOption (gencbdVectorNtt (cbd1 H ok v) sigma v.rank 0)
  .update fun key ↦ { key with s := some s }
  let e ← .ofOption (gencbdVectorNtt (cbd1 H ok v) sigma v.rank v.rank)
  .update fun key ↦ { key with t := some (matrixMultTransposeAdd e m s) }
  let pub ← storePkhash H ok pubenc
  storeSeed seed
  pure pub

/-! ## Encryption -/

/-- `encrypt_cpa`. -/
def encryptCpa (key : Key v) (message r : Bytes) : Option Bytes := do
  let y ← gencbdVectorNtt (cbd1 H ok v) r v.rank 0
  let t ← key.t
  let w := scalarInverseNtt (innerProduct t y)
  let m ← key.m
  let u := matrixMultIntt m y
  let e1 ← gencbdVector (cbd2 H ok) r v.rank v.rank
  let u := vectorCompress (vectorAdd u e1) v.du
  let e2 ← cbd2 H ok (r ++ [UInt8.ofNat (2 * v.rank)])
  let w := scalarDecodeDecompressAdd (scalarAdd w e2) message
  pure (vectorEncode v.du u ++ scalarEncode v.dv (scalarCompress w v.dv))

/-- `vector_decode_decompress_ntt`. -/
def vectorDecodeDecompressNtt (n bits : ℕ) (input : Bytes) : Vec n ℕ := fun i ↦
  let stride := bits * degree / 8
  scalarNtt (scalarDecompress (scalarDecode bits (input.drop (stride * i))) bits)

/-- `decrypt_cpa`. -/
def decryptCpa (key : Key v) (ctext : Bytes) : Option Bytes := do
  let u := vectorDecodeDecompressNtt v.rank v.du ctext
  let w := scalarDecompress (scalarDecode v.dv (ctext.drop v.uVectorBytes)) v.dv
  let s ← key.s
  let mask := scalarInverseNtt (innerProduct s u)
  pure (scalarEncode1 (scalarCompress (scalarSub w mask) 1))

/-- `encap`: ciphertext and shared secret. -/
def encap (entropy : Bytes) : Proc v (Bytes × Bytes) := do
  let key ← .fetch
  let pkhash ← .ofOption (key.deref key.pkhash)
  .require (ok .hashG)
  let kr := H.sha3_512 (entropy ++ pkhash)
  let ctext ← .ofOption (encryptCpa H ok key entropy (kr.drop 32))
  pure (ctext, kr.take 32)

/-- The end of `decap`: the failure key is returned unless the ciphertext is that of the decrypted
message, and also if the hash or the encryption fails. -/
def reencrypt (key : Key v) (ctext decrypted pkhash failureKey : Bytes) : Bytes :=
  let kr := H.sha3_512 (decrypted ++ pkhash)
  match if ok .hashG then encryptCpa H ok key decrypted (kr.drop 32) else none with
  | none => failureKey
  | some tmpCtext => if ctext = tmpCtext then kr.take 32 else failureKey

/-- `decap`. -/
def decap (ctext : Bytes) : Proc v Bytes := do
  let key ← .fetch
  .require (ok .kdf)
  let z ← .ofOption (key.deref key.z)
  let decrypted ← .ofOption (decryptCpa key ctext)
  let pkhash ← .ofOption (key.deref key.pkhash)
  pure (reencrypt H ok key ctext decrypted pkhash (H.xof (z ++ ctext) 32))

end Functions

/-- Feeding a digest piece by piece. -/
theorem foldl_append_eq_flatten (bss : List Bytes) (bs : Bytes) :
    bss.foldl (· ++ ·) bs = bs ++ bss.flatten := by
  induction bss generalizing bs with
  | nil => rw [List.foldl_nil, List.flatten_nil, List.append_nil]
  | cons b bss ih => rw [List.foldl_cons, ih, List.flatten_cons, List.append_assoc]

section Generation

variable {H : Primitives} {ok : Call → Bool}

theorem matrixExpand_eq (n : ℕ) (rho : Bytes) :
    matrixExpand H n rho = Matrix.repr fun i j ↦ expandMatrix H n rho j i := rfl

theorem hashHPubkey_eq (pk : PublicKey v) :
    hashHPubkey H pk.t.repr pk.rho = H.sha3_256 pk.encode := by
  rw [hashHPubkey, foldl_append_eq_flatten, List.nil_append, ← vectorEncode, vectorEncode_repr]
  rfl

/-- The vector `t` of `genkey`. -/
theorem matrixMultTransposeAdd_keyGen (d : Bytes) :
    matrixMultTransposeAdd
        (Vec.repr fun i : Fin v.rank ↦ ntt (noise H v.eta1
          ((expandedSeed H v d).drop 32) (v.rank + i)))
        (matrixExpand H v.rank ((expandedSeed H v d).take 32))
        (secretVector H v d).repr =
      (publicKey H v d).t.repr := by
  rw [matrixExpand_eq, matrixMultTransposeAdd_repr]
  refine congrArg Vec.repr (funext fun i ↦ ?_)
  rw [add_comm]
  rfl

variable (key : Key v) (hrho : key.rho = some .seedbufLow)
  (hpkhash : key.pkhash = some .seedbufHigh)

include hrho hpkhash in
theorem run_storePkhash {pk : PublicKey v} (ht : key.t = some pk.t.repr)
    (hmem : (key.mem .seedbufLow).bytes = pk.rho) (hhash : ok .hashH = true) (pubenc : Bool) :
    (storePkhash H ok pubenc).run key = (some (if pubenc then some pk.encode else none),
      key.write .seedbufHigh ⟨.pkhash, H.sha3_256 pk.encode⟩) := by
  have hderef : key.deref key.rho = some pk.rho := by rw [hrho, Key.deref, Option.map_some, hmem]
  have henc : key.encodePubkey = some pk.encode := by
    rw [Key.encodePubkey, ht, hderef]
    simp [vectorEncode_repr, PublicKey.encode]
  rw [storePkhash, run_bind, run_fetch, fetch_bind, run_ite]
  cases pubenc with
  | true =>
    rw [if_pos rfl, run_bind, run_ofOption, henc, ofOption_some_bind, run_bind, run_require,
      require_bind hhash, run_bind, store_bind, hpkhash, ofOption_some_bind, update_bind]
    rfl
  | false =>
    rw [if_neg Bool.false_ne_true, run_bind, run_ofOption, ht, ofOption_some_bind, run_bind,
      run_ofOption, hderef, ofOption_some_bind, run_bind, run_require, require_bind hhash, run_bind,
      store_bind, hpkhash, ofOption_some_bind, update_bind, hashHPubkey_eq]
    rfl

include hrho hpkhash in
/-- `genkey` leaves the key object of the key that the seed generates. -/
theorem run_genkey (hz : key.z = some .zbufLow) {seed : Bytes} (hseed : seed.length = 64)
    (hok : ∀ c, ok c = true) (pubenc : Bool) :
    (genkey H ok seed pubenc).run key =
      (some (if pubenc then some (keyGenSeed H v seed hseed).pub.encode else none),
        (key.withPrivate H .upstream (keyGenSeed H v seed hseed)).withSeed seed) := by
  have hs : gencbdVectorNtt (cbd1 H ok v) ((expandedSeed H v (seed.take 32)).drop 32)
      v.rank 0 = some (secretVector H v (seed.take 32)).repr := by
    rw [gencbdVectorNtt_eq H (hok _)]
    simp only [Nat.zero_add]
    rfl
  have he : gencbdVectorNtt (cbd1 H ok v) ((expandedSeed H v (seed.take 32)).drop 32)
      v.rank v.rank = _ := gencbdVectorNtt_eq H (hok .prf) v v.rank v.rank
  let filled : Key v :=
    { key.write .seedbufLow ⟨.rho, (expandedSeed H v (seed.take 32)).take 32⟩ with
      m := some (matrixExpand H v.rank ((expandedSeed H v (seed.take 32)).take 32))
      s := some (secretVector H v (seed.take 32)).repr
      t := some (publicKey H v (seed.take 32)).t.repr }
  have hstore : (storePkhash H ok pubenc).run filled = _ :=
    run_storePkhash filled hrho hpkhash
      (show filled.t = some (publicKey H v (seed.take 32)).t.repr from rfl) rfl
      (hok .hashH) pubenc
  have hend : (storeSeed seed).run (filled.write .seedbufHigh
      ⟨.pkhash, H.sha3_256 (publicKey H v (seed.take 32)).encode⟩) = _ :=
    run_storeSeed _ hz
  rw [genkey, run_bind, run_require, require_bind (hok _), run_bind, store_bind, hrho,
    ofOption_some_bind, update_bind, run_bind, run_require, require_bind (hok _), run_bind,
    run_update, update_bind, run_bind, run_ofOption, ← expandedSeed, hs, ofOption_some_bind,
    run_bind, run_update, update_bind, run_bind, run_ofOption, he, ofOption_some_bind, run_bind,
    run_update, update_bind, matrixMultTransposeAdd_keyGen, run_bind, bind_of_eq_some _ hstore,
    run_bind, bind_of_eq_some _ hend]
  refine Prod.ext rfl ?_
  -- the two objects differ below `z` only, which the seed overwrites
  change Key.withSeed seed _ = _
  rw [Key.withSeed, Key.withSeed]
  have hflag : (filled.write .seedbufHigh
      ⟨.pkhash, H.sha3_256 (publicKey H v (seed.take 32)).encode⟩).retainSeed =
      (key.withPrivate H .upstream (keyGenSeed H v seed hseed)).retainSeed := rfl
  rw [hflag]
  congr 1
  funext p
  cases p <;> rfl

end Generation

/-! ## What encryption and decryption compute -/

section Encryption

variable {H : Primitives} {ok : Call → Bool}

theorem scalarCompress_repr {bits : ℕ} (hbits : bits ≤ 11) (f : Scalar (ZMod q)) :
    scalarCompress f.repr bits = fun j ↦ Fips203.compress bits (f j) :=
  funext fun j ↦ compress_eq hbits (f j)

theorem compress_lt (bits : ℕ) (x : ZMod q) : Fips203.compress bits x < 2 ^ bits :=
  Nat.mod_lt _ (Nat.two_pow_pos bits)

theorem byteDecode_lt (bits : ℕ) (bs : Bytes) (j : Fin degree) :
    byteDecode bits bs j < 2 ^ bits := by
  have hlen : (j : ℕ) < (unpack bits degree bs).length := by
    rw [length_unpack]
    exact j.isLt
  rw [byteDecode, Scalar.ofList, List.getD_eq_getElem _ _ hlen]
  exact unpack_lt (List.getElem_mem hlen)

/-- Only the bytes of the words count. -/
theorem byteDecode_take {bits : ℕ} {bs : Bytes} (hlen : 32 * bits ≤ bs.length) :
    byteDecode bits (bs.take (32 * bits)) = byteDecode bits bs := by
  have htake : bits * degree = 8 * (bs.take (32 * bits)).length := by
    rw [List.length_take, Nat.min_eq_left hlen, degree]
    omega
  have happend := unpack_append 0 (bs.drop (32 * bits)) htake
  rw [List.take_append_drop, Nat.add_zero] at happend
  rw [byteDecode, byteDecode, happend]
  simp [unpack, split]

/-- Reading rounded coefficients. -/
theorem scalarDecompress_scalarDecode {bits : ℕ} (hpos : 0 < bits) (hbits : bits ≤ 11)
    {input : Bytes} (hlen : 32 * bits ≤ input.length) :
    scalarDecompress (scalarDecode bits input) bits =
      Scalar.repr fun j ↦ Fips203.decompress bits (byteDecode bits input j) := by
  rw [scalarDecode_eq hpos (by omega) hlen]
  exact funext fun j ↦ decompress_eq hpos hbits (byteDecode_lt bits input j)

/-- `encrypt_cpa` is K-PKE.Encrypt. -/
theorem encryptCpa_eq {key : Key v} {pk : PublicKey v} (ht : key.t = some pk.t.repr)
    (hm : key.m = some (matrixExpand H v.rank pk.rho)) (hprf : ok .prf = true)
    (message r : Bytes) :
    encryptCpa H ok key message r = some (encrypt H pk message r) := by
  have hy : gencbdVectorNtt (cbd1 H ok v) r v.rank 0 = _ := gencbdVectorNtt_eq H hprf v v.rank 0
  simp only [Nat.zero_add] at hy
  have hu := v.du_bounds
  have hv := v.dv_bounds
  rw [encryptCpa, hy, ht, hm, gencbdVector_eq H hprf, cbd2_eq H hprf]
  simp only [Option.bind_eq_bind, Option.bind_some, Option.pure_def]
  rw [innerProduct_repr, scalarInverseNtt_repr, scalarAdd_repr, scalarDecodeDecompressAdd_repr,
    matrixExpand_eq, matrixMultIntt_repr, vectorAdd_repr, scalarCompress_repr hv.2,
    scalarEncode_eq (hv.2.trans (by decide)) fun j ↦ compress_lt _ _]
  have hcompress (f : Vec v.rank (ZMod q)) :
      vectorCompress f.repr v.du = fun i j ↦ Fips203.compress v.du (f i j) :=
    funext fun i ↦ scalarCompress_repr hu.2 (f i)
  rw [hcompress, vectorEncode_eq (hu.2.trans (by decide)) fun i j ↦ compress_lt _ _]
  rfl

/-- `decrypt_cpa` is K-PKE.Decrypt. -/
theorem decryptCpa_eq {key : Key v} {s : Vec v.rank (ZMod q)} (hs : key.s = some s.repr)
    {ctext : Bytes} (hlen : ctext.length = v.ctextBytes) :
    decryptCpa key ctext = some (decrypt s ctext) := by
  have hu := v.du_bounds
  have hv := v.dv_bounds
  rw [Variant.ctextBytes, Variant.uVectorBytes, Variant.vScalarBytes,
    show degree / 8 = 32 from rfl] at hlen
  have hw : 32 * v.dv ≤ (ctext.drop v.uVectorBytes).length := by
    rw [List.length_drop, hlen, Variant.uVectorBytes, show degree / 8 = 32 from rfl]
    omega
  have hrow (i : Fin v.rank) : 32 * v.du ≤ (ctext.drop (32 * v.du * i)).length := by
    have hi : 32 * v.du * (i + 1) ≤ 32 * v.du * v.rank := Nat.mul_le_mul_left _ i.isLt
    rw [List.length_drop, hlen]
    rw [Nat.mul_add, Nat.mul_one] at hi
    omega
  have hdecode : vectorDecodeDecompressNtt v.rank v.du ctext = Vec.repr fun i ↦
      ntt fun j ↦ Fips203.decompress v.du
        (byteDecode v.du ((ctext.drop (32 * v.du * i)).take (32 * v.du)) j) := by
    funext i
    have hstride : v.du * degree / 8 = 32 * v.du := by
      rw [degree]
      omega
    rw [vectorDecodeDecompressNtt, hstride, scalarDecompress_scalarDecode hu.1 hu.2 (hrow i),
      scalarNtt_repr, ← byteDecode_take (hrow i)]
    rfl
  rw [decryptCpa, hs, hdecode, scalarDecompress_scalarDecode hv.1 hv.2 hw]
  simp only [Option.bind_eq_bind, Option.bind_some, Option.pure_def]
  rw [innerProduct_repr, scalarInverseNtt_repr, scalarSub_repr, scalarCompress_repr (by decide),
    scalarEncode1_eq fun j ↦ compress_lt 1 _]
  rfl

end Encryption

end Ossl

end MlKem
