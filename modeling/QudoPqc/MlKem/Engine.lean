import QudoPqc.Codec.Table
import QudoPqc.MlKem.ScalarCodec

/-!
# The ML-KEM engine

Encapsulation and decapsulation of the engine (`kem.c`). Both begin with a check of the key they
are given: a public key must be the encoding of its own residues, and the hash in a private key must
be that of the public key. The two checks accept every encoding of a key.

The public-key encryption of the engine (`indcpa.c`) is a parameter, `Kpke`; it computes what
FIPS 203 says on encodings of keys.
-/

namespace MlKem

open Codec Fips203

namespace Native

variable {v : Variant}

/-! ## Polynomials as bytes -/

/-- One round of `mlk_poly_frombytes`. -/
def frombytesRound : Bytes → List ℤ
  | [t0, t1, t2] =>
    [((t0.toNat ||| (t1.toNat <<< 8) &&& 0xfff : ℕ) : ℤ),
      ((t1.toNat >>> 4 ||| t2.toNat <<< 4 : ℕ) : ℤ)]
  | _ => []

/-- `mlk_poly_frombytes`. -/
def polyFrombytes (bs : Bytes) : Scalar ℤ := Scalar.ofList (blocks frombytesRound 3 128 bs)

/-- One round of `mlk_poly_tobytes`. -/
def tobytesRound : List ℤ → Bytes
  | [c0, c1] =>
    let t0 := (c0 % 2 ^ 16).toNat
    let t1 := (c1 % 2 ^ 16).toNat
    [UInt8.ofNat (t0 &&& 0xff), UInt8.ofNat (t0 >>> 8 ||| (t1 <<< 4) &&& 0xf0),
      UInt8.ofNat (t1 >>> 4)]
  | _ => []

/-- `mlk_poly_tobytes`. -/
def polyTobytes (p : Scalar ℤ) : Bytes := blocks tobytesRound 2 128 (List.ofFn p)

/-- `mlk_barrett_reduce`. -/
def barrettReduce (a : ℤ) : ℤ :=
  let t := Int.shiftRight (20159 * a + 2 ^ 25) 26
  a - t * q

/-- `mlk_scalar_signed_to_unsigned_q`. -/
def scalarSignedToUnsignedQ (c : ℤ) : ℤ := if c < 0 then c + q else c

/-- `mlk_poly_reduce`. -/
def polyReduce (p : Scalar ℤ) : Scalar ℤ := fun j ↦ scalarSignedToUnsignedQ (barrettReduce (p j))

/-- `mlk_polyvec_frombytes`. -/
def polyvecFrombytes (n : ℕ) (bs : Bytes) : Vec n ℤ := fun i ↦
  polyFrombytes ((bs.drop (384 * i)).take 384)

/-- `mlk_polyvec_tobytes`. -/
def polyvecTobytes {n : ℕ} (p : Vec n ℤ) : Bytes := (List.ofFn fun i ↦ polyTobytes (p i)).flatten

/-! ## Checks of keys -/

/-- `mlk_kem_check_pk`. -/
def kemCheckPk (v : Variant) (pk : Bytes) : Bool :=
  let p := polyvecFrombytes v.rank pk
  polyvecTobytes (fun i ↦ polyReduce (p i)) == pk.take v.vectorBytes

/-- `mlk_kem_check_sk`. -/
def kemCheckSk (H : Primitives) (v : Variant) (sk : Bytes) : Bool :=
  let test := H.sha3_256 ((sk.drop v.vectorBytes).take v.pubkeyBytes)
  (sk.drop (v.prvkeyBytes - 64)).take 32 == test

/-! ## Encapsulation and decapsulation -/

/-- `mlk_indcpa_enc` and `mlk_indcpa_dec`. -/
structure Kpke where
  enc : (m pk coins : Bytes) → Bytes
  dec : (c sk : Bytes) → Bytes

/-- The public-key encryption computes K-PKE on encodings of keys. -/
structure Kpke.Correct (H : Primitives) (v : Variant) (P : Kpke) : Prop where
  enc_eq : ∀ (m coins : Bytes) (pk : PublicKey v), P.enc m pk.encode coins = encrypt H pk m coins
  dec_eq : ∀ (c : Bytes) (s : Vec v.rank (ZMod q)), P.dec c (encodeVec 12 s.repr) = decrypt s c

/-- K-PKE of FIPS 203, on encodings. -/
def fips203Kpke (H : Primitives) (v : Variant) : Kpke where
  enc m bs coins :=
    match Ossl.vectorDecode12 v.rank bs with
    | some (t, rho) =>
      if hrho : rho.length = 32 then
        encrypt H (⟨t.residue, rho, hrho⟩ : PublicKey v) m coins
      else []
    | none => []
  dec c bs :=
    match Ossl.vectorDecode12 v.rank bs with
    | some (s, _) => decrypt s.residue c
    | none => []

theorem correct_fips203Kpke (H : Primitives) (v : Variant) : (fips203Kpke H v).Correct H v where
  enc_eq m coins pk := by
    have hread := (Ossl.reads_vectorDecode12 v.rank pk.encode pk.t.repr pk.rho).mpr
      ⟨pk.t.repr_lt, rfl⟩
    simp only [fips203Kpke, hread, dif_pos pk.length_rho, Vec.residue_repr]
  dec_eq c s := by
    have hread := (Ossl.reads_vectorDecode12 v.rank (encodeVec 12 s.repr) s.repr []).mpr
      ⟨s.repr_lt, (List.append_nil _).symm⟩
    simp only [fips203Kpke, hread, Vec.residue_repr]

/-- `mlk_kem_enc_derand`. -/
def kemEncDerand (H : Primitives) (v : Variant) (P : Kpke) (pk coins : Bytes) :
    Option (Bytes × Bytes) :=
  if kemCheckPk v pk then
    let kr := H.sha3_512 (coins ++ H.sha3_256 pk)
    some (P.enc coins pk (kr.drop 32), kr.take 32)
  else none

/-- `mlk_kem_dec`. -/
def kemDec (H : Primitives) (v : Variant) (P : Kpke) (sk ct : Bytes) :
    Option Bytes :=
  let pk := (sk.drop v.vectorBytes).take v.pubkeyBytes
  if kemCheckSk H v sk then
    let m := P.dec ct (sk.take v.vectorBytes)
    let kr := H.sha3_512 (m ++ (sk.drop (v.prvkeyBytes - 64)).take 32)
    if ct = P.enc m pk (kr.drop 32) then some (kr.take 32)
    else some (H.xof ((sk.drop (v.prvkeyBytes - 32)).take 32 ++ ct) 32)
  else none

/-! ## The checks accept encodings -/

theorem frombytesRound_eq {bs : Bytes} (hlen : bs.length = 3) :
    frombytesRound bs = (unpack 12 2 bs).map Nat.cast := by
  match bs, hlen with
  | [t0, t1, t2], _ =>
    have h0 := toNat_lt t0
    have h1 := toNat_lt t1
    have h2 := toNat_lt t2
    have hmask : (t1.toNat <<< 8) &&& 0xfff = (t1.toNat % 2 ^ 4) <<< 8 := by
      rw [Nat.and_two_pow_sub_one_eq_mod _ 12, shiftLeft_mod 8 4]
    have hunpack : unpack 12 2 [t0, t1, t2] =
        [t0.toNat ||| (t1.toNat <<< 8) &&& 0xfff, t1.toNat >>> 4 ||| t2.toNat <<< 4] := by
      rw [hmask, or_shiftLeft 8 h0, Nat.shiftRight_eq_div_pow, or_shiftLeft 4 (by omega)]
      simp only [unpack, split, loadLe, List.cons.injEq, and_true]
      omega
    rw [hunpack]
    rfl

theorem tobytesRound_eq {cs : List ℤ} (hlen : cs.length = 2) (hcs : ∀ c ∈ cs, 0 ≤ c ∧ c < 2 ^ 12) :
    tobytesRound cs = pack 12 (cs.map Int.toNat) := by
  match cs, hlen with
  | [c0, c1], _ =>
    obtain ⟨h0, h0'⟩ := hcs c0 (by simp)
    obtain ⟨h1, h1'⟩ := hcs c1 (by simp)
    obtain ⟨t0, rfl⟩ := Int.eq_ofNat_of_zero_le h0
    obtain ⟨t1, rfl⟩ := Int.eq_ofNat_of_zero_le h1
    have ht0 : ((t0 : ℤ) % 2 ^ 16).toNat = t0 := by omega
    have ht1 : ((t1 : ℤ) % 2 ^ 16).toNat = t1 := by omega
    have hmask : (t1 <<< 4) &&& 0xf0 = (t1 % 2 ^ 4) <<< 4 := by
      rw [← Nat.and_two_pow_sub_one_eq_mod, Nat.shiftLeft_and_distrib]
      rfl
    refine eq_pack rfl ?_
    rw [tobytesRound, ht0, ht1, hmask, Nat.shiftRight_eq_div_pow, Nat.shiftRight_eq_div_pow,
      or_shiftLeft 4 (by omega), Nat.and_two_pow_sub_one_eq_mod _ 8]
    simp only [loadLe, List.map_cons, List.map_nil, Int.toNat_natCast, Nat.ofDigits_cons,
      Nat.ofDigits_nil, UInt8.toNat_ofNat']
    omega

/-- Barrett reduction of twelve bits. -/
theorem reduce_of_lt {a : ℤ} (h : 0 ≤ a) (hlt : a < 2 ^ 12) :
    scalarSignedToUnsignedQ (barrettReduce a) = a % q := by
  have hq : q = 3329 := rfl
  have hshift : Int.shiftRight (20159 * a + 2 ^ 25) 26 = (20159 * a + 2 ^ 25) / 2 ^ 26 :=
    Int.shiftRight_eq_div_pow _ 26
  rw [scalarSignedToUnsignedQ, barrettReduce, hshift, hq]
  split <;> omega

theorem polyFrombytes_byteEncode {s : Scalar ℕ} (hs : ∀ j, s j < 2 ^ 12) :
    polyFrombytes (byteEncode 12 s) = fun j ↦ (s j : ℤ) := by
  have hwords : ∀ x ∈ List.ofFn s, x < 2 ^ 12 := by
    rw [List.forall_mem_ofFn_iff]
    exact hs
  have hlen : (List.ofFn s).length = 256 := List.length_ofFn
  have hunpack := unpack_pack (m := 384) (show 12 * (List.ofFn s).length =
    8 * 384 by rw [hlen]) hwords
  rw [hlen] at hunpack
  rw [polyFrombytes, blocks_eq_unpack (w := 12) (g := 2) rfl (fun _ ↦ frombytesRound_eq)
    (length_byteEncode 12 s), byteEncode, hunpack, List.map_ofFn, Scalar.ofList_ofFn]
  rfl

theorem polyTobytes_eq {s : Scalar ℕ} (hs : ∀ j, s j < 2 ^ 12) :
    polyTobytes (fun j ↦ (s j : ℤ)) = byteEncode 12 s := by
  have hwords : ∀ c ∈ List.ofFn fun j ↦ (s j : ℤ), 0 ≤ c ∧ c < 2 ^ 12 := by
    rw [List.forall_mem_ofFn_iff]
    exact fun j ↦ ⟨Int.natCast_nonneg _, mod_cast hs j⟩
  have hblocks := blocks_eq_pack (w := 12) (g := 2) (m := 3) (n := 128) rfl
    (P := fun c : ℤ ↦ 0 ≤ c ∧ c < 2 ^ 12)
    (show ∀ c : ℤ, 0 ≤ c ∧ c < 2 ^ 12 → c.toNat < 2 ^ 12 from fun c hc ↦ by omega)
    (fun cs ↦ tobytesRound_eq) (show (List.ofFn fun j ↦ (s j : ℤ)).length = 128 * 2 from
      List.length_ofFn) hwords
  rw [polyTobytes, hblocks, List.map_ofFn]
  rfl

theorem polyReduce_repr (f : Scalar (ZMod q)) :
    polyReduce (fun j ↦ (f.repr j : ℤ)) = fun j ↦ (f.repr j : ℤ) := by
  funext j
  have hlt : f.repr j < q := (f j).val_lt
  have hq : q = 3329 := rfl
  rw [polyReduce, reduce_of_lt (by omega) (by omega), Int.emod_eq_of_lt (by omega) (by omega)]

/-- The encoding of a public key passes the check. -/
theorem kemCheckPk_encode (pk : PublicKey v) : kemCheckPk v pk.encode = true := by
  have hlt (i : Fin v.rank) (j : Fin degree) : pk.t.repr i j < 2 ^ 12 :=
    (pk.t.repr_lt i j).trans (by decide)
  have hrow : polyvecFrombytes v.rank pk.encode = fun i j ↦ (pk.t.repr i j : ℤ) := by
    funext i
    rw [polyvecFrombytes, PublicKey.encode, encodeVec,
      take_drop_flatten_ofFn (fun i ↦ length_byteEncode 12 _), polyFrombytes_byteEncode (hlt i)]
  have hvec : polyvecTobytes (fun i ↦ polyReduce fun j ↦ (pk.t.repr i j : ℤ)) =
      encodeVec 12 pk.t.repr := by
    rw [polyvecTobytes, encodeVec]
    refine congrArg (fun rows ↦ (List.ofFn rows).flatten) (funext fun i ↦ ?_)
    rw [← polyTobytes_eq (hlt i)]
    exact congrArg polyTobytes (polyReduce_repr (pk.t i))
  rw [kemCheckPk, hrow, pk.take_t, hvec, beq_self_eq_true]

/-- The encoding of a private key passes the check. -/
theorem kemCheckSk_encode (H : Primitives) (sk : SecretKey v) :
    kemCheckSk H v (sk.encode H) = true := by
  rw [kemCheckSk, v.prvkeyBytes_sub_64, sk.take_hash, sk.take_pub, beq_self_eq_true]

/-! ## The engine on encodings -/

section Correct

variable {H : Primitives} {P : Kpke} (hP : P.Correct H v)

include hP

/-- `mlk_kem_enc_derand` is Encaps_internal. -/
theorem kemEncDerand_encode (pk : PublicKey v) (coins : Bytes) :
    kemEncDerand H v P pk.encode coins = some (encaps H pk coins) := by
  rw [kemEncDerand, if_pos (kemCheckPk_encode pk)]
  simp only [hP.enc_eq]
  rfl

/-- `mlk_kem_dec` is Decaps_internal. -/
theorem kemDec_encode (sk : SecretKey v) (ct : Bytes) :
    kemDec H v P (sk.encode H) ct = some (decaps H sk ct) := by
  have hz : (sk.z).take 32 = sk.z := List.take_of_length_le sk.length_z.le
  rw [kemDec, if_pos (kemCheckSk_encode H sk), v.prvkeyBytes_sub_64, v.prvkeyBytes_sub_32,
    sk.take_pub, sk.take_s, sk.take_hash, sk.drop_z, hz, hP.dec_eq]
  simp only [hP.enc_eq]
  rw [← apply_ite some]
  exact congrArg some (if_congr eq_comm rfl rfl)

end Correct

end Native

end MlKem
