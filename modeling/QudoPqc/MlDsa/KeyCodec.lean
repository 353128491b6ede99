import QudoPqc.MlDsa.Key

/-!
# What the key functions compute

For each function of `ml_dsa_encoders.c` and `ml_dsa_key.c` that reads or writes an encoding, when
it succeeds and what it then leaves in the key object, in terms of the keys of FIPS 204. The
decoders accept the encodings of keys and nothing else, and what they fill in are the
representatives in `[0, q)` of the key's coefficients.
-/

namespace MlDsa

open Codec Fallible Fallible.Act Fips204
open Fallible.Traced (run_apart run_bind run_cleanup run_emit run_fetch run_forSome run_ite
  run_ofOption run_onFailure run_pure run_require run_update)

variable {v : Variant}

/-- Small coefficients with the same representatives are equal. -/
theorem PolyVec.repr_inj {n : ℕ} {a b : PolyVec n ℤ} (ha : ∀ i j, |a i j| ≤ 2 ^ 20)
    (hb : ∀ i j, |b i j| ≤ 2 ^ 20) : a.repr = b.repr ↔ a = b := by
  refine ⟨fun h ↦ funext fun i ↦ funext fun j ↦ ?_, congrArg _⟩
  have hval : (a i j : ZMod q).val = (b i j : ZMod q).val := congrFun (congrFun h i) j
  rw [← Native.valMinAbs_intCast (ha i j), ZMod.val_injective q hval,
    Native.valMinAbs_intCast (hb i j)]

/-- A public key is determined by its encoding. -/
theorem Fips204.PublicKey.encode_injective :
    Function.Injective (encode : PublicKey v → Bytes) := by
  intro pk pk' h
  have hsmall : ∀ (pk : PublicKey v) i j, |pk.t1 i j| ≤ 2 ^ 20 := by
    intro pk i j
    have := pk.t1_range i j
    rw [abs_le]
    omega
  have hread := fun pk : PublicKey v ↦
    (Ossl.getVector_polyDecode10Bits (encodeVec (simpleBitPack 10) pk.t1) [] _).mpr
      ⟨pk.t1, pk.t1_range, rfl, (List.append_nil _).symm⟩
  obtain ⟨hrho, henc⟩ := List.append_inj h (pk.length_rho.trans pk'.length_rho.symm)
  have ht1 := hread pk
  rw [henc, hread pk', Option.some.injEq, Prod.mk.injEq,
    PolyVec.repr_inj (hsmall pk') (hsmall pk)] at ht1
  rcases pk with ⟨rho, t1, hlen, hrange⟩
  obtain rfl : rho = pk'.rho := hrho
  obtain rfl : t1 = pk'.t1 := ht1.1.symm
  rfl

namespace Ossl

/-! ## Runs of the building blocks -/

@[simp] theorem run_clearFree (held : Held) (bs : Option Bytes) :
    (clearFree held bs : Proc v Unit).run = pure () := rfl

@[simp] theorem run_keyReset : (keyReset : Proc v Unit).run = update Key.reset :=
  rfl

@[simp] theorem run_keyFree : (keyFree : Proc v Unit).run = update Key.reset :=
  rfl

@[simp] theorem run_resetKeepingSeed : (resetKeepingSeed : Proc v Unit).run =
    update fun key ↦ { key.reset with seed := key.seed } := rfl

@[simp] theorem run_dropSeed (retain : Bool) :
    (dropSeed retain : Proc v Unit).run = update (Key.dropSeed retain) := by
  cases retain <;> rfl

/-! ## What the functions compute -/

/-- The representatives of a private key's vectors. -/
def PrivVectors.ofSecret (sk : SecretKey v) : PrivVectors v :=
  ⟨sk.s1.repr, sk.s2.repr, sk.t0.repr⟩

section Specification

variable (S : Sampling v) (ok : Call → Bool) (key : Key v) {key' : Key v} {u : Unit}

theorem yields_keyPubAlloc :
    Yields (keyPubAlloc ok).run key (key.t1 = none ∧ ok .allocT1 = true) ()
      { key with t1 := some fun _ _ ↦ 0 } := by
  intro u key'
  simp [keyPubAlloc, and_assoc]

theorem yields_keyPrivAlloc :
    Yields (keyPrivAlloc ok).run key (key.priv = none ∧ ok .allocS1 = true) ()
      { key with priv := some ⟨fun _ _ ↦ 0, fun _ _ ↦ 0, fun _ _ ↦ 0⟩ } := by
  intro u key'
  simp [keyPrivAlloc, and_assoc]

theorem yields_pkEncode (pk : PublicKey v) (hrho : key.rho = pk.rho)
    (ht1 : key.t1 = some pk.t1.repr) :
    Yields (pkEncode ok).run key (ok .allocPk = true) ()
      { key with pubEncoding := some pk.encode } := by
  intro u key'
  have henc : key.rho ++ encodeVec polyEncode10Bits pk.t1.repr = pk.encode := by
    rw [hrho, encodeVec_polyEncode10Bits pk.t1_range, PublicKey.encode]
  simp [pkEncode, ht1, henc, pk.length_encode, -List.length_append]

theorem yields_skEncode (sk : SecretKey v) (hrho : key.rho = sk.rho)
    (hK : key.K = sk.K) (htr : key.tr = sk.tr) (hpriv : key.priv = some (.ofSecret sk)) :
    Yields (skEncode ok).run key (ok .allocSk = true) ()
      { key with privEncoding := some sk.encode } := by
  intro u key'
  have henc : key.rho ++ (key.K ++ (key.tr ++ (encodeVec (etaEncode v) sk.s1.repr ++
      (encodeVec (etaEncode v) sk.s2.repr ++
        encodeVec polyEncodeSignedTwoToPower12 sk.t0.repr)))) = sk.encode := by
    rw [hrho, hK, htr, encodeVec_etaEncode sk.s1_short, encodeVec_etaEncode sk.s2_short,
      encodeVec_polyEncodeSignedTwoToPower12 sk.t0_range, SecretKey.encode]
  simp [skEncode, hpriv, PrivVectors.ofSecret, henc, sk.length_encode, -List.length_append]

theorem yields_hashPublic {enc : Bytes} (henc : key.pubEncoding = some enc) :
    Yields (hashPublic S ok).run key (ok .hashPk = true) () { key with tr := S.xof enc 64 } := by
  intro u key'
  simp [hashPublic, henc]

/-- The vector computed from `s1` and `s2` is rounded as in FIPS 204. -/
theorem yields_publicFromPrivate {p : PrivVectors v} {s1 : PolyVec v.l ℤ} {s2 : PolyVec v.k ℤ}
    (hpriv : key.priv = some p) (hs1 : p.s1 = s1.repr) (hs2 : p.s2 = s2.repr) :
    Yields (publicFromPrivate S ok).run key (ok .allocPolys = true ∧ ok .expandA = true)
      (PolyVec.repr fun i j ↦ (Fips204.power2Round (publicVector S key.rho s1 s2 i j)).1,
        PolyVec.repr fun i j ↦ (Fips204.power2Round (publicVector S key.rho s1 s2 i j)).2) key := by
  intro t key'
  have ht : vectorAdd (matrixMultVector (S.expandA key.rho) p.s1) p.s2 =
      PolyVec.val (publicVector S key.rho s1 s2) := by
    rw [hs1, hs2, matrixMultVector_repr]
    exact vectorAdd_val _ s2.residue
  simp [publicFromPrivate, hpriv, ht, vectorPower2Round_val, and_assoc]

/-- The fields of a private key are read off its encoding, and nothing else is accepted. -/
theorem decodePrivate_eq_some {key : Key v} {atReturn : Bytes → Bytes} {bytes tr : Bytes}
    (hkey : key.priv.isSome) :
    (decodePrivate atReturn bytes).run key = (some tr, key') ↔
      ∃ sk : SecretKey v, bytes = sk.encode ∧ tr = sk.tr ∧
        key' = { key with rho := sk.rho, K := sk.K, priv := some (.ofSecret sk) } := by
  obtain ⟨p, hp⟩ := Option.isSome_iff_exists.mp hkey
  simp only [decodePrivate, run_bind, run_ofOption, run_update, run_emit, run_require, run_pure,
    Act.pure_bind, update_bind, ofOption_bind_eq_some, require_bind_eq_some, pure_eq_some,
    Prod.exists, List.isEmpty_iff]
  constructor
  · rintro ⟨rho, rest1, h1, K, rest2, h2, tr', rest3, h3, s1, rest4, h4, s2, rest5, h5, t0, rest6,
      h6, rfl, rfl, rfl⟩
    obtain ⟨hrho, rfl⟩ := (reads_getBytes _ _ _ _).mp h1
    obtain ⟨hK, rfl⟩ := (reads_getBytes _ _ _ _).mp h2
    obtain ⟨htr, rfl⟩ := (reads_getBytes _ _ _ _).mp h3
    obtain ⟨z1, hz1, rfl, rfl⟩ := (getVector_etaDecode _ _ _).mp h4
    obtain ⟨z2, hz2, rfl, rfl⟩ := (getVector_etaDecode _ _ _).mp h5
    obtain ⟨z0, hz0, rfl, rfl⟩ := (getVector_polyDecodeSignedTwoToPower12 _ _ _).mp h6
    refine ⟨⟨rho, K, tr', z1, z2, z0, hrho, hK, htr, hz1, hz2, hz0⟩, ?_, rfl, ?_⟩
    · rw [List.append_nil]
      rfl
    · rw [hp]
      rfl
  · rintro ⟨sk, rfl, rfl, rfl⟩
    refine ⟨_, _, getBytes_append sk.length_rho _, _, _, getBytes_append sk.length_K _, _, _,
      getBytes_append sk.length_tr _, _, _, (getVector_etaDecode _ _ _).mpr
      ⟨sk.s1, sk.s1_short, rfl, rfl⟩, _, _, (getVector_etaDecode _ _ _).mpr
      ⟨sk.s2, sk.s2_short, rfl, rfl⟩, _, [], (getVector_polyDecodeSignedTwoToPower12 _ _ _).mpr
      ⟨sk.t0, sk.t0_range, rfl, (List.append_nil _).symm⟩, rfl, rfl, ?_⟩
    rw [hp]
    rfl

theorem decodePrivate_bind_eq_some {β : Type} {atReturn : Bytes → Bytes}
    {bytes : Bytes} {f : Bytes → Act (Key v) β} {b : β} (hkey : key.priv.isSome) :
    ((decodePrivate atReturn bytes).run >>= f) key = (some b, key') ↔
      ∃ sk : SecretKey v, bytes = sk.encode ∧
        f sk.tr { key with rho := sk.rho, K := sk.K, priv := some (.ofSecret sk) } =
          (some b, key') := by
  rw [bind_eq_some]
  constructor
  · rintro ⟨tr, key₁, hdecode, hf⟩
    obtain ⟨sk, rfl, rfl, rfl⟩ := (decodePrivate_eq_some hkey).mp hdecode
    exact ⟨sk, rfl, hf⟩
  · rintro ⟨sk, rfl, hf⟩
    exact ⟨_, _, (decodePrivate_eq_some hkey).mpr ⟨sk, rfl, rfl, rfl⟩, hf⟩

/-- The key object of a key pair. -/
def Key.filled (key : Key v) (pk : PublicKey v) (sk : SecretKey v) : Key v :=
  { key with
    rho := sk.rho, K := sk.K, tr := sk.tr, pubEncoding := some pk.encode,
    privEncoding := some sk.encode, t1 := some pk.t1.repr, priv := some (.ofSecret sk) }

/-- The key object of a public key. -/
def Key.filledPublic (S : Sampling v) (key : Key v) (pk : PublicKey v) : Key v :=
  { key with
    rho := pk.rho, tr := S.xof pk.encode 64, pubEncoding := some pk.encode,
    t1 := some pk.t1.repr }

/-- `ossl_ml_dsa_pk_decode` accepts exactly the encodings of public keys. -/
theorem pkDecode_eq_some {key : Key v} {input : Bytes} :
    (pkDecode S ok input).run key = (some u, key') ↔
      (key.privEncoding = none ∧ key.pubEncoding = none ∧ key.t1 = none ∧
        ok .allocT1 = true ∧ ok .mdCtxNew = true ∧ ok .hashPk = true ∧ ok .dupPub = true) ∧
      ∃ pk : PublicKey v, input = pk.encode ∧ key' = key.filledPublic S pk := by
  simp only [pkDecode, run_bind, run_fetch, run_ofOption, run_update, run_require, fetch_bind,
    require_bind_eq_some, ofOption_bind_eq_some, update_bind, update_eq_some,
    (yields_keyPubAlloc ok _).bind_iff, Bool.and_eq_true, Option.isNone_iff_eq_none, beq_iff_eq,
    Prod.exists]
  constructor
  · rintro ⟨⟨hpriv, hpub⟩, hlen, ⟨ht1, halloc⟩, hctx, rho, rest, hrho, t1, rest', ht, hhash, hdup,
      rfl⟩
    obtain ⟨hrholen, rfl⟩ := (reads_getBytes _ _ _ _).mp hrho
    obtain ⟨z, hz, rfl, rfl⟩ := (getVector_polyDecode10Bits _ _ _).mp ht
    -- the length leaves no room for more bytes
    have hpk := PublicKey.length_encode ⟨rho, z, hrholen, hz⟩
    have hrest : rest' = [] := by
      rw [← hpk, PublicKey.encode] at hlen
      simpa only [id, List.length_append, Nat.add_right_inj, Nat.add_eq_left,
        List.length_eq_zero_iff] using hlen
    rw [hrest, List.append_nil]
    exact ⟨⟨hpriv, hpub, ht1, halloc, hctx, hhash, hdup⟩, ⟨rho, z, hrholen, hz⟩, rfl, rfl⟩
  · rintro ⟨⟨hpriv, hpub, ht1, halloc, hctx, hhash, hdup⟩, pk, rfl, rfl⟩
    exact ⟨⟨hpriv, hpub⟩, pk.length_encode, ⟨ht1, halloc⟩, hctx, _, _,
      getBytes_append pk.length_rho _, _, [], (getVector_polyDecode10Bits _ _ _).mpr
      ⟨pk.t1, pk.t1_range, rfl, (List.append_nil _).symm⟩, hhash, hdup, rfl⟩

/-- Coefficients of `t0` with the same representative are equal. -/
theorem repr_t0_inj {a b : PolyVec v.k ℤ} (ha : ∀ i j, -2 ^ 12 < a i j ∧ a i j ≤ 2 ^ 12)
    (hb : ∀ i j, -2 ^ 12 < b i j ∧ b i j ≤ 2 ^ 12) : a.repr = b.repr ↔ a = b := by
  have hsmall : ∀ c : ℤ, -2 ^ 12 < c ∧ c ≤ 2 ^ 12 → |c| ≤ 2 ^ 20 := by
    intro c hc
    rw [abs_le]
    omega
  exact PolyVec.repr_inj (fun i j ↦ hsmall _ (ha i j)) fun i j ↦ hsmall _ (hb i j)

/-- The public part is computed from the private one, and has to agree with its `t0`. -/
theorem yields_keyPublicFromPrivate {key : Key v} (sk : SecretKey v)
    (hrho : key.rho = sk.rho)
    (hpriv : key.priv = some (.ofSecret sk)) :
    Yields (keyPublicFromPrivate S ok).run key
      (ok .allocT0 = true ∧ ok .mdCtxNew = true ∧ (key.t1 = none ∧ ok .allocT1 = true) ∧
        (ok .allocPolys = true ∧ ok .expandA = true) ∧
        (∀ i j, sk.t0 i j =
          (Fips204.power2Round (publicVector S sk.rho sk.s1 sk.s2 i j)).2) ∧
        ok .allocPk = true ∧ ok .hashPk = true) ()
      { key with
        t1 := some (sk.publicKey S).t1.repr, pubEncoding := some (sk.publicKey S).encode,
        tr := S.xof (sk.publicKey S).encode 64 } := by
  rcases key with ⟨rho, tr, K, pub, enc, seed, flags, t1, priv⟩
  obtain rfl : rho = sk.rho := hrho
  obtain rfl : priv = some (.ofSecret sk) := hpriv
  intro u key'
  have ht0 : (PolyVec.repr fun i j ↦
      (Fips204.power2Round (publicVector S sk.rho sk.s1 sk.s2 i j)).2) = sk.t0.repr ↔
      ∀ i j, sk.t0 i j =
        (Fips204.power2Round (publicVector S sk.rho sk.s1 sk.s2 i j)).2 := by
    rw [repr_t0_inj (fun i j ↦ (power2Round_range _).2) sk.t0_range, eq_comm, funext_iff]
    exact forall_congr' fun i ↦ funext_iff
  have hpublic := yields_publicFromPrivate S ok
    ⟨sk.rho, tr, K, pub, enc, seed, flags, some fun _ _ ↦ 0, some (.ofSecret sk)⟩ rfl rfl rfl
  have hencode := yields_pkEncode ok ⟨sk.rho, tr, K, pub, enc, seed, flags,
    some (sk.publicKey S).t1.repr, some (.ofSecret sk)⟩ (sk.publicKey S) rfl rfl
  have hhash := yields_hashPublic S ok ⟨sk.rho, tr, K, some (sk.publicKey S).encode, enc, seed,
    flags, some (sk.publicKey S).t1.repr, some (.ofSecret sk)⟩ rfl
  simp only [keyPublicFromPrivate, run_bind, run_require, run_emit, run_update, run_fetch,
    run_ofOption, Act.pure_bind, require_bind_eq_some, (yields_keyPubAlloc ok _).bind_iff,
    hpublic.bind_iff, update_bind, fetch_bind, ofOption_bind_eq_some, Option.some.injEq,
    exists_eq_left', decide_eq_true_iff]
  rw [show (PrivVectors.ofSecret sk).t0 = sk.t0.repr from rfl, ht0]
  have hlast := hencode.bind_iff (f := fun _ ↦ (hashPublic S ok).run) (b := u) (t := key')
  rw [hhash] at hlast
  constructor
  · rintro ⟨h1, h2, h3, h4, h5, h6⟩
    obtain ⟨h7, h8, -, h9⟩ := hlast.mp h6
    exact ⟨⟨h1, h2, h3, h4, h5, h7, h8⟩, trivial, h9⟩
  · rintro ⟨⟨h1, h2, h3, h4, h5, h7, h8⟩, -, h9⟩
    exact ⟨h1, h2, h3, h4, h5, hlast.mpr ⟨h7, h8, rfl, h9⟩⟩

/-- A private key passes the check if what it repeats of its public key is right. -/
theorem yields_checkPublic (sk : SecretKey v) (hrho : key.rho = sk.rho)
    (hpriv : key.priv = some (.ofSecret sk)) :
    Yields (checkPublic S ok sk.tr).run key
      ((ok .allocT0 = true ∧ ok .mdCtxNew = true ∧ (key.t1 = none ∧ ok .allocT1 = true) ∧
        (ok .allocPolys = true ∧ ok .expandA = true) ∧ ok .allocPk = true ∧ ok .hashPk = true) ∧
        sk.Consistent S) ()
      { key with
        t1 := some (sk.publicKey S).t1.repr, pubEncoding := some (sk.publicKey S).encode,
        tr := sk.tr } := by
  intro u key'
  simp only [checkPublic, run_bind, run_fetch, run_require,
    (yields_keyPublicFromPrivate S ok sk hrho hpriv).bind_iff, fetch_bind, require_eq_some,
    beq_iff_eq, true_and]
  constructor
  · rintro ⟨⟨h1, h2, h3, h4, ht0, h5, h6⟩, htr, rfl⟩
    exact ⟨⟨⟨h1, h2, h3, h4, h5, h6⟩, ht0, htr⟩, by rw [htr]⟩
  · rintro ⟨⟨⟨h1, h2, h3, h4, h5, h6⟩, ht0, htr⟩, rfl⟩
    exact ⟨⟨h1, h2, h3, h4, ht0, h5, h6⟩, htr, by rw [htr]⟩

/-- `ossl_ml_dsa_sk_decode` accepts exactly the encodings of private keys whose repeated public
data is right. -/
theorem skDecode_eq_some {src : Source} :
    (skDecode S ok src).run key = (some u, key') ↔
      (src.mayFill key = true ∧ key.pubEncoding = none ∧ key.priv = none ∧ key.t1 = none) ∧
      (ok .allocS1 = true ∧ (key.privEncoding.isSome = true ∨ ok .dupPriv = true) ∧
        ok .allocT0 = true ∧ ok .mdCtxNew = true ∧ ok .allocT1 = true ∧ ok .allocPolys = true ∧
        ok .expandA = true ∧ ok .allocPk = true ∧ ok .hashPk = true) ∧
      ∃ sk : SecretKey v, src.bytes key = sk.encode ∧ sk.Consistent S ∧
        key' = { key with seed := none }.filled (sk.publicKey S) sk := by
  simp only [skDecode, run_bind, run_fetch, run_update, run_require, run_onFailure, run_clearFree,
    Act.pure_bind, update_bind, fetch_bind, require_bind_eq_some,
    (yields_keyPrivAlloc ok _).bind_iff, Bool.and_eq_true, beq_iff_eq, Option.isNone_iff_eq_none]
  rw [decodePrivate_bind_eq_some _ rfl]
  simp only [require_bind_eq_some, update_bind, onFailure_eq_some, Bool.or_eq_true]
  constructor
  · rintro ⟨⟨hfill, hpub⟩, -, ⟨hpriv, hS1⟩, sk, hbytes, hdup, hcheck⟩
    obtain ⟨⟨⟨h1, h2, ⟨ht1, h3⟩, ⟨h4, h5⟩, h6, h7⟩, hsk⟩, -, rfl⟩ :=
      (yields_checkPublic S ok _ sk rfl rfl u key').mp hcheck
    refine ⟨⟨hfill, hpub, hpriv, ht1⟩, ⟨hS1, hdup, h1, h2, h3, h4, h5, h6, h7⟩, sk, hbytes, hsk, ?_⟩
    rw [hbytes]
    rfl
  · rintro ⟨⟨hfill, hpub, hpriv, ht1⟩, ⟨hS1, hdup, h1, h2, h3, h4, h5, h6, h7⟩, sk, hbytes,
      hsk, rfl⟩
    refine ⟨⟨hfill, hpub⟩, by rw [hbytes, sk.length_encode], ⟨hpriv, hS1⟩, sk, hbytes, hdup, ?_⟩
    refine (yields_checkPublic S ok _ sk rfl rfl u _).mpr
      ⟨⟨⟨h1, h2, ⟨ht1, h3⟩, ⟨h4, h5⟩, h6, h7⟩, hsk⟩, rfl, ?_⟩
    rw [hbytes]
    rfl

/-- `ossl_ml_dsa_keypair_decode` accepts two encodings with the same `rho` and the right `tr`; it
does not compare `t1` and `t0`. -/
theorem keypairDecode_eq_some {pkBytes skBytes : Bytes} :
    (keypairDecode S ok pkBytes skBytes).run key = (some u, key') ↔
      (key.privEncoding = none ∧ key.pubEncoding = none ∧ key.t1 = none ∧ key.priv = none) ∧
      (ok .allocT1 = true ∧ ok .allocS1 = true ∧ ok .mdCtxNew = true ∧ ok .hashPk = true ∧
        ok .dupPub = true ∧ ok .dupPriv = true) ∧
      ∃ (pk : PublicKey v) (sk : SecretKey v), pkBytes = pk.encode ∧
        skBytes = sk.encode ∧ pk.rho = sk.rho ∧ sk.tr = S.xof pk.encode 64 ∧
        key' = key.filled pk sk := by
  simp only [keypairDecode, run_bind, run_fetch, run_update, run_require, run_onFailure,
    run_ofOption, fetch_bind, require_bind_eq_some, (yields_keyPubAlloc ok _).bind_iff,
    (yields_keyPrivAlloc ok _).bind_iff, onFailure_eq_some, Bool.and_eq_true, beq_iff_eq,
    Option.isNone_iff_eq_none]
  rw [decodePrivate_bind_eq_some _ rfl]
  simp only [require_bind_eq_some, update_bind, fetch_bind, ofOption_bind_eq_some, update_eq_some,
    Prod.exists, beq_iff_eq, List.isEmpty_iff]
  constructor
  · rintro ⟨⟨hpriv, hpub⟩, -, ⟨ht1, h1⟩, ⟨hvec, h2⟩, sk, rfl, rho, rest, hrho, rfl, t1, rest', ht,
      rfl, h3, h4, htr, h5, h6, rfl⟩
    obtain ⟨hlen, rfl⟩ := (reads_getBytes _ _ _ _).mp hrho
    obtain ⟨z, hz, rfl, rfl⟩ := (getVector_polyDecode10Bits _ _ _).mp ht
    rw [List.append_nil] at htr ⊢
    exact ⟨⟨hpriv, hpub, ht1, hvec⟩, ⟨h1, h2, h3, h4, h5, h6⟩, ⟨sk.rho, z, hlen, hz⟩, sk, rfl, rfl,
      rfl, htr, by rw [Key.filled, htr]; rfl⟩
  · rintro ⟨⟨hpriv, hpub, ht1, hvec⟩, ⟨h1, h2, h3, h4, h5, h6⟩, pk, sk, rfl, rfl, hrho, htr, rfl⟩
    refine ⟨⟨hpriv, hpub⟩, ⟨pk.length_encode, sk.length_encode⟩, ⟨ht1, h1⟩, ⟨hvec, h2⟩, sk, rfl,
      _, _, getBytes_append pk.length_rho _, hrho, _, [], (getVector_polyDecode10Bits _ _ _).mpr
      ⟨pk.t1, pk.t1_range, rfl, (List.append_nil _).symm⟩, rfl, h3, h4, htr, h5, h6, ?_⟩
    rw [Key.filled, htr]

/-- Of a pair that belongs together, `ossl_ml_dsa_keypair_decode` fills in the fields. -/
theorem filled_of_keypairDecode {pk : PublicKey v} {sk : SecretKey v}
    (hrho : pk.rho = sk.rho) (htr : sk.tr = S.xof pk.encode 64)
    (h : (keypairDecode S ok pk.encode sk.encode).run key = (some u, key')) :
    key' = key.filled pk sk := by
  obtain ⟨hkey, hok, -⟩ := (keypairDecode_eq_some S ok key).mp h
  have hfilled := (keypairDecode_eq_some S ok key (u := u)).mpr
    ⟨hkey, hok, pk, sk, rfl, rfl, hrho, htr, rfl⟩
  rw [h] at hfilled
  exact (Prod.mk.inj hfilled).2

/-- `qudo_keygen` decodes what the engine returns, and then sees to the seed. -/
theorem qudoKeygen_eq_some {engine : Seed → Option (Bytes × Bytes)} :
    (qudoKeygen S ok engine).run key = (some u, key') ↔
      ∃ seed, key.seed = some seed ∧ ok .engineNew = true ∧ ok .allocPk = true ∧
        ok .allocSk = true ∧ ∃ pair, engine seed = some pair ∧
          ∃ r, (keypairDecode S ok pair.1 pair.2).run key = (some u, r) ∧
            r.dropSeed key.retainSeed = key' := by
  simp only [qudoKeygen, run_bind, run_fetch, run_cleanup, run_ofOption, run_require, run_emit,
    run_clearFree, run_dropSeed, fetch_bind, Act.pure_bind, cleanup_eq_some, ofOption_bind_eq_some,
    require_bind_eq_some]
  constructor
  · rintro ⟨r, ⟨seed, hseed, h1, h2, h3, pair, hpair, hr⟩, rfl⟩
    exact ⟨seed, hseed, h1, h2, h3, pair, hpair, r, hr, rfl⟩
  · rintro ⟨seed, hseed, h1, h2, h3, pair, hpair, r, hr, rfl⟩
    exact ⟨r, ⟨seed, hseed, h1, h2, h3, pair, hpair, hr⟩, rfl⟩

theorem keygenMatching_eq_some {keygen : Proc v Unit}
    {prekey : Option Bytes} :
    (keygenMatching keygen prekey).run key = (some u, key') ↔
      keygen.run key = (some u, key') ∧ ∀ sk, prekey = some sk →
        ∃ enc, key'.privEncoding = some enc ∧
          enc.take v.params.skLen = sk.take v.params.skLen := by
  rw [keygenMatching]
  rw [run_bind, bind_eq_some]
  cases prekey with
  | none =>
    constructor
    · rintro ⟨_, r, hr, hnext⟩
      obtain ⟨-, rfl⟩ := pure_eq_some.mp hnext
      exact ⟨hr, nofun⟩
    · rintro ⟨hr, -⟩
      exact ⟨u, key', hr, rfl⟩
  | some sk =>
    simp only [run_forSome, Option.elim_some, run_bind, run_fetch, run_ofOption, run_onFailure,
      run_require, fetch_bind, ofOption_bind_eq_some, onFailure_eq_some, require_eq_some,
      beq_iff_eq, Option.some.injEq, forall_eq']
    constructor
    · rintro ⟨_, r, hr, enc, henc, htake, rfl⟩
      exact ⟨hr, enc, henc, htake⟩
    · rintro ⟨hr, enc, henc, htake⟩
      exact ⟨u, key', hr, enc, henc, htake, rfl⟩

theorem ensureSeed_bind_eq_some {β : Type} {random : Option Seed} {f : Unit → Act (Key v) β}
    {b : β} : ((ensureSeed ok random).run >>= f) key = (some b, key') ↔
      ∃ seed, (key.seed = some seed ∨
          key.seed = none ∧ ok .allocSeed = true ∧ random = some seed) ∧
        f () { key with seed := some seed } = (some b, key') := by
  rcases key with ⟨rho, tr, K, pub, prekey, seed, flags, t1, priv⟩
  rw [bind_eq_some]
  cases seed <;> simp [ensureSeed, and_assoc, Unique.exists_iff]

/-- `ossl_ml_dsa_generate_key` runs the key generation on a key with a seed and no private
encoding, and compares with the private encoding that was there. -/
theorem generateKey_eq_some {keygen : Proc v Unit} {random : Option Seed} :
    (generateKey ok keygen random).run key = (some u, key') ↔
      ∃ seed, (key.seed = some seed ∨
          key.seed = none ∧ ok .allocSeed = true ∧ random = some seed) ∧
        keygen.run { key with seed := some seed, privEncoding := none } = (some u, key') ∧
        ∀ sk, key.privEncoding = some sk → ∃ enc, key'.privEncoding = some enc ∧
          enc.take v.params.skLen = sk.take v.params.skLen := by
  simp only [generateKey, run_bind, run_fetch, fetch_bind, run_update, run_cleanup, run_clearFree,
    ensureSeed_bind_eq_some, update_bind, cleanup_eq_some, keygenMatching_eq_some, pure_snd,
    exists_eq_right]

end Specification

/-! ## Duplication -/

section Duplication

variable (ok : Call → Bool) {src ret ret' : Key v} {u : Unit}

/-- The copy with the public part of the source. -/
def Key.copyPublic (src ret : Key v) : Key v :=
  match src.pubEncoding with
  | none => ret
  | some pub =>
    { ret with
      rho := src.rho, tr := src.tr, t1 := src.t1, pubEncoding := some (pub.take v.params.pkLen) }

/-- The copy with the private part of the source. -/
def Key.copyPrivate (src ret : Key v) : Key v :=
  match src.privEncoding with
  | none => ret
  | some enc =>
    { ret with K := src.K, priv := src.priv, privEncoding := some (enc.take v.params.skLen) }

/-- The copy of what is selected. -/
def Key.selected (selection : UInt32) (src : Key v) : Key v :=
  if selection &&& selectKeypair != 0 then
    if selection &&& selectPrivateKey != 0 then
      { src.copyPrivate (src.copyPublic (.blank src.provFlags)) with seed := src.seed }
    else src.copyPublic (.blank src.provFlags)
  else .blank src.provFlags

theorem dupPublic_eq_some (hret : ret.t1 = none)
    (h : (dupPublic ok src).run ret = (some u, ret')) : ret' = src.copyPublic ret := by
  rw [dupPublic, run_forSome] at h
  rw [Key.copyPublic]
  cases hpub : src.pubEncoding with
  | none =>
    rw [hpub] at h
    exact (pure_eq_some.mp h).2.symm
  | some pub =>
    rw [hpub] at h
    cases ht1 : src.t1 with
    | none =>
      simp only [ht1, Option.elim_some, Option.elim_none, run_bind, run_update, run_forSome,
        run_require, update_bind, Act.pure_bind, require_bind_eq_some, update_eq_some] at h
      rw [← h.2, hret]
    | some t1 =>
      simp only [ht1, Option.elim_some, run_bind, run_update, run_forSome, run_require, update_bind,
        bind_eq_some, yields_keyPubAlloc ok _ _ _, require_eq_some, update_eq_some] at h
      obtain ⟨_, _, ⟨_, _, ⟨-, -, rfl⟩, rfl⟩, _, _, ⟨-, rfl⟩, rfl⟩ := h
      rfl

theorem dupPrivate_eq_some (hret : ret.priv = none)
    (h : (dupPrivate ok src).run ret = (some u, ret')) : ret' = src.copyPrivate ret := by
  rw [dupPrivate, run_forSome] at h
  rw [Key.copyPrivate]
  cases hpriv : src.privEncoding with
  | none =>
    rw [hpriv] at h
    exact (pure_eq_some.mp h).2.symm
  | some enc =>
    rw [hpriv] at h
    cases hp : src.priv with
    | none =>
      simp only [hp, Option.elim_some, Option.elim_none, run_bind, run_update, run_forSome,
        run_require, update_bind, Act.pure_bind, require_bind_eq_some, update_eq_some] at h
      rw [← h.2, hret]
    | some p =>
      simp only [hp, Option.elim_some, run_bind, run_update, run_forSome, run_require, update_bind,
        bind_eq_some, yields_keyPrivAlloc ok _ _ _, require_eq_some, update_eq_some] at h
      obtain ⟨_, _, ⟨_, _, ⟨-, -, rfl⟩, rfl⟩, _, _, ⟨-, rfl⟩, rfl⟩ := h
      rfl

theorem dupSeed_eq_some (hret : ret.seed = none) (h : (dupSeed ok src).run ret = (some u, ret')) :
    ret' = { ret with seed := src.seed } := by
  rw [dupSeed, run_forSome] at h
  cases hseed : src.seed with
  | none =>
    rw [hseed] at h
    rw [← hret]
    exact (pure_eq_some.mp h).2.symm
  | some seed =>
    rw [hseed] at h
    simp only [Option.elim_some, run_bind, run_require, run_update, require_bind_eq_some,
      update_eq_some] at h
    exact h.2.symm

theorem Key.copyPublic_priv (src ret : Key v) : (src.copyPublic ret).priv = ret.priv := by
  rw [copyPublic]
  split <;> rfl

theorem Key.copyPublic_seed (src ret : Key v) : (src.copyPublic ret).seed = ret.seed := by
  rw [copyPublic]
  split <;> rfl

theorem Key.copyPrivate_seed (src ret : Key v) : (src.copyPrivate ret).seed = ret.seed := by
  rw [copyPrivate]
  split <;> rfl

theorem dupInto_eq_some {selection : UInt32}
    (h : (dupInto ok src selection).run (.blank src.provFlags) = (some u, ret')) :
    ret' = src.selected selection := by
  rw [dupInto, run_onFailure, onFailure_eq_some, run_ite] at h
  rw [Key.selected]
  split at h
  next hpair =>
    rw [if_pos hpair]
    rw [run_bind, bind_eq_some] at h
    obtain ⟨_, ret₁, hpublic, hrest⟩ := h
    obtain rfl := dupPublic_eq_some ok rfl hpublic
    rw [run_ite] at hrest
    split at hrest
    next hprivate =>
      rw [if_pos hprivate]
      rw [run_bind, bind_eq_some] at hrest
      obtain ⟨_, ret₂, hpriv, hseed⟩ := hrest
      obtain rfl := dupPrivate_eq_some ok (src.copyPublic_priv _) hpriv
      exact dupSeed_eq_some ok (by rw [Key.copyPrivate_seed, Key.copyPublic_seed]; rfl) hseed
    next hprivate =>
      rw [if_neg hprivate]
      exact (pure_eq_some.mp hrest).2.symm
  next hpair =>
    rw [if_neg hpair]
    exact (pure_eq_some.mp h).2.symm

/-- A copy is made of what is selected, but not of a prekey; the source stays as it is. -/
theorem keyDup_eq_some {selection : UInt32} {key copy key' : Key v}
    (h : (keyDup ok selection).run key = (some copy, key')) :
    key' = key ∧ (key.pubEncoding = none → key.privEncoding = none ∧ key.seed = none) ∧
      copy = key.selected selection := by
  simp only [keyDup, run_bind, run_fetch, run_require, run_apart, fetch_bind,
    require_bind_eq_some] at h
  obtain ⟨hprekey, -, h⟩ := h
  obtain ⟨hcopy, rfl⟩ := Prod.mk.inj h
  obtain ⟨u, hu, rfl⟩ := Option.map_eq_some_iff.mp hcopy
  refine ⟨rfl, fun hpub ↦ ?_, dupInto_eq_some ok (Prod.ext hu rfl)⟩
  rw [hpub] at hprekey
  simpa using hprekey

end Duplication

end Ossl

end MlDsa
