import QudoPqc.Codec.Table
import QudoPqc.MlDsa.KeyHistory

/-!
# Encodings of ML-DSA keys are canonical

A string of the right length is the encoding of a public key, and it is the encoding of a private
key as soon as the fields of `s1` and `s2` are at most `2 * eta`. The decoders of
`ml_dsa_encoders.c` accept exactly these strings, and encoding what they have filled in gives the
string back.
-/

namespace MlDsa

open Codec Fallible Fallible.Act
open Fips204 (PublicKey SecretKey)

namespace Variant

variable (v : Variant)

/-- The bytes of `s1` in a private key. -/
def s1Bytes : ℕ := 32 * v.etaBits * v.l

/-- The bytes of `s2` in a private key. -/
def s2Bytes : ℕ := 32 * v.etaBits * v.k

theorem skLen_eq : v.params.skLen = 128 + v.s1Bytes + v.s2Bytes + 416 * v.k := by
  cases v <;> rfl

theorem two_mul_eta_lt : 2 * v.eta < 2 ^ v.etaBits := by cases v <;> decide

end Variant

namespace Fips204

variable {v : Variant} {n w : ℕ} {bs : Bytes}

/-- The encodings of vectors with words up to `top`. -/
theorem exists_bitPack_iff {b top : ℕ} (htop : top < 2 ^ w) (hlen : bs.length = 32 * w * n) :
    (∃ z : PolyVec n ℤ, (∀ i j, (b : ℤ) - top ≤ z i j ∧ z i j ≤ b) ∧
      bs = encodeVec (bitPack b w) z) ↔ ∀ x ∈ unpack w (n * numCoeff) bs, x ≤ top := by
  rw [← exists_packTable_iff (show w * numCoeff = 8 * (32 * w) by rw [numCoeff]; omega) hlen]
  constructor
  · rintro ⟨z, hz, rfl⟩
    refine ⟨fun i j ↦ ((b : ℤ) - z i j).toNat, fun i j ↦ ?_, rfl⟩
    have hrange := hz i j
    constructor <;> beta_reduce <;> omega
  · rintro ⟨f, hf, rfl⟩
    refine ⟨fun i j ↦ (b : ℤ) - f i j, fun i j ↦ ?_, ?_⟩
    · have hle := (hf i j).2
      constructor <;> beta_reduce <;> omega
    · rw [encodeVec, packTable]
      refine congrArg (fun rows ↦ (List.ofFn rows).flatten) (funext fun i ↦ ?_)
      rw [bitPack]
      refine congrArg (fun row ↦ pack w (List.ofFn row)) (funext fun j ↦ ?_)
      rw [sub_sub_cancel, Int.toNat_natCast]

/-- The encodings of public keys. -/
theorem exists_publicKey_iff {input : Bytes} :
    (∃ pk : PublicKey v, input = pk.encode) ↔ input.length = v.params.pkLen := by
  constructor
  · rintro ⟨pk, rfl⟩
    exact pk.length_encode
  · exact PublicKey.exists_encode

/-- The fields of `s1` and `s2` in a private key are at most `2 * eta`. -/
def ShortFields (v : Variant) (input : Bytes) : Prop :=
  (∀ x ∈ unpack v.etaBits (v.l * numCoeff) ((input.drop 128).take v.s1Bytes), x ≤ 2 * v.eta) ∧
    ∀ x ∈ unpack v.etaBits (v.k * numCoeff) ((input.drop (128 + v.s1Bytes)).take v.s2Bytes),
      x ≤ 2 * v.eta

theorem abs_le_iff_range (v : Variant) (c : ℤ) :
    |c| ≤ v.eta ↔ (v.eta : ℤ) - (2 * v.eta : ℕ) ≤ c ∧ c ≤ v.eta := by
  rw [abs_le]
  omega

/-- The encodings of short vectors. -/
theorem exists_short_iff (v : Variant) (hlen : bs.length = 32 * v.etaBits * n) :
    (∃ z : PolyVec n ℤ, (∀ i j, |z i j| ≤ v.eta) ∧ bs = encodeVec (bitPack v.eta v.etaBits) z) ↔
      ∀ x ∈ unpack v.etaBits (n * numCoeff) bs, x ≤ 2 * v.eta := by
  simp only [abs_le_iff_range]
  exact exists_bitPack_iff v.two_mul_eta_lt hlen

/-- The encodings of private keys. -/
theorem exists_secretKey_iff {input : Bytes} :
    (∃ sk : SecretKey v, input = sk.encode) ↔
      input.length = v.params.skLen ∧ ShortFields v input := by
  rw [v.skLen_eq]
  constructor
  · rintro ⟨sk, rfl⟩
    have hs1 : (encodeVec (bitPack v.eta v.etaBits) sk.s1).length = v.s1Bytes := by
      rw [length_encodeVec (length_bitPack _ _), Nat.mul_comm]
      rfl
    have hs2 : (encodeVec (bitPack v.eta v.etaBits) sk.s2).length = v.s2Bytes := by
      rw [length_encodeVec (length_bitPack _ _), Nat.mul_comm]
      rfl
    have hdrop : sk.encode.drop 128 = encodeVec (bitPack v.eta v.etaBits) sk.s1 ++
        (encodeVec (bitPack v.eta v.etaBits) sk.s2 ++ encodeVec (bitPack (2 ^ 12) 13) sk.t0) := by
      rw [SecretKey.encode, show 128 = 32 + (32 + 64) from rfl, ← List.drop_drop, ← List.drop_drop,
        List.drop_left' sk.length_rho, List.drop_left' sk.length_K, List.drop_left' sk.length_tr]
    refine ⟨by rw [sk.length_encode, v.skLen_eq], ?_, ?_⟩
    · rw [hdrop, List.take_left' hs1]
      exact (exists_short_iff v hs1).mp ⟨sk.s1, sk.s1_short, rfl⟩
    · rw [← List.drop_drop, hdrop, List.drop_left' hs1, List.take_left' hs2]
      exact (exists_short_iff v hs2).mp ⟨sk.s2, sk.s2_short, rfl⟩
  · rintro ⟨hlen, hs1, hs2⟩
    have hlen1 : ((input.drop 128).take v.s1Bytes).length = 32 * v.etaBits * v.l :=
      List.length_take_of_le (by rw [List.length_drop]; omega)
    have hlen2 : ((input.drop (128 + v.s1Bytes)).take v.s2Bytes).length = 32 * v.etaBits * v.k :=
      List.length_take_of_le (by rw [List.length_drop]; omega)
    have hlen0 : (input.drop (128 + v.s1Bytes + v.s2Bytes)).length = 32 * 13 * v.k := by
      rw [List.length_drop]
      omega
    obtain ⟨s1, hs1, henc1⟩ := (exists_short_iff v hlen1).mpr hs1
    obtain ⟨s2, hs2, henc2⟩ := (exists_short_iff v hlen2).mpr hs2
    obtain ⟨t0, ht0, henc0⟩ := (exists_bitPack_iff (b := 2 ^ 12)
      (show 2 ^ 13 - 1 < 2 ^ 13 by decide) hlen0).mpr fun x hx ↦ Nat.le_sub_one_of_lt (unpack_lt hx)
    refine ⟨⟨input.take 32, (input.drop 32).take 32, (input.drop 64).take 64, s1, s2, t0,
      List.length_take_of_le (by omega), List.length_take_of_le (by rw [List.length_drop]; omega),
      List.length_take_of_le (by rw [List.length_drop]; omega), hs1, hs2, fun i j ↦ ?_⟩, ?_⟩
    · have hrange := ht0 i j
      omega
    · have h64 : input.drop 64 = (input.drop 32).drop 32 := by
        rw [List.drop_drop]
      have h128 : input.drop 128 = ((input.drop 32).drop 32).drop 64 := by
        rw [List.drop_drop, List.drop_drop]
      rw [SecretKey.encode, ← henc1, ← henc2, ← henc0]
      simp only [← List.drop_drop, h64, h128, List.take_append_drop]

end Fips204

namespace Ossl

variable {v : Variant} {ok : Call → Bool}

/-- Nothing is loaded and nothing is allocated. -/
structure Key.Empty (key : Key v) : Prop where
  pubEncoding_eq : key.pubEncoding = none
  privEncoding_eq : key.privEncoding = none
  t1_eq : key.t1 = none
  priv_eq : key.priv = none

/-- `ossl_ml_dsa_pk_encode` and `ossl_ml_dsa_sk_encode` are inverse to the decoders, which accept
every string of the length of a public key, and the strings of the length of a private key with
short fields. -/
theorem dsa_codec_canonical (S : Sampling v) (hok : ∀ c, ok c = true) {key : Key v}
    (hkey : key.Empty) {held : Key v} (hheld : held.priv.isSome) :
    (∀ input, (∃ key', (pkDecode S ok input).run key = (some (), key')) ↔
      input.length = v.params.pkLen) ∧
    (∀ input key', (pkDecode S ok input).run key = (some (), key') →
      ∀ other : Key v, other.rho = key'.rho → other.t1 = key'.t1 →
        (pkEncode ok).run other = (some (), { other with pubEncoding := some input })) ∧
    (∀ input, (∃ tr key', (decodePrivate id input).run held = (some tr, key')) ↔
      input.length = v.params.skLen ∧ Fips204.ShortFields v input) ∧
    (∀ input tr key', (decodePrivate id input).run held = (some tr, key') →
      ∀ other : Key v, other.rho = key'.rho → other.K = key'.K → other.tr = tr →
        other.priv = key'.priv →
        (skEncode ok).run other = (some (), { other with privEncoding := some input })) ∧
    (∀ (pk : PublicKey v) (other : Key v), other.rho = pk.rho →
      other.t1 = some pk.t1.repr →
      ∃ enc key', (pkEncode ok).run other = (some (), { other with pubEncoding := some enc }) ∧
        (pkDecode S ok enc).run key = (some (), key') ∧ key'.rho = other.rho ∧
        key'.t1 = other.t1) ∧
    ∀ (sk : SecretKey v) (other : Key v), other.rho = sk.rho → other.K = sk.K →
      other.tr = sk.tr → other.priv = some ⟨sk.s1.repr, sk.s2.repr, sk.t0.repr⟩ →
      ∃ enc key', (skEncode ok).run other = (some (), { other with privEncoding := some enc }) ∧
        (decodePrivate id enc).run held = (some other.tr, key') ∧ key'.rho = other.rho ∧
        key'.K = other.K ∧ key'.priv = other.priv := by
  have hpk (input : Bytes) (key' : Key v) :
      (pkDecode S ok input).run key = (some (), key') ↔
        ∃ pk : PublicKey v, input = pk.encode ∧ key' = key.filledPublic S pk := by
    rw [pkDecode_eq_some]
    simp [hkey.privEncoding_eq, hkey.pubEncoding_eq, hkey.t1_eq, hok]
  have hpkEncode (pk : PublicKey v) (other : Key v) (hrho : other.rho = pk.rho)
      (ht1 : other.t1 = some pk.t1.repr) :
      (pkEncode ok).run other = (some (), { other with pubEncoding := some pk.encode }) :=
    (yields_pkEncode ok other pk hrho ht1 () _).mpr ⟨hok _, rfl, rfl⟩
  have hskEncode (sk : SecretKey v) (other : Key v) (hrho : other.rho = sk.rho)
      (hK : other.K = sk.K) (htr : other.tr = sk.tr) (hpriv : other.priv = some (.ofSecret sk)) :
      (skEncode ok).run other = (some (), { other with privEncoding := some sk.encode }) :=
    (yields_skEncode ok other sk hrho hK htr hpriv () _).mpr ⟨hok _, rfl, rfl⟩
  refine ⟨fun input ↦ ?_, ?_, fun input ↦ ?_, ?_, ?_, ?_⟩
  · rw [← Fips204.exists_publicKey_iff]
    constructor
    · rintro ⟨key', h⟩
      obtain ⟨pk, henc, -⟩ := (hpk input key').mp h
      exact ⟨pk, henc⟩
    · rintro ⟨pk, henc⟩
      exact ⟨_, (hpk input _).mpr ⟨pk, henc, rfl⟩⟩
  · intro input key' h other hrho ht1
    obtain ⟨pk, rfl, rfl⟩ := (hpk input key').mp h
    exact hpkEncode pk other hrho ht1
  · rw [← Fips204.exists_secretKey_iff]
    constructor
    · rintro ⟨tr, key', h⟩
      obtain ⟨sk, henc, -⟩ := (decodePrivate_eq_some hheld).mp h
      exact ⟨sk, henc⟩
    · rintro ⟨sk, henc⟩
      exact ⟨_, _, (decodePrivate_eq_some hheld).mpr ⟨sk, henc, rfl, rfl⟩⟩
  · intro input tr key' h other hrho hK htr hpriv
    obtain ⟨sk, rfl, rfl, rfl⟩ := (decodePrivate_eq_some hheld).mp h
    exact hskEncode sk other hrho hK htr hpriv
  · intro pk other hrho ht1
    exact ⟨_, _, hpkEncode pk other hrho ht1, (hpk _ _).mpr ⟨pk, rfl, rfl⟩, hrho.symm, ht1.symm⟩
  · intro sk other hrho hK htr hpriv
    refine ⟨_, _, hskEncode sk other hrho hK htr hpriv,
      (decodePrivate_eq_some hheld).mpr ⟨sk, rfl, htr, rfl⟩, hrho.symm, hK.symm, hpriv.symm⟩

theorem dsa_codec_canonical_new :
    let held : Key .mlDsa44 :=
      { keyNew with priv := some ⟨fun _ _ ↦ 0, fun _ _ ↦ 0, fun _ _ ↦ 0⟩ }
    (keyNew : Key .mlDsa44).Empty ∧ held.priv.isSome ∧
      ∀ input tr key', (decodePrivate id input).run held = (some tr, key') →
        (skEncode fun _ ↦ true).run { key' with tr := tr } =
          (some (), { key' with tr := tr, privEncoding := some input }) := by
  intro held
  have hempty : (keyNew : Key .mlDsa44).Empty := ⟨rfl, rfl, rfl, rfl⟩
  obtain ⟨-, -, -, hencode, -⟩ :=
    dsa_codec_canonical (zeroSampling .mlDsa44) (fun _ ↦ rfl) hempty
      (show held.priv.isSome = true from rfl)
  exact ⟨hempty, rfl, fun input tr key' h ↦ hencode input tr key' h _ rfl rfl rfl rfl⟩

end Ossl

end MlDsa
