import QudoPqc.Interop.PublicKey
import QudoPqc.MlDsa.Params

/-!
# Private keys of ML-DSA

`QUDO_MLDSA_export_private_key_der` puts a key into two nested OCTET STRINGs whatever its length:
an expanded private key `sk`, one with its public key behind it, or one with its seed before it.
`QUDO_MLDSA_import_private_key_der` tells the layouts of the inner part by its length and its first
byte: `sk` behind its seed in a SEQUENCE, `sk` in an OCTET STRING, and bare `sk` or `sk` with its
public key. The two agree on `sk` only, as the lengths show (`readOctets_nested`).
-/

namespace Interop

open Codec Codec.Packet MlDsa

/-! ## Lengths -/

/-- The parameter sets, in the order of the tests. -/
def variants : List Variant := [.mlDsa44, .mlDsa65, .mlDsa87]

/-- `OID_ML_DSA_44` and the others. -/
def variantOid : Variant → Bytes
  | .mlDsa44 => [0x60, 0x86, 0x48, 0x01, 0x65, 0x03, 0x04, 0x03, 0x11]
  | .mlDsa65 => [0x60, 0x86, 0x48, 0x01, 0x65, 0x03, 0x04, 0x03, 0x12]
  | .mlDsa87 => [0x60, 0x86, 0x48, 0x01, 0x65, 0x03, 0x04, 0x03, 0x13]

/-- `MLDSA_SEEDBYTES`. -/
abbrev seedBytes : ℕ := 32

/-- The parameter set whose private key has this length. -/
def variantOfSk (len : ℕ) : Option Variant := variants.find? fun v ↦ len = v.params.skLen

/-- The parameter set whose private key and public key together have this length. -/
def variantOfPair (len : ℕ) : Option Variant :=
  variants.find? fun v ↦ len = v.params.skLen + v.params.pkLen

/-- `get_oid_for_private_key_size`. -/
def oidForPrivateKeySize (keyLen : ℕ) : Option Bytes :=
  (variants.find? fun v ↦ keyLen = v.params.skLen ∨ keyLen = v.params.skLen + v.params.pkLen ∨
    keyLen = seedBytes + v.params.skLen).map variantOid

/-- `get_sk_len_from_seed_priv_inner_len`. -/
def skLenFromSeedPrivInnerLen (innerLen : ℕ) : ℕ :=
  ((variants.find? fun v ↦ innerLen = 42 + v.params.skLen).map (·.params.skLen)).getD 0

/-! ## Writing -/

/-- The PKCS#8 frame around the contents of the OCTET STRING, which
`QUDO_MLDSA_export_private_key_der` and `QUDO_MLDSA_export_private_key_der_format` write alike. -/
def writePki (oid octets : Bytes) (derLen : ℕ) : Except Failure Bytes :=
  let versionLen := 3
  let algIdContentLen := 2 + oid.length
  let algIdTotal := 1 + (asn1EncodeLength algIdContentLen).length + algIdContentLen
  let octetStringTotal := 1 + (asn1EncodeLength octets.length).length + octets.length
  let pkiContentLen := versionLen + algIdTotal + octetStringTotal
  let totalLen := 1 + (asn1EncodeLength pkiContentLen).length + pkiContentLen
  if totalLen > derLen then .error (.bufferTooSmall totalLen)
  else .ok ([0x30] ++ asn1EncodeLength pkiContentLen ++
    [0x02, 0x01, 0x00] ++
    [0x30] ++ asn1EncodeLength algIdContentLen ++
    [0x06] ++ [UInt8.ofNat oid.length] ++ oid ++
    [0x04] ++ asn1EncodeLength octets.length ++ octets)

/-- `QUDO_MLDSA_export_private_key_der`. -/
def exportPrivateKeyDer (privateKey : Bytes) (derLen : ℕ) : Except Failure Bytes :=
  match oidForPrivateKeySize privateKey.length with
  | none => .error .invalidArg
  | some oid =>
    writePki oid ([0x04] ++ asn1EncodeLength privateKey.length ++ privateKey) derLen

/-- `build_seed_priv_inner`; the buffer of its caller has room for the longest key. -/
def buildSeedPrivInner (seed sk : Bytes) : Bytes :=
  let contentLen := 34 + 4 + sk.length
  [0x30, 0x82, UInt8.ofNat (contentLen >>> 8 &&& 0xFF), UInt8.ofNat (contentLen &&& 0xFF),
    0x04, 0x20] ++ seed ++
    [0x04, 0x82, UInt8.ofNat (sk.length >>> 8 &&& 0xFF), UInt8.ofNat (sk.length &&& 0xFF)] ++ sk

/-- `QUDO_MLDSA_pkcs8_format_t`; `other` is any value that is none of the enumerators. -/
inductive Pkcs8Format
  | seedPriv
  | privOnly
  | oqsKeypair
  | other
  deriving DecidableEq, Repr

/-- `QUDO_MLDSA_export_private_key_der_format`, in a build with OpenSSL. -/
def exportPrivateKeyDerFormat (privateKey : Bytes) (derLen : ℕ) :
    Pkcs8Format → Except Failure Bytes
  | .oqsKeypair => exportPrivateKeyDer privateKey derLen
  | .seedPriv =>
    match variants.find? fun v ↦ privateKey.length = seedBytes + v.params.skLen with
    | none => .error .invalidArg
    | some _ =>
      let inner := buildSeedPrivInner (privateKey.take seedBytes) (privateKey.drop seedBytes)
      match oidForPrivateKeySize privateKey.length with
      | none => .error .invalidArg
      | some oid => writePki oid inner derLen
  | .privOnly =>
    let skOnly := ((variantOfPair privateKey.length).map (·.params.skLen)).getD privateKey.length
    exportPrivateKeyDer (privateKey.take skOnly) derLen
  | .other => .error .invalidArg

/-- `QUDO_MLDSA_export_private_key_pem`. -/
def exportPrivateKeyPem (privateKey : Bytes) (buffer : Option ℕ) : Except Failure Output :=
  (exportPrivateKeyDer privateKey 8192).bind fun der ↦ writePem .privateKey der buffer

/-! ## Reading -/

/-- What the reader sees of the PKCS#8 frame; it makes no use of the first field. -/
structure Pki where
  /-- The length declared for the AlgorithmIdentifier. -/
  algIdLen : ℕ
  oid : Bytes
  /-- The contents of the OCTET STRING. -/
  octets : Bytes
  deriving DecidableEq, Repr

/-- The first half of `QUDO_MLDSA_import_private_key_der`, up to the contents of the OCTET STRING.
-/
def readPki : Packet Pki :=
  (expect 0x30).bind fun _ ↦ asn1DecodeLength.bind fun _ ↦
  (expect 0x02).bind fun _ ↦ asn1DecodeLength.bind fun len ↦ (getBytes len).bind fun _ ↦
  (expect 0x30).bind fun _ ↦ asn1DecodeLength.bind fun algIdLen ↦
  (expect 0x06).bind fun _ ↦ getByte.bind fun oidLen ↦
  (getBytes oidLen.toNat).bind fun oid ↦ (require (oid ∈ variants.map variantOid)).bind fun _ ↦
  (expect 0x04).bind fun _ ↦ asn1DecodeLength.bind fun len ↦
  (getBytes len).map fun octets ↦ { algIdLen, oid, octets }

/-- The seed-and-private-key layout; the seed is skipped there. -/
def readSeedPriv (seedPrivSkLen : ℕ) : Packet (Bytes × Bytes) :=
  (expect 0x30).bind fun _ ↦ asn1DecodeLength.bind fun _ ↦
  (expect 0x04).bind fun _ ↦ (expect 0x20).bind fun _ ↦ (getBytes seedBytes).bind fun seed ↦
  (expect 0x04).bind fun _ ↦ asn1DecodeLength.bind fun skOctLen ↦
  (require (skOctLen = seedPrivSkLen)).bind fun _ ↦
  (getBytes skOctLen).map fun sk ↦ (seed, sk)

/-- The layout with one OCTET STRING in the other. -/
def readPrivOnly (octets : Bytes) : Option Bytes :=
  if octets.length ≥ 4 ∧ octets.head? = some 0x04 then
    (asn1DecodeLength octets.tail).bind fun (innerLen, inner) ↦
      if innerLen = inner.length ∧ (variantOfSk innerLen).isSome then some inner else none
  else none

/-- The second half of `QUDO_MLDSA_import_private_key_der`, up to the tests of the capacity. -/
def readOctets (octets : Bytes) : Option Bytes :=
  let seedPrivSkLen := skLenFromSeedPrivInnerLen octets.length
  if seedPrivSkLen > 0 then (readSeedPriv seedPrivSkLen octets).map fun r ↦ r.1.2
  else match readPrivOnly octets with
    | some sk => some sk
    | none =>
      if (variantOfSk octets.length).isSome ∨ (variantOfPair octets.length).isSome then some octets
      else none

/-- `QUDO_MLDSA_import_private_key_der`; `privateKeyLen` is the capacity of the output. -/
def importPrivateKeyDer (der : Bytes) (privateKeyLen : ℕ) : Except Failure Bytes :=
  if der.length < 10 then .error .decode
  else match (readPki der).bind fun r ↦ readOctets r.1.octets with
    | none => .error .decode
    | some key =>
      if key.length > privateKeyLen then .error (.bufferTooSmall key.length) else .ok key

/-- `QUDO_MLDSA_import_private_key_pem`. -/
def importPrivateKeyPem (pem : Bytes) (privateKeyLen : ℕ) : Except Failure Bytes :=
  match readPem .privateKey 8192 pem with
  | none => .error .decode
  | some der => importPrivateKeyDer der privateKeyLen

/-! ## The frame -/

theorem variantOid_length {oid : Bytes} (h : oid ∈ variants.map variantOid) :
    oid.length = 9 := by
  revert oid
  decide

/-- The bytes that the reader goes through; `outer`, `versionLen`, `alg` and `octetsLen` are the
spellings of the lengths. -/
structure Pki.Layout (s : Pki) (outer versionLen version alg octetsLen rest : Bytes)
    (der : Bytes) : Prop where
  der_eq : der = 0x30 :: (outer ++ 0x02 :: (versionLen ++ (version ++ 0x30 :: (alg ++
    0x06 :: 0x09 :: (s.oid ++ 0x04 :: (octetsLen ++ (s.octets ++ rest)))))))
  outer_isLength : ∃ n, IsLength outer n
  outer_le : outer.length ≤ 5
  version_isLength : IsLength versionLen version.length
  version_le : versionLen.length ≤ 5
  alg_isLength : IsLength alg s.algIdLen
  alg_le : alg.length ≤ 5
  octets_isLength : IsLength octetsLen s.octets.length
  octets_le : octetsLen.length ≤ 5
  knows : s.oid ∈ variants.map variantOid

theorem Pki.Layout.of_readPki {s : Pki} {der rest : Bytes} (h : readPki der = some (s, rest)) :
    ∃ outer versionLen version alg octetsLen,
      s.Layout outer versionLen version alg octetsLen rest der := by
  simp only [readPki, bind_eq_some, expect_eq_some, getByte_eq_some, getBytes_eq_some,
    require_eq_some, map_eq_some, asn1DecodeLength_eq_some] at h
  obtain ⟨-, _, rfl, n, _, ⟨outer, houter, houter5, rfl⟩, -, _, rfl, len, _,
    ⟨versionLen, hversion, hversion5, rfl⟩, version, _, ⟨rfl, rfl⟩, -, _, rfl, algIdLen, _,
    ⟨alg, halg, halg5, rfl⟩, -, _, rfl, oidLen, _, rfl, oid, _, ⟨hoid, rfl⟩, -, _, ⟨hknows, rfl⟩,
    -, _, rfl, len, _, ⟨octetsLen, hoctets, hoctets5, rfl⟩, octets, ⟨rfl, rfl⟩, rfl⟩ := h
  have hnine : oidLen = 0x09 := UInt8.toNat_inj.mp (hoid.symm.trans (variantOid_length hknows))
  exact ⟨outer, versionLen, version, alg, octetsLen, by rw [hnine], ⟨n, houter⟩, houter5, hversion,
    hversion5, halg, halg5, hoctets, hoctets5, hknows⟩

theorem Pki.Layout.readPki {s : Pki} {outer versionLen version alg octetsLen rest der : Bytes}
    (h : s.Layout outer versionLen version alg octetsLen rest der) :
    readPki der = some (s, rest) := by
  have hnine : s.oid.length = (0x09 : UInt8).toNat := variantOid_length h.knows
  obtain ⟨n, houter⟩ := h.outer_isLength
  rw [h.der_eq]
  simp only [Interop.readPki, bind_eq_some, expect_eq_some, getByte_eq_some, getBytes_eq_some,
    require_eq_some, map_eq_some, asn1DecodeLength_eq_some]
  exact ⟨(), _, rfl, n, _, ⟨outer, houter, h.outer_le, rfl⟩, (), _, rfl, version.length, _,
    ⟨versionLen, h.version_isLength, h.version_le, rfl⟩, version, _, ⟨rfl, rfl⟩, (), _, rfl,
    s.algIdLen, _, ⟨alg, h.alg_isLength, h.alg_le, rfl⟩, (), _, rfl, 0x09, _, rfl, s.oid, _,
    ⟨hnine, rfl⟩, (), _, ⟨h.knows, rfl⟩, (), _, rfl, s.octets.length, _,
    ⟨octetsLen, h.octets_isLength, h.octets_le, rfl⟩, s.octets, ⟨rfl, rfl⟩, rfl⟩

theorem importPrivateKeyDer_eq_ok {der key : Bytes} {cap : ℕ} :
    importPrivateKeyDer der cap = .ok key ↔
      ∃ s rest, readPki der = some (s, rest) ∧ readOctets s.octets = some key ∧
        key.length ≤ cap := by
  rw [importPrivateKeyDer]
  constructor
  · intro h
    split at h
    · cases h
    · split at h
      · cases h
      · next hread =>
        obtain ⟨⟨s, rest⟩, hpki, hoctets⟩ := Option.bind_eq_some_iff.mp hread
        split at h
        · cases h
        · next hcap =>
          cases h
          exact ⟨s, rest, hpki, hoctets, Nat.le_of_not_gt hcap⟩
  · rintro ⟨s, rest, hpki, hoctets, hcap⟩
    obtain ⟨outer, versionLen, version, alg, octetsLen, hlay⟩ := Pki.Layout.of_readPki hpki
    have hten : ¬der.length < 10 := by
      have := variantOid_length hlay.knows
      rw [hlay.der_eq]
      simp
      omega
    rw [if_neg hten, hpki, Option.bind_some, hoctets]
    dsimp only
    rw [if_neg (Nat.not_lt.mpr hcap)]

/-- A frame whose contents are in no layout is an error. -/
theorem importPrivateKeyDer_of_none {der rest : Bytes} {s : Pki}
    (hread : readPki der = some (s, rest)) (h : readOctets s.octets = none) (cap : ℕ) :
    importPrivateKeyDer der cap = .error .decode := by
  rw [importPrivateKeyDer, hread, Option.bind_some, h]
  split <;> rfl

/-- The encoding of a private key. -/
def pkiBytes (oid octets : Bytes) : Bytes :=
  tlv 0x30 ([0x02, 0x01, 0x00] ++ (tlv 0x30 (tlv 0x06 oid) ++ tlv 0x04 octets))

section

variable {oid octets : Bytes}

/-- The contents of the outer SEQUENCE. -/
theorem pkiContents_eq (h : oid.length = 9) :
    [0x02, 0x01, 0x00] ++ (tlv 0x30 (tlv 0x06 oid) ++ tlv 0x04 octets) =
      0x02 :: ([0x01] ++ ([0x00] ++ 0x30 :: (asn1EncodeLength (2 + oid.length) ++
        0x06 :: 0x09 :: (oid ++ 0x04 :: (asn1EncodeLength octets.length ++ octets))))) := by
  have halg : (0x06 :: 0x09 :: oid).length = 2 + oid.length := Nat.add_comm _ 2
  rw [tlv_oid h, tlv, tlv, halg]
  simp

theorem writePki_eq (h : oid.length = 9) (derLen : ℕ) :
    writePki oid octets derLen =
      if (pkiBytes oid octets).length > derLen then
        .error (.bufferTooSmall (pkiBytes oid octets).length)
      else .ok (pkiBytes oid octets) := by
  have hlen : ([0x02, 0x01, 0x00] ++ (tlv 0x30 (tlv 0x06 oid) ++ tlv 0x04 octets)).length =
      3 + (1 + (asn1EncodeLength (2 + oid.length)).length + (2 + oid.length)) +
        (1 + (asn1EncodeLength octets.length).length + octets.length) := by
    rw [pkiContents_eq h]
    simp
    omega
  have hbytes : pkiBytes oid octets = [0x30] ++
      asn1EncodeLength ([0x02, 0x01, 0x00] ++
        (tlv 0x30 (tlv 0x06 oid) ++ tlv 0x04 octets)).length ++
      [0x02, 0x01, 0x00] ++ [0x30] ++ asn1EncodeLength (2 + oid.length) ++
      [0x06] ++ [UInt8.ofNat oid.length] ++ oid ++
      [0x04] ++ asn1EncodeLength octets.length ++ octets := by
    rw [pkiBytes, tlv, pkiContents_eq h, h]
    simp
  rw [writePki, ← hlen, ← length_tlv 0x30, ← pkiBytes, ← hbytes]

theorem length_pkiBytes_le (h : oid.length = 9) :
    (pkiBytes oid octets).length ≤ octets.length + 32 := by
  have hversion : ([0x02, 0x01, 0x00] : Bytes).length = 3 := rfl
  have hoid := length_tlv_le 0x06 oid
  have halg := length_tlv_le 0x30 (tlv 0x06 oid)
  have hoctets := length_tlv_le 0x04 octets
  have hpki := length_tlv_le 0x30
    ([0x02, 0x01, 0x00] ++ (tlv 0x30 (tlv 0x06 oid) ++ tlv 0x04 octets))
  rw [List.length_append, List.length_append] at hpki
  rw [pkiBytes]
  omega

/-- The reader finds in an exported key what was put there. -/
theorem readPki_pkiBytes (hoid : oid ∈ variants.map variantOid) (hlen : octets.length < 2 ^ 16) :
    readPki (pkiBytes oid octets) = some (⟨2 + oid.length, oid, octets⟩, []) := by
  have hnine := variantOid_length hoid
  have hpki : (pkiBytes oid octets).length ≤ octets.length + 32 := length_pkiBytes_le hnine
  rw [pkiBytes, length_tlv] at hpki
  generalize hcontents : [0x02, 0x01, 0x00] ++ (tlv 0x30 (tlv 0x06 oid) ++ tlv 0x04 octets) =
    contents at hpki
  have hlay : (⟨2 + oid.length, oid, octets⟩ : Pki).Layout (asn1EncodeLength contents.length) [0x01]
      [0x00] (asn1EncodeLength (2 + oid.length)) (asn1EncodeLength octets.length) []
      (pkiBytes oid octets) :=
    { der_eq := by
        rw [pkiBytes, hcontents, tlv, ← hcontents, pkiContents_eq hnine, List.append_nil]
      outer_isLength := ⟨_, isLength_asn1EncodeLength (by omega)⟩
      outer_le := (length_asn1EncodeLength_le _).trans (by decide)
      version_isLength := .short (b := 0x01) (by decide)
      version_le := by decide
      alg_isLength := isLength_asn1EncodeLength (by omega)
      alg_le := (length_asn1EncodeLength_le _).trans (by decide)
      octets_isLength := isLength_asn1EncodeLength (by omega)
      octets_le := (length_asn1EncodeLength_le _).trans (by decide)
      knows := hoid }
  exact hlay.readPki

end

/-! ## The layouts of the contents -/

/-- The lengths that the exporter accepts for a parameter set: a private key, one with its public
key and one with its seed. -/
def Exportable (v : Variant) (n : ℕ) : Prop :=
  n = v.params.skLen ∨ n = v.params.skLen + v.params.pkLen ∨ n = seedBytes + v.params.skLen

section

variable {v : Variant} {key seed sk : Bytes} {n : ℕ}

theorem oidForPrivateKeySize_eq (h : Exportable v n) :
    oidForPrivateKeySize n = some (variantOid v) := by
  rcases h with rfl | rfl | rfl <;> cases v <;> rfl

theorem Exportable.bounds (h : Exportable v n) : 256 ≤ n ∧ n < 2 ^ 13 - 64 := by
  rcases h with rfl | rfl | rfl <;> cases v <;> decide

/-- An exported OCTET STRING has none of the lengths by which the reader knows the other layouts. -/
theorem Exportable.four_add (h : Exportable v n) :
    skLenFromSeedPrivInnerLen (4 + n) = 0 ∧ variantOfSk (4 + n) = none ∧
      variantOfPair (4 + n) = none := by
  rcases h with rfl | rfl | rfl <;> cases v <;> decide

theorem variantOid_mem (v : Variant) : variantOid v ∈ variants.map variantOid := by
  cases v <;> decide

theorem variantOfSk_skLen (v : Variant) : variantOfSk v.params.skLen = some v := by
  cases v <;> decide

theorem variantOfSk_eq_none (h : Exportable v n) (hne : n ≠ v.params.skLen) :
    variantOfSk n = none := by
  rcases h with rfl | rfl | rfl
  · exact absurd rfl hne
  · cases v <;> decide
  · cases v <;> decide

theorem length_asn1EncodeLength_three (h : 256 ≤ n) (h' : n < 2 ^ 16) :
    (asn1EncodeLength n).length = 3 := by
  rw [asn1EncodeLength, if_neg (by omega), if_neg (by omega), if_pos (by omega)]
  rfl

/-- Two nested OCTET STRINGs are read back if the inner one has the length of a private key, and are
an error otherwise. -/
theorem readOctets_nested (h : Exportable v key.length) :
    readOctets (tlv 0x04 key) = if (variantOfSk key.length).isSome then some key else none := by
  obtain ⟨hlow, hhigh⟩ := h.bounds
  obtain ⟨hseed, hsk, hpair⟩ := h.four_add
  have hlen : (tlv 0x04 key).length = 4 + key.length := by
    rw [length_tlv, length_asn1EncodeLength_three hlow (by omega)]
  have hread : readPrivOnly (tlv 0x04 key) =
      if (variantOfSk key.length).isSome then some key else none := by
    rw [readPrivOnly, if_pos ⟨by omega, rfl⟩, tlv, List.tail_cons,
      asn1DecodeLength_encode (by omega), Option.bind_some]
    simp
  rw [readOctets, hlen, hseed, hread, hsk, hpair, if_neg (by decide)]
  cases variantOfSk key.length <;> rfl

/-- Both lengths are spelled as `asn1_encode_length` does. -/
theorem buildSeedPrivInner_eq (seed : Bytes) (hlow : 256 ≤ sk.length)
    (hhigh : sk.length < 2 ^ 13) :
    buildSeedPrivInner seed sk = 0x30 :: (asn1EncodeLength (38 + sk.length) ++ 0x04 :: 0x20 ::
      (seed ++ 0x04 :: (asn1EncodeLength sk.length ++ sk))) := by
  have hmask (n : ℕ) : UInt8.ofNat (n &&& 0xFF) = UInt8.ofNat n := by
    rw [Nat.and_two_pow_sub_one_eq_mod _ 8, UInt8.ofNat_mod_size]
  have htwo {n : ℕ} (h : 256 ≤ n) (h' : n < 2 ^ 16) :
      asn1EncodeLength n = [0x82, UInt8.ofNat (n >>> 8), UInt8.ofNat n] := by
    rw [asn1EncodeLength, if_neg (by omega), if_neg (by omega), if_pos (by omega), hmask]
  rw [htwo (by omega) (by omega), htwo hlow (by omega), buildSeedPrivInner]
  simp only [hmask]
  simp

theorem length_buildSeedPrivInner (hseed : seed.length = seedBytes) (sk : Bytes) :
    (buildSeedPrivInner seed sk).length = 42 + sk.length := by
  have hthirtytwo : seed.length = 32 := hseed
  simp only [buildSeedPrivInner, List.length_append, List.length_cons, List.length_nil]
  omega

/-- The seed-and-private-key layout, as the reader sees it. -/
theorem readSeedPriv_eq_some {skLen : ℕ} {octets rest : Bytes} :
    readSeedPriv skLen octets = some ((seed, sk), rest) ↔
      ∃ outer n skOctLen, octets = 0x30 :: (outer ++ 0x04 :: 0x20 :: (seed ++
          0x04 :: (skOctLen ++ (sk ++ rest)))) ∧
        IsLength outer n ∧ outer.length ≤ 5 ∧ seed.length = seedBytes ∧
        IsLength skOctLen sk.length ∧ skOctLen.length ≤ 5 ∧ sk.length = skLen := by
  simp only [readSeedPriv, bind_eq_some, expect_eq_some, getBytes_eq_some, require_eq_some,
    map_eq_some, asn1DecodeLength_eq_some, Prod.mk.injEq]
  constructor
  · rintro ⟨-, _, rfl, n, _, ⟨outer, houter, houter5, rfl⟩, -, _, rfl, -, _, rfl, seed, _,
      ⟨hseed, rfl⟩, -, _, rfl, skLen, _, ⟨skOctLen, hsk, hsk5, rfl⟩, -, _, ⟨rfl, rfl⟩, sk,
      ⟨rfl, rfl⟩, rfl, rfl⟩
    exact ⟨outer, n, skOctLen, rfl, houter, houter5, hseed, hsk, hsk5, rfl⟩
  · rintro ⟨outer, n, skOctLen, rfl, houter, houter5, hseed, hsk, hsk5, rfl⟩
    exact ⟨(), _, rfl, n, _, ⟨outer, houter, houter5, rfl⟩, (), _, rfl, (), _, rfl, seed, _,
      ⟨hseed, rfl⟩, (), _, rfl, sk.length, _, ⟨skOctLen, hsk, hsk5, rfl⟩, (), _, ⟨rfl, rfl⟩, sk,
      ⟨rfl, rfl⟩, rfl, rfl⟩

theorem readSeedPriv_buildSeedPrivInner (hseed : seed.length = seedBytes)
    (hsk : sk.length = v.params.skLen) :
    readSeedPriv v.params.skLen (buildSeedPrivInner seed sk) = some ((seed, sk), []) := by
  obtain ⟨hlow, hhigh⟩ := (Exportable.bounds (.inl hsk) : 256 ≤ sk.length ∧ sk.length < 2 ^ 13 - 64)
  refine readSeedPriv_eq_some.mpr ⟨asn1EncodeLength (38 + sk.length), _, asn1EncodeLength sk.length,
    ?_, isLength_asn1EncodeLength (by omega), (length_asn1EncodeLength_le _).trans (by decide),
    hseed, isLength_asn1EncodeLength (by omega),
    (length_asn1EncodeLength_le _).trans (by decide), hsk⟩
  rw [buildSeedPrivInner_eq seed hlow (by omega), List.append_nil]

theorem skLenFromSeedPrivInnerLen_eq (v : Variant) :
    skLenFromSeedPrivInnerLen (42 + v.params.skLen) = v.params.skLen := by
  cases v <;> decide

/-- The length of the contents tells the seed-and-private-key layout. -/
theorem readOctets_seedPriv {octets tail : Bytes} (hlen : octets.length = 42 + v.params.skLen)
    (h : readSeedPriv v.params.skLen octets = some ((seed, sk), tail)) :
    readOctets octets = some sk := by
  have hpos : v.params.skLen > 0 := by cases v <;> decide
  rw [readOctets, hlen, skLenFromSeedPrivInnerLen_eq, if_pos hpos, h]
  rfl

end

/-! ## Export and import -/

section

variable {v : Variant} {key seed sk : Bytes}

theorem exportPrivateKeyDer_eq (h : Exportable v key.length) (derLen : ℕ) :
    exportPrivateKeyDer key derLen =
      if (pkiBytes (variantOid v) (tlv 0x04 key)).length > derLen then
        .error (.bufferTooSmall (pkiBytes (variantOid v) (tlv 0x04 key)).length)
      else .ok (pkiBytes (variantOid v) (tlv 0x04 key)) := by
  rw [exportPrivateKeyDer, oidForPrivateKeySize_eq h,
    ← writePki_eq (variantOid_length (variantOid_mem v))]
  rfl

theorem length_tlv_exportable (h : Exportable v key.length) :
    (tlv 0x04 key).length < 8192 - 32 := by
  have := length_tlv_le 0x04 key
  have := h.bounds
  omega

theorem length_exported_le (h : Exportable v key.length) :
    (pkiBytes (variantOid v) (tlv 0x04 key)).length ≤ 8192 := by
  have hlen := length_tlv_exportable h
  have hpki : (pkiBytes (variantOid v) (tlv 0x04 key)).length ≤ (tlv 0x04 key).length + 32 :=
    length_pkiBytes_le (variantOid_length (variantOid_mem v))
  omega

theorem importPrivateKeyDer_exported (h : Exportable v key.length) {cap : ℕ}
    (hcap : key.length ≤ cap) :
    importPrivateKeyDer (pkiBytes (variantOid v) (tlv 0x04 key)) cap =
      if (variantOfSk key.length).isSome then .ok key else .error .decode := by
  have hread := readPki_pkiBytes (variantOid_mem v)
    ((length_tlv_exportable h).trans (by decide : 8192 - 32 < 2 ^ 16))
  have hoctets := readOctets_nested h
  split
  · next hsome =>
    rw [if_pos hsome] at hoctets
    exact importPrivateKeyDer_eq_ok.mpr ⟨_, _, hread, hoctets, hcap⟩
  · next hnone =>
    rw [if_neg hnone] at hoctets
    exact importPrivateKeyDer_of_none hread hoctets cap

theorem roundTrips_privateKey (h : key.length = v.params.skLen) :
    RoundTrips exportPrivateKeyDer importPrivateKeyDer exportPrivateKeyPem importPrivateKeyPem
      key := by
  have hexp : Exportable v key.length := .inl h
  refine RoundTrips.of_der .privateKey (exportPrivateKeyDer_eq hexp) (fun cap hcap ↦ ?_)
    (length_exported_le hexp) (fun buffer ↦ rfl) fun pem cap hread ↦ ?_
  · rw [importPrivateKeyDer_exported hexp hcap, h, variantOfSk_skLen]
    rfl
  · rw [importPrivateKeyPem, hread]

/-- A private key with its public key or its seed is exported and cannot be imported. -/
theorem exported_not_imported (h : Exportable v key.length) (hne : key.length ≠ v.params.skLen) :
    ∃ der : Bytes, der.length ≤ 8192 ∧ (∀ derLen, exportPrivateKeyDer key derLen =
        if der.length > derLen then .error (.bufferTooSmall der.length) else .ok der) ∧
      ∀ cap, importPrivateKeyDer der cap = .error .decode := by
  refine ⟨_, length_exported_le h, exportPrivateKeyDer_eq h, fun cap ↦ ?_⟩
  have hread := readPki_pkiBytes (variantOid_mem v)
    ((length_tlv_exportable h).trans (by decide : 8192 - 32 < 2 ^ 16))
  refine importPrivateKeyDer_of_none hread ?_ cap
  rw [readOctets_nested h, variantOfSk_eq_none h hne]
  rfl

theorem seedPriv_imported (hseed : seed.length = seedBytes) (hsk : sk.length = v.params.skLen) :
    ∃ der : Bytes, (∀ derLen, exportPrivateKeyDerFormat (seed ++ sk) derLen .seedPriv =
        if der.length > derLen then .error (.bufferTooSmall der.length) else .ok der) ∧
      ∀ cap, sk.length ≤ cap → importPrivateKeyDer der cap = .ok sk := by
  have hlen : (seed ++ sk).length = seedBytes + v.params.skLen := by
    rw [List.length_append, hseed, hsk]
  have hfind : variants.find? (fun w ↦ (seed ++ sk).length = seedBytes + w.params.skLen) =
    some v := by
    rw [hlen]
    cases v <;> decide
  have hexp : Exportable v (seed ++ sk).length := .inr (.inr hlen)
  have hinner : (buildSeedPrivInner seed sk).length = 42 + v.params.skLen := by
    rw [length_buildSeedPrivInner hseed, hsk]
  have hlt : 42 + v.params.skLen < 2 ^ 16 := by cases v <;> decide
  refine ⟨pkiBytes (variantOid v) (buildSeedPrivInner seed sk), fun derLen ↦ ?_, fun cap hcap ↦ ?_⟩
  · rw [exportPrivateKeyDerFormat, hfind]
    dsimp only
    rw [oidForPrivateKeySize_eq hexp, List.take_left' hseed, List.drop_left' hseed]
    exact writePki_eq (variantOid_length (variantOid_mem v)) derLen
  · exact importPrivateKeyDer_eq_ok.mpr ⟨_, _, readPki_pkiBytes (variantOid_mem v) (hinner ▸ hlt),
      readOctets_seedPriv hinner (readSeedPriv_buildSeedPrivInner hseed hsk), hcap⟩

end

/-- A private key alone comes back through both formats, and so does one exported behind its seed in
the seed-and-private-key layout. With its public key or its seed in one string, a private key is
exported and never imported. -/
theorem privateKey_round_trips (v : Variant) :
    (∀ key, key.length = v.params.skLen →
      RoundTrips exportPrivateKeyDer importPrivateKeyDer exportPrivateKeyPem importPrivateKeyPem
        key) ∧
    (∀ seed sk, seed.length = seedBytes → sk.length = v.params.skLen →
      ∃ der : Bytes, (∀ derLen, exportPrivateKeyDerFormat (seed ++ sk) derLen .seedPriv =
          if der.length > derLen then .error (.bufferTooSmall der.length) else .ok der) ∧
        ∀ cap, sk.length ≤ cap → importPrivateKeyDer der cap = .ok sk) ∧
    ∀ key, Exportable v key.length → key.length ≠ v.params.skLen →
      ∃ der : Bytes, der.length ≤ 8192 ∧ (∀ derLen, exportPrivateKeyDer key derLen =
          if der.length > derLen then .error (.bufferTooSmall der.length) else .ok der) ∧
        ∀ cap, importPrivateKeyDer der cap = .error .decode :=
  ⟨fun _ ↦ roundTrips_privateKey, fun _ _ ↦ seedPriv_imported, fun _ ↦ exported_not_imported⟩

theorem privateKey_round_trips_zeros :
    RoundTrips exportPrivateKeyDer importPrivateKeyDer exportPrivateKeyPem importPrivateKeyPem
        (List.replicate 2560 0) ∧
    (∃ der : Bytes, (∀ derLen, exportPrivateKeyDerFormat
          (List.replicate 32 1 ++ List.replicate 4032 0) derLen .seedPriv =
        if der.length > derLen then .error (.bufferTooSmall der.length) else .ok der) ∧
      ∀ cap, (List.replicate 4032 (0 : UInt8)).length ≤ cap →
        importPrivateKeyDer der cap = .ok (List.replicate 4032 0)) ∧
    ∃ der : Bytes, der.length ≤ 8192 ∧ (∀ derLen, exportPrivateKeyDer
          (List.replicate 7488 0) derLen =
        if der.length > derLen then .error (.bufferTooSmall der.length) else .ok der) ∧
      ∀ cap, importPrivateKeyDer der cap = .error .decode := by
  refine ⟨(privateKey_round_trips .mlDsa44).1 _ ?_, (privateKey_round_trips .mlDsa65).2.1 _ _ ?_ ?_,
    (privateKey_round_trips .mlDsa87).2.2 _ ?_ ?_⟩
  · rw [List.length_replicate]
    rfl
  · rw [List.length_replicate]
  · rw [List.length_replicate]
    rfl
  · rw [List.length_replicate]
    exact .inr (.inl rfl)
  · rw [List.length_replicate]
    decide

/-- Zeros for a private key with its public key, and for one with its seed. -/
theorem exported_pair_not_imported :
    (∃ der, exportPrivateKeyDer (List.replicate 3872 0) 8192 = .ok der ∧
      importPrivateKeyDer der 8192 = .error .decode) ∧
    ∃ der, exportPrivateKeyDer (List.replicate 2592 0) 8192 = .ok der ∧
      importPrivateKeyDer der 8192 = .error .decode := by
  have hfails {n : ℕ} (h : Exportable .mlDsa44 n) (hne : n ≠ Variant.mlDsa44.params.skLen) :
      ∃ der, exportPrivateKeyDer (List.replicate n 0) 8192 = .ok der ∧
        importPrivateKeyDer der 8192 = .error .decode := by
    rw [← List.length_replicate (n := n) (a := (0 : UInt8))] at h hne
    obtain ⟨der, hlen, hexport, himport⟩ := exported_not_imported h hne
    exact ⟨der, by rw [hexport, if_neg (Nat.not_lt.mpr hlen)], himport 8192⟩
  exact ⟨hfails (.inr (.inl rfl)) (by decide), hfails (.inr (.inr rfl)) (by decide)⟩

end Interop
