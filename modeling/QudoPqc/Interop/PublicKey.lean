import QudoPqc.Interop.Pem

/-!
# Public keys of ML-KEM and ML-DSA

`QUDO_KEM_export_public_key_der`, `QUDO_KEM_import_public_key_der` and their PEM variants are the
ML-DSA functions of the same names with other tables, so each is one definition here, over the table
of object identifiers and key lengths (`Family`).

A public key is written as a SEQUENCE of the algorithm, a SEQUENCE with the identifier, and a BIT
STRING with the key. The reader goes through the same tags, but forgets the lengths of both
SEQUENCEs and stops after the key. `readSpki` keeps what the reader has seen, including what it does
not use: `importPublicKeyDer_wellFormed_iff` says which accepted inputs are well formed.
-/

namespace Interop

open Codec Codec.Packet

/-! ## The two families -/

/-- The object identifiers and the lengths of the public keys of an algorithm. -/
structure Family where
  /-- One entry for each parameter set. -/
  params : List (Bytes × ℕ)
  oid_length : ∀ p ∈ params, p.1.length = 9
  /-- The encodings fit the 4096 bytes of `der_buffer`. -/
  length_le : ∀ p ∈ params, p.2 + 64 ≤ 4096

/-- `OID_ML_KEM_512` and the others, with `QUDO_KEM_mlkem_512_length_public_key` and the others. -/
def mlKem : Family where
  params :=
    [([0x60, 0x86, 0x48, 0x01, 0x65, 0x03, 0x04, 0x04, 0x01], 800),
     ([0x60, 0x86, 0x48, 0x01, 0x65, 0x03, 0x04, 0x04, 0x02], 1184),
     ([0x60, 0x86, 0x48, 0x01, 0x65, 0x03, 0x04, 0x04, 0x03], 1568)]
  oid_length := by decide
  length_le := by decide

/-- `OID_ML_DSA_44` and the others, with `ML_DSA_44_PUBLIC_KEY_BYTES` and the others. -/
def mlDsa : Family where
  params :=
    [([0x60, 0x86, 0x48, 0x01, 0x65, 0x03, 0x04, 0x03, 0x11], 1312),
     ([0x60, 0x86, 0x48, 0x01, 0x65, 0x03, 0x04, 0x03, 0x12], 1952),
     ([0x60, 0x86, 0x48, 0x01, 0x65, 0x03, 0x04, 0x03, 0x13], 2592)]
  oid_length := by decide
  length_le := by decide

namespace Family

variable (F : Family)

/-- `get_oid_for_key_size`, `get_oid_for_public_key_size`. -/
def oidForKeySize (keyLen : ℕ) : Option Bytes :=
  (F.params.find? (·.2 = keyLen)).map (·.1)

/-- `oid_known`. -/
def Knows (oid : Bytes) : Prop := oid ∈ F.params.map (·.1)

/-- The lengths that the reader lets through. -/
def Accepts (len : ℕ) : Prop := len ∈ F.params.map (·.2)

instance (oid : Bytes) : Decidable (F.Knows oid) :=
  decidable_of_iff (∃ p ∈ F.params, p.1 = oid) List.mem_map.symm

instance (len : ℕ) : Decidable (F.Accepts len) := by unfold Accepts; infer_instance

variable {F} {oid : Bytes} {len : ℕ}

theorem mem_of_oidForKeySize (h : F.oidForKeySize len = some oid) : (oid, len) ∈ F.params := by
  obtain ⟨⟨o, n⟩, hfind, rfl⟩ := Option.map_eq_some_iff.mp h
  have hn : n = len := by simpa using List.find?_some hfind
  rw [← hn]
  exact List.mem_of_find?_eq_some hfind

theorem exists_oid (h : F.Accepts len) : ∃ oid, F.oidForKeySize len = some oid := by
  obtain ⟨p, hp, hlen⟩ := List.mem_map.mp h
  rw [oidForKeySize]
  cases hfind : F.params.find? (·.2 = len) with
  | none => exact absurd hlen (of_decide_eq_false (by simpa using List.find?_eq_none.mp hfind p hp))
  | some p => exact ⟨p.1, rfl⟩

theorem Knows.length (h : F.Knows oid) : oid.length = 9 := by
  obtain ⟨p, hp, rfl⟩ := List.mem_map.mp h
  exact F.oid_length p hp

theorem knows_of_oidForKeySize (h : F.oidForKeySize len = some oid) : F.Knows oid :=
  List.mem_map.mpr ⟨_, mem_of_oidForKeySize h, rfl⟩

theorem accepts_of_oidForKeySize (h : F.oidForKeySize len = some oid) : F.Accepts len :=
  List.mem_map.mpr ⟨_, mem_of_oidForKeySize h, rfl⟩

theorem Accepts.le (h : F.Accepts len) : len + 64 ≤ 4096 := by
  obtain ⟨p, hp, rfl⟩ := List.mem_map.mp h
  exact F.length_le p hp

end Family

/-! ## The functions of the source -/

section

variable (F : Family)

/-- `QUDO_KEM_export_public_key_der`, `QUDO_MLDSA_export_public_key_der`; `derLen` is the capacity
of the buffer. -/
def exportPublicKeyDer (publicKey : Bytes) (derLen : ℕ) : Except Failure Bytes :=
  match F.oidForKeySize publicKey.length with
  | none => .error .invalidArg
  | some oid =>
    let algIdContentLen := 2 + oid.length
    let algIdTotal := 1 + (asn1EncodeLength algIdContentLen).length + algIdContentLen
    let bitStringContentLen := 1 + publicKey.length
    let bitStringTotal := 1 + (asn1EncodeLength bitStringContentLen).length + bitStringContentLen
    let spkiContentLen := algIdTotal + bitStringTotal
    let totalLen := 1 + (asn1EncodeLength spkiContentLen).length + spkiContentLen
    if totalLen > derLen then .error (.bufferTooSmall totalLen)
    else .ok ([0x30] ++ asn1EncodeLength spkiContentLen ++
      [0x30] ++ asn1EncodeLength algIdContentLen ++
      [0x06] ++ [UInt8.ofNat oid.length] ++ oid ++
      [0x03] ++ asn1EncodeLength bitStringContentLen ++
      [0x00] ++ publicKey)

/-- What the reader sees of its input. The first four fields are of no use to it. -/
structure Spki where
  /-- The length that the input declares for itself. -/
  spkiLen : ℕ
  /-- The number of bytes behind that length. -/
  spkiRest : ℕ
  /-- The length declared for the AlgorithmIdentifier. -/
  algIdLen : ℕ
  /-- The number of bytes of the AlgorithmIdentifier that the reader goes through. -/
  algIdRead : ℕ
  oid : Bytes
  key : Bytes
  deriving DecidableEq, Repr

/-- The optional NULL; a `05` that no `00` follows is an error. The number of bytes read. -/
def optionalNull : Packet ℕ
  | 0x05 :: bs => ((expect 0x00).map fun _ ↦ 2) bs
  | bs => some (0, bs)

/-- The reader of `QUDO_KEM_import_public_key_der` and `QUDO_MLDSA_import_public_key_der` up to the
test of the capacity. -/
def readSpki : Packet Spki :=
  (expect 0x30).bind fun _ ↦ asn1DecodeLength.bind fun spkiLen ↦
  fun spki ↦
  ((expect 0x30).bind fun _ ↦ asn1DecodeLength.bind fun algIdLen ↦
  (expect 0x06).bind fun _ ↦ getByte.bind fun oidLen ↦
  (getBytes oidLen.toNat).bind fun oid ↦ (require (F.Knows oid)).bind fun _ ↦
  optionalNull.bind fun nullLen ↦
  (expect 0x03).bind fun _ ↦ asn1DecodeLength.bind fun len ↦
  (require (len ≠ 0)).bind fun _ ↦ (expect 0x00).bind fun _ ↦
  (require (F.Accepts (len - 1))).bind fun _ ↦
  (getBytes (len - 1)).map fun key ↦
    { spkiLen, spkiRest := spki.length, algIdLen, algIdRead := 2 + oid.length + nullLen, oid, key })
  spki

/-- `QUDO_KEM_import_public_key_der`, `QUDO_MLDSA_import_public_key_der`; `publicKeyLen` is the
capacity of the output. -/
def importPublicKeyDer (der : Bytes) (publicKeyLen : ℕ) : Except Failure Bytes :=
  if der.length < 10 then .error .decode
  else match readSpki F der with
    | none => .error .decode
    | some (spki, _) =>
      if spki.key.length > publicKeyLen then .error (.bufferTooSmall spki.key.length)
      else .ok spki.key

/-- `QUDO_KEM_export_public_key_pem`, `QUDO_MLDSA_export_public_key_pem`. -/
def exportPublicKeyPem (publicKey : Bytes) (buffer : Option ℕ) : Except Failure Output :=
  (exportPublicKeyDer F publicKey 4096).bind fun der ↦ writePem .publicKey der buffer

/-- `QUDO_KEM_import_public_key_pem`, `QUDO_MLDSA_import_public_key_pem`. -/
def importPublicKeyPem (pem : Bytes) (publicKeyLen : ℕ) : Except Failure Bytes :=
  match readPem .publicKey 4096 pem with
  | none => .error .decode
  | some der => importPublicKeyDer F der publicKeyLen

end

/-- `QUDO_KEM_export_public_key_der`. -/
def kemExportPublicKeyDer := exportPublicKeyDer mlKem

/-- `QUDO_KEM_import_public_key_der`. -/
def kemImportPublicKeyDer := importPublicKeyDer mlKem

/-- `QUDO_KEM_export_public_key_pem`. -/
def kemExportPublicKeyPem := exportPublicKeyPem mlKem

/-- `QUDO_KEM_import_public_key_pem`. -/
def kemImportPublicKeyPem := importPublicKeyPem mlKem

/-- `QUDO_MLDSA_export_public_key_der`. -/
def mldsaExportPublicKeyDer := exportPublicKeyDer mlDsa

/-- `QUDO_MLDSA_import_public_key_der`. -/
def mldsaImportPublicKeyDer := importPublicKeyDer mlDsa

/-- `QUDO_MLDSA_export_public_key_pem`. -/
def mldsaExportPublicKeyPem := exportPublicKeyPem mlDsa

/-- `QUDO_MLDSA_import_public_key_pem`. -/
def mldsaImportPublicKeyPem := importPublicKeyPem mlDsa

/-! ## What the reader accepts -/

/-- The bytes that the reader goes through: `outer`, `alg` and `bits` are the spellings of the three
lengths. -/
structure Spki.Layout (F : Family) (s : Spki) (outer alg null bits rest : Bytes)
    (der : Bytes) : Prop where
  der_eq : der = 0x30 :: (outer ++ 0x30 :: (alg ++ 0x06 :: 0x09 :: (s.oid ++ (null ++
    0x03 :: (bits ++ 0x00 :: (s.key ++ rest))))))
  outer_isLength : IsLength outer s.spkiLen
  outer_le : outer.length ≤ 5
  spkiRest_eq : der.length = 1 + outer.length + s.spkiRest
  alg_isLength : IsLength alg s.algIdLen
  alg_le : alg.length ≤ 5
  null_eq : null = [] ∨ null = [0x05, 0x00]
  algIdRead_eq : s.algIdRead = 2 + s.oid.length + null.length
  bits_isLength : IsLength bits (s.key.length + 1)
  bits_le : bits.length ≤ 5
  knows : F.Knows s.oid
  accepts : F.Accepts s.key.length

theorem optionalNull_eq_some {bs rest : Bytes} {n : ℕ} :
    optionalNull bs = some (n, rest) ↔
      bs = 0x05 :: 0x00 :: rest ∧ n = 2 ∨ bs = rest ∧ n = 0 ∧ ∀ tail, bs ≠ 0x05 :: tail := by
  unfold optionalNull
  split
  · next tail =>
    simp only [map_eq_some, expect_eq_some, List.cons.injEq, true_and]
    constructor
    · rintro ⟨-, rfl, rfl⟩
      exact .inl ⟨rfl, rfl⟩
    · rintro (⟨rfl, rfl⟩ | ⟨-, -, hne⟩)
      · exact ⟨(), rfl, rfl⟩
      · exact absurd rfl (hne tail)
  · next hne =>
    simp only [Option.some.injEq, Prod.mk.injEq]
    constructor
    · rintro ⟨rfl, rfl⟩
      exact .inr ⟨rfl, rfl, hne⟩
    · rintro (⟨rfl, -⟩ | ⟨rfl, rfl, -⟩)
      · exact absurd rfl (hne _)
      · exact ⟨rfl, rfl⟩

/-- The optional NULL, when a BIT STRING follows. -/
theorem optionalNull_append {null : Bytes} (h : null = [] ∨ null = [0x05, 0x00])
    (tail : Bytes) : optionalNull (null ++ 0x03 :: tail) = some (null.length, 0x03 :: tail) := by
  rcases h with rfl | rfl <;> rfl

theorem Spki.Layout.of_readSpki {F : Family} {s : Spki} {der rest : Bytes}
    (h : readSpki F der = some (s, rest)) :
    ∃ outer alg null bits, s.Layout F outer alg null bits rest der := by
  simp only [readSpki, bind_eq_some, expect_eq_some, getByte_eq_some, getBytes_eq_some,
    require_eq_some, map_eq_some, asn1DecodeLength_eq_some] at h
  obtain ⟨-, _, rfl, spkiLen, _, ⟨outer, houter, houter5, rfl⟩, -, _, rfl, algIdLen, _,
    ⟨alg, halg, halg5, rfl⟩, -, _, rfl, oidLen, _, rfl, oid, _, ⟨hoid, rfl⟩, -, _, ⟨hknows, rfl⟩,
    nullLen, _, hnull, -, _, rfl, len, _, ⟨bits, hbits, hbits5, rfl⟩, -, _, ⟨hlen, rfl⟩, -, _, rfl,
    -, _, ⟨haccepts, rfl⟩, key, ⟨hkey, rfl⟩, rfl⟩ := h
  have hnine : oidLen = 0x09 := UInt8.toNat_inj.mp (hoid.symm.trans hknows.length)
  have hkey1 : len = key.length + 1 := by omega
  rw [← hkey] at haccepts
  rw [hkey1] at hbits
  rcases optionalNull_eq_some.mp hnull with ⟨rfl, rfl⟩ | ⟨rfl, rfl, -⟩
  · exact ⟨outer, alg, [0x05, 0x00], bits, by rw [hnine]; rfl, houter, houter5,
      by simp; omega, halg, halg5, .inr rfl, rfl, hbits, hbits5, hknows, haccepts⟩
  · exact ⟨outer, alg, [], bits, by rw [hnine]; rfl, houter, houter5,
      by simp; omega, halg, halg5, .inl rfl, rfl, hbits, hbits5, hknows, haccepts⟩

theorem Spki.Layout.readSpki {F : Family} {s : Spki} {outer alg null bits rest der : Bytes}
    (h : s.Layout F outer alg null bits rest der) : readSpki F der = some (s, rest) := by
  have hnine : s.oid.length = (0x09 : UInt8).toNat := h.knows.length
  have hrest := h.spkiRest_eq
  obtain ⟨spkiLen, spkiRest, algIdLen, algIdRead, oid, key⟩ := s
  obtain rfl : algIdRead = 2 + oid.length + null.length := h.algIdRead_eq
  rw [h.der_eq] at hrest ⊢
  simp only [Interop.readSpki, bind_eq_some, expect_eq_some, getByte_eq_some, getBytes_eq_some,
    require_eq_some, map_eq_some, asn1DecodeLength_eq_some]
  refine ⟨(), _, rfl, spkiLen, _, ⟨outer, h.outer_isLength, h.outer_le, rfl⟩, (), _, rfl,
    algIdLen, _, ⟨alg, h.alg_isLength, h.alg_le, rfl⟩, (), _, rfl, 0x09, _, rfl, oid, _,
    ⟨hnine, rfl⟩, (), _, ⟨h.knows, rfl⟩, null.length, _, optionalNull_append h.null_eq _,
      (), _, rfl,
    key.length + 1, _, ⟨bits, h.bits_isLength, h.bits_le, rfl⟩, (), _, ⟨by omega, rfl⟩, (), _, rfl,
    (), _, ⟨h.accepts, rfl⟩, key, ⟨rfl, rfl⟩, ?_⟩
  congr 1
  simp at hrest ⊢
  omega

theorem importPublicKeyDer_eq_ok {F : Family} {der k : Bytes} {cap : ℕ} :
    importPublicKeyDer F der cap = .ok k ↔
      ∃ s rest, readSpki F der = some (s, rest) ∧ s.key = k ∧ k.length ≤ cap := by
  rw [importPublicKeyDer]
  constructor
  · intro h
    split at h
    · cases h
    · split at h
      · cases h
      · next s rest hread =>
        split at h
        · cases h
        · next hcap =>
          cases h
          exact ⟨s, rest, hread, rfl, Nat.le_of_not_gt hcap⟩
  · rintro ⟨s, rest, hread, rfl, hcap⟩
    obtain ⟨outer, alg, null, bits, hlay⟩ := Spki.Layout.of_readSpki hread
    have hten : ¬der.length < 10 := by
      have := hlay.knows.length
      rw [hlay.der_eq]
      simp
      omega
    rw [if_neg hten, hread]
    dsimp only
    rw [if_neg (Nat.not_lt.mpr hcap)]

/-! ## Well-formed public keys -/

/-- The input is one SEQUENCE of an AlgorithmIdentifier with the identifier for the length of `k`,
and possibly a NULL, and a BIT STRING with no unused bits and `k`. Every length is exact. -/
def WellFormed (F : Family) (der k : Bytes) : Prop :=
  ∃ oid null oidTlv algIdTlv bitsTlv,
    F.oidForKeySize k.length = some oid ∧ (null = [] ∨ null = [0x05, 0x00]) ∧
      IsTlv 0x06 oid oidTlv ∧ IsTlv 0x30 (oidTlv ++ null) algIdTlv ∧
      IsTlv 0x03 (0x00 :: k) bitsTlv ∧ IsTlv 0x30 (algIdTlv ++ bitsTlv) der

/-- What the reader does not test. -/
def Spki.Exact (F : Family) (s : Spki) (rest : Bytes) : Prop :=
  s.spkiLen = s.spkiRest ∧ s.algIdLen = s.algIdRead ∧ rest = [] ∧
    F.oidForKeySize s.key.length = some s.oid

instance (F : Family) (s : Spki) (rest : Bytes) : Decidable (s.Exact F rest) := by
  unfold Spki.Exact; infer_instance

namespace Spki.Layout

variable {F : Family} {s : Spki} {outer alg null bits rest der : Bytes}

theorem wellFormed (h : s.Layout F outer alg null bits rest der) (hexact : s.Exact F rest) :
    WellFormed F der s.key := by
  obtain ⟨hspki, halg, rfl, hoid⟩ := hexact
  have hnine := h.knows.length
  refine ⟨s.oid, null, 0x06 :: 0x09 :: s.oid, 0x30 :: (alg ++ (0x06 :: 0x09 :: s.oid ++ null)),
    0x03 :: (bits ++ 0x00 :: s.key), hoid, h.null_eq, ?_, ?_, ?_, ?_⟩
  · exact ⟨[0x09], hnine ▸ .short (by decide), rfl⟩
  · refine ⟨alg, ?_, rfl⟩
    have hlen : (0x06 :: 0x09 :: s.oid ++ null).length = s.algIdLen := by
      rw [halg, h.algIdRead_eq]
      simp
      omega
    rw [hlen]
    exact h.alg_isLength
  · exact ⟨bits, h.bits_isLength, rfl⟩
  · have hder : der = 0x30 :: (outer ++ (0x30 :: (alg ++ (0x06 :: 0x09 :: s.oid ++ null)) ++
        0x03 :: (bits ++ 0x00 :: s.key))) := by
      rw [h.der_eq]
      simp
    refine ⟨outer, ?_, hder⟩
    have hlen := h.spkiRest_eq
    rw [hder, List.length_cons, List.length_append] at hlen
    convert h.outer_isLength using 1
    omega

/-- The lengths and the bytes of a well-formed input leave no choice, so that its layout is exact.
-/
theorem exact_of_wellFormed (h : s.Layout F outer alg null bits rest der)
    (hwf : WellFormed F der s.key) : s.Exact F rest := by
  obtain ⟨oid, null', _, _, _, hoid, hnull', ⟨oidLen, hoidLen, rfl⟩, ⟨algLen, halgLen, rfl⟩,
    ⟨bitsLen, hbitsLen, rfl⟩, ⟨outer', houter', hder'⟩⟩ := hwf
  have hnine := h.knows.length
  have hder := h.der_eq
  -- one tag after the other, from the outside
  obtain ⟨-, hspki, hspkiRest⟩ :=
    houter'.unique h.outer_isLength (List.cons.inj (hder'.symm.trans hder)).2
  have halgRest : algLen ++ (0x06 :: (oidLen ++ oid) ++ null' ++ 0x03 ::
    (bitsLen ++ 0x00 :: s.key)) =
      alg ++ 0x06 :: 0x09 :: (s.oid ++ (null ++ 0x03 :: (bits ++ 0x00 :: (s.key ++ rest)))) := by
    simpa using hspkiRest
  obtain ⟨-, halg, halgRest⟩ := halgLen.unique h.alg_isLength halgRest
  have hoidRest : oidLen ++ (oid ++ (null' ++ 0x03 :: (bitsLen ++ 0x00 :: s.key))) =
      [0x09] ++ (s.oid ++ (null ++ 0x03 :: (bits ++ 0x00 :: (s.key ++ rest)))) := by
    simpa using halgRest
  have hshort : IsLength [0x09] 9 := .short (b := 0x09) (by decide)
  obtain ⟨rfl, hoid9, hoidRest⟩ := hoidLen.unique hshort hoidRest
  obtain ⟨rfl, hnullRest⟩ := List.append_inj hoidRest (hoid9.trans hnine.symm)
  have hnull : null' = null ∧ bitsLen ++ 0x00 :: s.key = bits ++ 0x00 :: (s.key ++ rest) := by
    rcases hnull' with rfl | rfl <;> rcases h.null_eq with rfl | rfl
    · exact ⟨rfl, by simpa using hnullRest⟩
    · simp at hnullRest
    · simp at hnullRest
    · exact ⟨rfl, by simpa using hnullRest⟩
  obtain ⟨rfl, hbitsRest⟩ := hnull
  have hkey := (hbitsLen.unique h.bits_isLength hbitsRest).2.2
  refine ⟨?_, ?_, ?_, hoid⟩
  · have hlen := h.spkiRest_eq
    rw [hder, List.length_cons, List.length_append, ← hspkiRest] at hlen
    omega
  · rw [← halg, h.algIdRead_eq]
    simp
    omega
  · simpa using hkey

end Spki.Layout

theorem wellFormed_iff_exact {F : Family} {der k : Bytes} {cap : ℕ}
    (h : importPublicKeyDer F der cap = .ok k) :
    ∃ s rest, readSpki F der = some (s, rest) ∧ s.key = k ∧
      (WellFormed F der k ↔ s.Exact F rest) := by
  obtain ⟨s, rest, hread, rfl, -⟩ := importPublicKeyDer_eq_ok.mp h
  obtain ⟨outer, alg, null, bits, hlay⟩ := Spki.Layout.of_readSpki hread
  exact ⟨s, rest, hread, rfl, hlay.exact_of_wellFormed, hlay.wellFormed⟩

/-! ## The writer -/

/-- The encoding of a public key. -/
def spkiBytes (oid key : Bytes) : Bytes :=
  tlv 0x30 (tlv 0x30 (tlv 0x06 oid) ++ tlv 0x03 (0x00 :: key))

section

variable {F : Family} {oid key : Bytes}

/-- The contents of the outer SEQUENCE. -/
theorem spkiContents_eq (h : oid.length = 9) :
    tlv 0x30 (tlv 0x06 oid) ++ tlv 0x03 (0x00 :: key) =
      0x30 :: (asn1EncodeLength (2 + oid.length) ++ 0x06 :: 0x09 :: (oid ++
        0x03 :: (asn1EncodeLength (1 + key.length) ++ 0x00 :: key))) := by
  have halg : (0x06 :: 0x09 :: oid).length = 2 + oid.length := Nat.add_comm _ 2
  have hbits : (0x00 :: key).length = 1 + key.length := Nat.add_comm _ 1
  rw [tlv_oid h, tlv, tlv, halg, hbits]
  simp

/-- The bytes of the exporter, and the length that it reports. -/
theorem exportPublicKeyDer_eq (h : F.oidForKeySize key.length = some oid) (derLen : ℕ) :
    exportPublicKeyDer F key derLen =
      if (spkiBytes oid key).length > derLen then
        .error (.bufferTooSmall (spkiBytes oid key).length)
      else .ok (spkiBytes oid key) := by
  have hnine : oid.length = 9 := (Family.knows_of_oidForKeySize h).length
  have halg : (tlv 0x06 oid).length = 2 + oid.length := by
    rw [tlv_oid hnine]
    exact Nat.add_comm _ 2
  have hbits : (0x00 :: key).length = 1 + key.length := Nat.add_comm _ _
  have hlen : (tlv 0x30 (tlv 0x06 oid) ++ tlv 0x03 (0x00 :: key)).length =
      1 + (asn1EncodeLength (2 + oid.length)).length + (2 + oid.length) +
        (1 + (asn1EncodeLength (1 + key.length)).length + (1 + key.length)) := by
    rw [List.length_append, length_tlv 0x30, length_tlv 0x03, halg, hbits]
  have hbytes : spkiBytes oid key = [0x30] ++
      asn1EncodeLength (tlv 0x30 (tlv 0x06 oid) ++ tlv 0x03 (0x00 :: key)).length ++
      [0x30] ++ asn1EncodeLength (2 + oid.length) ++ [0x06] ++ [UInt8.ofNat oid.length] ++ oid ++
      [0x03] ++ asn1EncodeLength (1 + key.length) ++ [0x00] ++ key := by
    rw [spkiBytes, tlv, spkiContents_eq hnine, hnine]
    simp
  rw [exportPublicKeyDer, h]
  dsimp only
  rw [← hlen, ← length_tlv 0x30, ← spkiBytes, ← hbytes]

theorem length_spkiBytes_le (h : F.oidForKeySize key.length = some oid) :
    (spkiBytes oid key).length ≤ 4096 := by
  have hnine := (Family.knows_of_oidForKeySize h).length
  have hkey := (Family.accepts_of_oidForKeySize h).le
  have hoid := length_tlv_le 0x06 oid
  have halg := length_tlv_le 0x30 (tlv 0x06 oid)
  have hbits := length_tlv_le 0x03 (0x00 :: key)
  have hspki := length_tlv_le 0x30 (tlv 0x30 (tlv 0x06 oid) ++ tlv 0x03 (0x00 :: key))
  rw [List.length_cons] at hbits
  rw [List.length_append] at hspki
  rw [spkiBytes]
  omega

/-- The reader finds in an exported key what was put there, and every length is exact. -/
theorem readSpki_spkiBytes (h : F.oidForKeySize key.length = some oid) :
    ∃ s, readSpki F (spkiBytes oid key) = some (s, []) ∧ s.key = key ∧ s.Exact F [] := by
  have hnine := (Family.knows_of_oidForKeySize h).length
  have hkey := (Family.accepts_of_oidForKeySize h).le
  have hspki := length_spkiBytes_le h
  rw [spkiBytes, length_tlv] at hspki
  generalize hcontents : tlv 0x30 (tlv 0x06 oid) ++ tlv 0x03 (0x00 :: key) = contents at hspki
  let s : Spki := ⟨contents.length, contents.length, 2 + oid.length, 2 + oid.length, oid, key⟩
  have hlay : s.Layout F (asn1EncodeLength contents.length) (asn1EncodeLength (2 + oid.length))
      [] (asn1EncodeLength (1 + key.length)) [] (spkiBytes oid key) :=
    { der_eq := by
        rw [spkiBytes, hcontents, tlv, ← hcontents, spkiContents_eq hnine]
        simp [s]
      outer_isLength := isLength_asn1EncodeLength (by omega)
      outer_le := (length_asn1EncodeLength_le _).trans (by decide)
      spkiRest_eq := by rw [spkiBytes, length_tlv, hcontents]
      alg_isLength := isLength_asn1EncodeLength (by omega)
      alg_le := (length_asn1EncodeLength_le _).trans (by decide)
      null_eq := .inl rfl
      algIdRead_eq := rfl
      bits_isLength := by
        rw [Nat.add_comm]
        exact isLength_asn1EncodeLength (by omega)
      bits_le := (length_asn1EncodeLength_le _).trans (by decide)
      knows := Family.knows_of_oidForKeySize h
      accepts := Family.accepts_of_oidForKeySize h }
  exact ⟨s, hlay.readSpki, rfl, rfl, rfl, rfl, h⟩

theorem import_spkiBytes (h : F.oidForKeySize key.length = some oid) {cap : ℕ}
    (hcap : key.length ≤ cap) : importPublicKeyDer F (spkiBytes oid key) cap = .ok key := by
  obtain ⟨s, hread, hkey, -⟩ := readSpki_spkiBytes h
  exact importPublicKeyDer_eq_ok.mpr ⟨s, [], hread, hkey, hcap⟩

end

/-! ## The round trips -/

theorem roundTrips_publicKey {F : Family} {key : Bytes} (h : F.Accepts key.length) :
    RoundTrips (exportPublicKeyDer F) (importPublicKeyDer F) (exportPublicKeyPem F)
      (importPublicKeyPem F) key := by
  obtain ⟨oid, hoid⟩ := Family.exists_oid h
  refine RoundTrips.of_der .publicKey (exportPublicKeyDer_eq hoid) (fun cap ↦ import_spkiBytes hoid)
    (length_spkiBytes_le hoid) (fun buffer ↦ rfl) fun pem cap hread ↦ ?_
  rw [importPublicKeyPem, hread]

/-- Public keys of ML-KEM and ML-DSA come back through DER and PEM, and base64 is sound by itself.
-/
theorem publicKey_round_trips :
    (∀ key, mlKem.Accepts key.length →
      RoundTrips kemExportPublicKeyDer kemImportPublicKeyDer kemExportPublicKeyPem
        kemImportPublicKeyPem key) ∧
    (∀ key, mlDsa.Accepts key.length →
      RoundTrips mldsaExportPublicKeyDer mldsaImportPublicKeyDer mldsaExportPublicKeyPem
        mldsaImportPublicKeyPem key) ∧
    (∀ b cap, b.length ≤ cap → b64Decode cap (b64EncodeWrapped b) = some b) ∧
    ∀ b, (b64EncodeWrapped b).length = b64EncodedLen b.length ∧ 0x2d ∉ b64EncodeWrapped b :=
  ⟨fun _ ↦ roundTrips_publicKey, fun _ ↦ roundTrips_publicKey, fun _ _ ↦ b64Decode_encodeWrapped,
    fun b ↦ ⟨length_b64EncodeWrapped b, fun h ↦ b64_ne_dash _ h rfl⟩⟩

/-- A key for each parameter set of ML-KEM and ML-DSA, and texts of every residue. -/
theorem publicKey_round_trips_zeros :
    (∀ n ∈ [800, 1184, 1568], RoundTrips kemExportPublicKeyDer kemImportPublicKeyDer
      kemExportPublicKeyPem kemImportPublicKeyPem (List.replicate n 0)) ∧
    (∀ n ∈ [1312, 1952, 2592], RoundTrips mldsaExportPublicKeyDer mldsaImportPublicKeyDer
      mldsaExportPublicKeyPem mldsaImportPublicKeyPem (List.replicate n 0)) ∧
    ∀ n ∈ [0, 1, 2, 3, 47, 48, 49],
      b64Decode n (b64EncodeWrapped (List.replicate n 0)) = some (List.replicate n 0) := by
  refine ⟨fun n hn ↦ ?_, fun n hn ↦ ?_, fun n _ ↦ ?_⟩
  · exact publicKey_round_trips.1 _ (by rw [List.length_replicate]; exact hn)
  · exact publicKey_round_trips.2.1 _ (by rw [List.length_replicate]; exact hn)
  · exact publicKey_round_trips.2.2.1 _ n (by rw [List.length_replicate])

/-! ## What importing leaves unchecked -/

/-- Whatever is imported has the tags of a public key and a known identifier; it is well formed
exactly when both SEQUENCE lengths are exact, nothing follows the key, and the identifier is the one
for the length of the key. -/
theorem import_wellFormed_iff (der k : Bytes) (cap : ℕ) :
    (kemImportPublicKeyDer der cap = .ok k →
      ∃ s rest, readSpki mlKem der = some (s, rest) ∧ s.key = k ∧
        (WellFormed mlKem der k ↔ s.Exact mlKem rest)) ∧
    (mldsaImportPublicKeyDer der cap = .ok k →
      ∃ s rest, readSpki mlDsa der = some (s, rest) ∧ s.key = k ∧
        (WellFormed mlDsa der k ↔ s.Exact mlDsa rest)) :=
  ⟨wellFormed_iff_exact, wellFormed_iff_exact⟩

/-- Importing what the exporter writes is such a case. -/
theorem import_wellFormed_iff_zeros :
    WellFormed mlKem (spkiBytes [0x60, 0x86, 0x48, 0x01, 0x65, 0x03, 0x04, 0x04, 0x01]
      (List.replicate 800 0)) (List.replicate 800 0) ∧
    WellFormed mlDsa (spkiBytes [0x60, 0x86, 0x48, 0x01, 0x65, 0x03, 0x04, 0x03, 0x11]
      (List.replicate 1312 0)) (List.replicate 1312 0) := by
  have hkem : mlKem.oidForKeySize (List.replicate 800 (0 : UInt8)).length =
      some [0x60, 0x86, 0x48, 0x01, 0x65, 0x03, 0x04, 0x04, 0x01] := by
    rw [List.length_replicate]
    rfl
  have hdsa : mlDsa.oidForKeySize (List.replicate 1312 (0 : UInt8)).length =
      some [0x60, 0x86, 0x48, 0x01, 0x65, 0x03, 0x04, 0x03, 0x11] := by
    rw [List.length_replicate]
    rfl
  constructor
  · obtain ⟨s, rest, hread, -, hiff⟩ :=
      (import_wellFormed_iff _ _ 800).1 (import_spkiBytes hkem (by rw [List.length_replicate]))
    obtain ⟨s', hread', -, hexact⟩ := readSpki_spkiBytes hkem
    cases hread.symm.trans hread'
    exact hiff.mpr hexact
  · obtain ⟨s, rest, hread, -, hiff⟩ :=
      (import_wellFormed_iff _ _ 1312).2 (import_spkiBytes hdsa (by rw [List.length_replicate]))
    obtain ⟨s', hread', -, hexact⟩ := readSpki_spkiBytes hdsa
    cases hread.symm.trans hread'
    exact hiff.mpr hexact

/-- An input with the tags of a public key and nothing else right: both SEQUENCEs declare to be
empty, the identifier is chosen freely, and a byte follows the key of `n` zeros. -/
def looseSpki (oid bits : Bytes) (n : ℕ) : Bytes :=
  0x30 :: ([0x00] ++ 0x30 :: ([0x00] ++ 0x06 :: 0x09 :: (oid ++ ([] ++
    0x03 :: (bits ++ 0x00 :: (List.replicate n 0 ++ [0xff]))))))

theorem looseSpki_accepted {F : Family} {oid bits : Bytes} {n : ℕ} (hoid : F.Knows oid)
    (hn : F.Accepts n) (hbits : IsLength bits (n + 1)) (hle : bits.length ≤ 5) :
    importPublicKeyDer F (looseSpki oid bits n) n = .ok (List.replicate n 0) ∧
      ¬WellFormed F (looseSpki oid bits n) (List.replicate n 0) := by
  let s : Spki := ⟨0, (looseSpki oid bits n).length - 2, 0, 2 + oid.length, oid, List.replicate n 0⟩
  have hlay : s.Layout F [0x00] [0x00] [] bits [0xff] (looseSpki oid bits n) :=
    { der_eq := rfl
      outer_isLength := .short (b := 0x00) (by decide)
      outer_le := by decide
      spkiRest_eq := by
        have : 2 ≤ (looseSpki oid bits n).length := by simp [looseSpki]
        simp only [s, List.length_singleton]
        omega
      alg_isLength := .short (b := 0x00) (by decide)
      alg_le := by decide
      null_eq := .inl rfl
      algIdRead_eq := rfl
      bits_isLength := by simpa [s] using hbits
      bits_le := hle
      knows := hoid
      accepts := by simpa [s] using hn }
  refine ⟨importPublicKeyDer_eq_ok.mpr ⟨s, _, hlay.readSpki, rfl, by simp⟩, fun hwf ↦ ?_⟩
  cases (hlay.exact_of_wellFormed hwf).2.2.1

/-- Both importers accept an input whose lengths are wrong, that goes on behind the key, and whose
identifier is that of another parameter set. -/
theorem import_accepts_loose :
    (kemImportPublicKeyDer (looseSpki [0x60, 0x86, 0x48, 0x01, 0x65, 0x03, 0x04, 0x04, 0x02]
        [0x82, 0x03, 0x21] 800) 800 = .ok (List.replicate 800 0) ∧
      ¬WellFormed mlKem (looseSpki [0x60, 0x86, 0x48, 0x01, 0x65, 0x03, 0x04, 0x04, 0x02]
        [0x82, 0x03, 0x21] 800) (List.replicate 800 0)) ∧
    (mldsaImportPublicKeyDer (looseSpki [0x60, 0x86, 0x48, 0x01, 0x65, 0x03, 0x04, 0x03, 0x12]
        [0x82, 0x05, 0x21] 1312) 1312 = .ok (List.replicate 1312 0) ∧
      ¬WellFormed mlDsa (looseSpki [0x60, 0x86, 0x48, 0x01, 0x65, 0x03, 0x04, 0x03, 0x12]
        [0x82, 0x05, 0x21] 1312) (List.replicate 1312 0)) :=
  ⟨looseSpki_accepted (by decide) (by decide) (.long rfl (by decide)) (by decide),
    looseSpki_accepted (by decide) (by decide) (.long rfl (by decide)) (by decide)⟩

end Interop
