import QudoPqc.Interop.Pem
import QudoPqc.Wrapper.Service

/-!
# Keys of SLH-DSA

The exporters of `slhdsa_interop.c` take a key and a parameter set as independent arguments and do
not compare them; the importers take the expected length from the object identifier. A round trip
therefore depends on the length of the key alone (`readPublicKey_written`,
`readPrivateKey_written`); where the three bytes of length are too few, the key comes back cut
short.

The PEM importers take the length of the text as an argument, and `slhdsa_pem_unwrap` does not use
it: both markers are searched for up to the NUL. What stands in the first characters decides the
result if they contain the NUL or both markers, and otherwise only if no continuation is a key
(`local_iff`).
-/

namespace Interop

open Codec Codec.Packet QudoPqc

/-! ## Object identifiers -/

/-- `OID_BASE`. -/
def oidBase : Bytes := [0x60, 0x86, 0x48, 0x01, 0x65, 0x03, 0x04, 0x03]

/-- `get_oid_suffix_for_param_set`. -/
def oidSuffix : SlhdsaParam → UInt8
  | .sha2_128s => 0x14
  | .sha2_128f => 0x15
  | .sha2_192s => 0x16
  | .sha2_192f => 0x17
  | .sha2_256s => 0x18
  | .sha2_256f => 0x19
  | .shake_128s => 0x1A
  | .shake_128f => 0x1B
  | .shake_192s => 0x1C
  | .shake_192f => 0x1D
  | .shake_256s => 0x1E
  | .shake_256f => 0x1F

/-- `get_param_set_from_oid_suffix`. -/
def paramSetFromOidSuffix (suffix : UInt8) : Option SlhdsaParam :=
  if suffix = 0x14 then some .sha2_128s
  else if suffix = 0x15 then some .sha2_128f
  else if suffix = 0x16 then some .sha2_192s
  else if suffix = 0x17 then some .sha2_192f
  else if suffix = 0x18 then some .sha2_256s
  else if suffix = 0x19 then some .sha2_256f
  else if suffix = 0x1A then some .shake_128s
  else if suffix = 0x1B then some .shake_128f
  else if suffix = 0x1C then some .shake_192s
  else if suffix = 0x1D then some .shake_192f
  else if suffix = 0x1E then some .shake_256s
  else if suffix = 0x1F then some .shake_256f
  else none

theorem paramSetFromOidSuffix_oidSuffix (ps : SlhdsaParam) :
    paramSetFromOidSuffix (oidSuffix ps) = some ps := by
  cases ps <;> rfl

/-! ## Writing -/

/-- `QUDO_SLHDSA_export_public_key_der` and `QUDO_SLHDSA_export_private_key_der`: the second has a
version, and the tag and the contents of the last element differ. A buffer that is too small is not
told the size. -/
def slhdsaWriteDer (version : Bytes) (tag : UInt8) (contents : Bytes) (ps : SlhdsaParam)
    (buffer : Option ℕ) : Except Failure Output :=
  let algidContentLen := 2 + 9
  let algidTotalLen := 2 + algidContentLen
  let lenBuf := asn1EncodeLength contents.length
  let seqContentLen := version.length + algidTotalLen + (1 + lenBuf.length + contents.length)
  let seqLenBuf := asn1EncodeLength seqContentLen
  let totalLen := 1 + seqLenBuf.length + seqContentLen
  match buffer with
  | none => .ok (.needed totalLen)
  | some derOutLen =>
    if derOutLen < totalLen then .error (.bufferTooSmall derOutLen)
    else .ok (.written ([0x30] ++ seqLenBuf ++ version ++
      [0x30, UInt8.ofNat algidContentLen, 0x06, 0x09] ++ oidBase ++ [oidSuffix ps] ++
      [tag] ++ lenBuf ++ contents))

/-- `QUDO_SLHDSA_export_public_key_der`. -/
def slhdsaExportPublicKeyDer (publicKey : Bytes) (ps : SlhdsaParam) :
    (buffer : Option ℕ) → Except Failure Output :=
  slhdsaWriteDer [] 0x03 (0x00 :: publicKey) ps

/-- `QUDO_SLHDSA_export_private_key_der`. -/
def slhdsaExportPrivateKeyDer (privateKey : Bytes) (ps : SlhdsaParam) :
    (buffer : Option ℕ) → Except Failure Output :=
  slhdsaWriteDer [0x02, 0x01, 0x00] 0x04 privateKey ps

/-- The value of the length variable after a call. -/
def Output.len : Output → ℕ
  | needed len => len
  | written bytes => bytes.length

/-- The bytes written by a call. -/
def Output.bytes : Output → Bytes
  | needed _ => []
  | written bytes => bytes

/-- `QUDO_SLHDSA_export_public_key_pem` and `QUDO_SLHDSA_export_private_key_pem`: one call for the
size of the encoding, and one for the encoding. -/
def slhdsaWritePem (l : Label) (exportDer : (buffer : Option ℕ) → Except Failure Output)
    (buffer : Option ℕ) : Except Failure Output :=
  (exportDer none).bind fun size ↦ (exportDer (some size.len)).bind fun der ↦
    slhdsaPemWrap l der.bytes buffer

/-- `QUDO_SLHDSA_export_public_key_pem`, without OpenSSL. -/
def slhdsaExportPublicKeyPem (publicKey : Bytes) (ps : SlhdsaParam) :
    (buffer : Option ℕ) → Except Failure Output :=
  slhdsaWritePem .publicKey (slhdsaExportPublicKeyDer publicKey ps)

/-- `QUDO_SLHDSA_export_private_key_pem`, without OpenSSL. -/
def slhdsaExportPrivateKeyPem (privateKey : Bytes) (ps : SlhdsaParam) :
    (buffer : Option ℕ) → Except Failure Output :=
  slhdsaWritePem .privateKey (slhdsaExportPrivateKeyDer privateKey ps)

/-! ## Reading -/

/-- `asn1_decode_length` of `slhdsa_interop.c`: the contents have to be there. -/
def slhdsaDecodeLength : Packet ℕ := asn1DecodeLength.bind fun len bs ↦
  if len > bs.length then none else some (len, bs)

/-- The AlgorithmIdentifier, with the parameter set that it names. -/
def readAlgorithm : Packet SlhdsaParam :=
  (expect 0x30).bind fun _ ↦ slhdsaDecodeLength.bind fun _ ↦
  (expect 0x06).bind fun _ ↦ getByte.bind fun oidLen ↦
  (require (oidLen = 0x09)).bind fun _ ↦
  (getBytes oidBase.length).bind fun base ↦ (require (base = oidBase)).bind fun _ ↦
  getByte.bind fun suffix bs ↦ (paramSetFromOidSuffix suffix).map fun ps ↦ (ps, bs)

/-- The reader of `QUDO_SLHDSA_import_public_key_der`. -/
def readPublicKey : Packet Bytes :=
  (expect 0x30).bind fun _ ↦ slhdsaDecodeLength.bind fun _ ↦ readAlgorithm.bind fun ps ↦
  (expect 0x03).bind fun _ ↦ slhdsaDecodeLength.bind fun len ↦
  (require (len ≠ 0)).bind fun _ ↦ (expect 0x00).bind fun _ ↦
  (require (len - 1 = ps.lengths.1)).bind fun _ ↦ getBytes (len - 1)

/-- The reader of `QUDO_SLHDSA_import_private_key_der`. -/
def readPrivateKey : Packet Bytes :=
  (expect 0x30).bind fun _ ↦ slhdsaDecodeLength.bind fun _ ↦
  (expect 0x02).bind fun _ ↦ slhdsaDecodeLength.bind fun len ↦ (getBytes len).bind fun _ ↦
  readAlgorithm.bind fun ps ↦
  (expect 0x04).bind fun _ ↦ slhdsaDecodeLength.bind fun len ↦
  (require (len = ps.lengths.2)).bind fun _ ↦ getBytes len

/-- What both importers do with their reader; a NULL buffer asks for the length of the key. -/
def slhdsaImportDer (read : Packet Bytes) (der : Bytes) (buffer : Option ℕ) :
    Except Failure Output :=
  if der.length < 10 then .error .decode
  else match read der with
    | none => .error .decode
    | some (key, _) =>
      match buffer with
      | none => .ok (.needed key.length)
      | some keyLen =>
        if keyLen < key.length then .error (.bufferTooSmall keyLen) else .ok (.written key)

/-- `QUDO_SLHDSA_import_public_key_der`. -/
def slhdsaImportPublicKeyDer (der : Bytes) (buffer : Option ℕ) : Except Failure Output :=
  slhdsaImportDer readPublicKey der buffer

/-- `QUDO_SLHDSA_import_private_key_der`. -/
def slhdsaImportPrivateKeyDer (der : Bytes) (buffer : Option ℕ) : Except Failure Output :=
  slhdsaImportDer readPrivateKey der buffer

/-- What both PEM importers do. -/
def slhdsaImportPem (l : Label) (derLen : ℕ)
    (importDer : Bytes → Option ℕ → Except Failure Output) (pem : Bytes) (pemLen : ℕ)
    (buffer : Option ℕ) : Except Failure Output :=
  match slhdsaPemUnwrap l pem pemLen derLen with
  | none => .error .decode
  | some der => importDer der buffer

/-- `QUDO_SLHDSA_import_public_key_pem`, without OpenSSL. -/
def slhdsaImportPublicKeyPem : (pem : Bytes) → (pemLen : ℕ) → (buffer : Option ℕ) →
    Except Failure Output :=
  slhdsaImportPem .publicKey 8192 slhdsaImportPublicKeyDer

/-- `QUDO_SLHDSA_import_private_key_pem`, without OpenSSL. -/
def slhdsaImportPrivateKeyPem : (pem : Bytes) → (pemLen : ℕ) → (buffer : Option ℕ) →
    Except Failure Output :=
  slhdsaImportPem .privateKey 16384 slhdsaImportPrivateKeyDer

/-! ## What is written -/

/-- The AlgorithmIdentifier of a parameter set. -/
def algIdBytes (ps : SlhdsaParam) : Bytes :=
  [0x30, 0x0b, 0x06, 0x09] ++ (oidBase ++ [oidSuffix ps])

/-- The encoding of a key. -/
def slhdsaDer (version : Bytes) (tag : UInt8) (contents : Bytes) (ps : SlhdsaParam) :
    Bytes :=
  tlv 0x30 (version ++ (algIdBytes ps ++ tlv tag contents))

section

variable {version contents : Bytes} {tag : UInt8} {ps : SlhdsaParam}

theorem length_algIdBytes (ps : SlhdsaParam) : (algIdBytes ps).length = 13 := rfl

theorem slhdsaWriteDer_eq (buffer : Option ℕ) :
    slhdsaWriteDer version tag contents ps buffer =
      match buffer with
      | none => .ok (.needed (slhdsaDer version tag contents ps).length)
      | some derOutLen =>
        if derOutLen < (slhdsaDer version tag contents ps).length then
          .error (.bufferTooSmall derOutLen)
        else .ok (.written (slhdsaDer version tag contents ps)) := by
  have hlen : (version ++ (algIdBytes ps ++ tlv tag contents)).length =
      version.length + (2 + (2 + 9)) +
        (1 + (asn1EncodeLength contents.length).length + contents.length) := by
    rw [List.length_append, List.length_append, length_algIdBytes, length_tlv]
    omega
  have hbytes : slhdsaDer version tag contents ps =
      [0x30] ++ asn1EncodeLength (version ++ (algIdBytes ps ++ tlv tag contents)).length ++
      version ++ [0x30, UInt8.ofNat (2 + 9), 0x06, 0x09] ++ oidBase ++ [oidSuffix ps] ++ [tag] ++
      asn1EncodeLength contents.length ++ contents := by
    rw [slhdsaDer, tlv, algIdBytes, tlv]
    simp
  have htotal := length_tlv 0x30 (version ++ (algIdBytes ps ++ tlv tag contents))
  rw [← slhdsaDer] at htotal
  simp only [slhdsaWriteDer, ← hlen, ← htotal, ← hbytes]

theorem length_slhdsaDer_le :
    (slhdsaDer version tag contents ps).length ≤ version.length + contents.length + 23 := by
  have houter := length_tlv_le 0x30 (version ++ (algIdBytes ps ++ tlv tag contents))
  have hinner := length_tlv_le tag contents
  rw [List.length_append, List.length_append, length_algIdBytes] at houter
  rw [slhdsaDer]
  omega

end

/-! ## What is read back -/

theorem slhdsaDecodeLength_encode {n : ℕ} {rest : Bytes} (hrest : n ≤ rest.length) :
    slhdsaDecodeLength (asn1EncodeLength n ++ rest) = some (n % 2 ^ 24, rest) := by
  have hle : n % 2 ^ 24 ≤ rest.length := (Nat.mod_le _ _).trans hrest
  rw [slhdsaDecodeLength, bind_of_eq_some _ (asn1DecodeLength_encode_mod n rest),
    if_neg (Nat.not_lt.mpr hle)]

theorem readAlgorithm_append (ps : SlhdsaParam) (rest : Bytes) :
    readAlgorithm (algIdBytes ps ++ rest) = some (ps, rest) := by
  have hlen : slhdsaDecodeLength (asn1EncodeLength 11 ++
      (0x06 :: 0x09 :: (oidBase ++ oidSuffix ps :: rest))) =
      some (11, 0x06 :: 0x09 :: (oidBase ++ oidSuffix ps :: rest)) :=
    slhdsaDecodeLength_encode (by simp [oidBase])
  have hbytes : algIdBytes ps ++ rest = 0x30 :: (asn1EncodeLength 11 ++
      (0x06 :: 0x09 :: (oidBase ++ oidSuffix ps :: rest))) := by
    simp [algIdBytes, asn1EncodeLength]
  rw [hbytes, readAlgorithm, expect_bind, bind_of_eq_some _ hlen, expect_bind, getByte_bind,
    require_bind, if_pos rfl, getBytes_bind _ rfl, require_bind, if_pos rfl, getByte_bind,
    paramSetFromOidSuffix_oidSuffix, Option.map_some]

theorem lengths_le (ps : SlhdsaParam) : ps.lengths.1 ≤ 64 ∧ ps.lengths.2 ≤ 128 := by
  cases ps <;> decide

/-- Only the length of the key decides whether an exported public key is read. -/
theorem readPublicKey_written (key : Bytes) (ps : SlhdsaParam) :
    readPublicKey (slhdsaDer [] 0x03 (0x00 :: key) ps) =
      if (key.length + 1) % 2 ^ 24 = ps.lengths.1 + 1 then
        some (key.take ps.lengths.1, key.drop ps.lengths.1)
      else none := by
  have hpos : ps.lengths.1 ≠ 0 := by cases ps <;> decide
  have hmod := Nat.mod_le (key.length + 1) (2 ^ 24)
  rw [slhdsaDer, List.nil_append, tlv, readPublicKey, expect_bind,
    bind_of_eq_some _ (slhdsaDecodeLength_encode le_rfl),
    bind_of_eq_some _ (readAlgorithm_append ps _), tlv, expect_bind,
    bind_of_eq_some _ (slhdsaDecodeLength_encode le_rfl), require_bind, List.length_cons]
  split_ifs with hne hlen hlen
  · rw [expect_bind, require_bind, hlen, Nat.add_sub_cancel, if_pos rfl]
    exact getBytes_eq_some.mpr
      ⟨List.length_take_of_le (by omega), (List.take_append_drop _ key).symm⟩
  · rw [expect_bind, require_bind, if_neg (by omega)]
  · omega
  · rfl

/-- The same for a private key. -/
theorem readPrivateKey_written (key : Bytes) (ps : SlhdsaParam) :
    readPrivateKey (slhdsaDer [0x02, 0x01, 0x00] 0x04 key ps) =
      if key.length % 2 ^ 24 = ps.lengths.2 then
        some (key.take ps.lengths.2, key.drop ps.lengths.2)
      else none := by
  have hmod := Nat.mod_le key.length (2 ^ 24)
  have hversion : slhdsaDecodeLength (0x01 :: ([0x00] ++ (algIdBytes ps ++ tlv 0x04 key))) =
      some (1, [0x00] ++ (algIdBytes ps ++ tlv 0x04 key)) :=
    slhdsaDecodeLength_encode (n := 1) (by simp)
  rw [slhdsaDer, tlv, readPrivateKey, expect_bind,
    bind_of_eq_some _ (slhdsaDecodeLength_encode le_rfl)]
  show ((expect 0x02).bind _ (0x02 :: (0x01 :: ([0x00] ++ (algIdBytes ps ++ tlv 0x04 key))))) = _
  rw [expect_bind, bind_of_eq_some _ hversion, getBytes_bind (n := 1) _ rfl,
    bind_of_eq_some _ (readAlgorithm_append ps _), tlv, expect_bind,
    bind_of_eq_some _ (slhdsaDecodeLength_encode le_rfl), require_bind]
  split_ifs with hlen
  · rw [hlen]
    exact getBytes_eq_some.mpr
      ⟨List.length_take_of_le (by omega), (List.take_append_drop _ key).symm⟩
  · rfl

/-! ## The round trips -/

/-- What is exported comes back, in DER and in PEM. -/
def SlhdsaRoundTrips (exportDer exportPem : (buffer : Option ℕ) → Except Failure Output)
    (importDer : Bytes → Option ℕ → Except Failure Output)
    (importPem : Bytes → ℕ → Option ℕ → Except Failure Output) (key : Bytes) : Prop :=
  ∃ der text : Bytes,
    exportDer none = .ok (.needed der.length) ∧
    (∀ n, der.length ≤ n → exportDer (some n) = .ok (.written der)) ∧
    (∀ cap, key.length ≤ cap → importDer der (some cap) = .ok (.written key)) ∧
    exportPem none = .ok (.needed (text.length + 1)) ∧
    (∀ n, text.length + 1 ≤ n → exportPem (some n) = .ok (.written text)) ∧
    ∀ cap rest pemLen, key.length ≤ cap →
      importPem (text ++ 0 :: rest) pemLen (some cap) = .ok (.written key)

/-- A key is exported, and the encoding is refused. -/
def SlhdsaUnreadable (exportDer : (buffer : Option ℕ) → Except Failure Output)
    (importDer : Bytes → Option ℕ → Except Failure Output) : Prop :=
  ∃ der : Bytes, (∀ n, der.length ≤ n → exportDer (some n) = .ok (.written der)) ∧
    ∀ buffer, importDer der buffer = .error .decode

section

variable {read : Packet Bytes} {version contents key : Bytes} {tag : UInt8}
  {ps : SlhdsaParam}

theorem slhdsaImportDer_of_some {rest : Bytes} {cap : ℕ}
    (h : read (slhdsaDer version tag contents ps) = some (key, rest)) (hcap : key.length ≤ cap) :
    slhdsaImportDer read (slhdsaDer version tag contents ps) (some cap) = .ok (.written key) := by
  have hten : ¬(slhdsaDer version tag contents ps).length < 10 := by
    rw [slhdsaDer, length_tlv, List.length_append, List.length_append, length_algIdBytes]
    omega
  rw [slhdsaImportDer, if_neg hten, h]
  exact if_neg (Nat.not_lt.mpr hcap)

theorem slhdsaImportDer_of_none {der : Bytes} (h : read der = none) (buffer : Option ℕ) :
    slhdsaImportDer read der buffer = .error .decode := by
  rw [slhdsaImportDer, h]
  split <;> rfl

theorem slhdsaWriteDer_of_le {n : ℕ} (hn : (slhdsaDer version tag contents ps).length ≤ n) :
    slhdsaWriteDer version tag contents ps (some n) =
      .ok (.written (slhdsaDer version tag contents ps)) := by
  rw [slhdsaWriteDer_eq]
  exact if_neg (Nat.not_lt.mpr hn)

/-- The exporters and importers of both kinds of keys, when the reader accepts what is written. -/
theorem slhdsaRoundTrips_of_read (l : Label) {derLen : ℕ}
    (hread : read (slhdsaDer version tag contents ps) = some (key, []))
    (hfits : (slhdsaDer version tag contents ps).length ≤ derLen) :
    SlhdsaRoundTrips (slhdsaWriteDer version tag contents ps)
      (slhdsaWritePem l (slhdsaWriteDer version tag contents ps)) (slhdsaImportDer read)
      (slhdsaImportPem l derLen (slhdsaImportDer read)) key := by
  have hsize : slhdsaWriteDer version tag contents ps none =
      .ok (.needed (slhdsaDer version tag contents ps).length) := slhdsaWriteDer_eq none
  have hpem (buffer : Option ℕ) :
      slhdsaWritePem l (slhdsaWriteDer version tag contents ps) buffer =
        slhdsaPemWrap l (slhdsaDer version tag contents ps) buffer := by
    simp only [slhdsaWritePem, hsize, Except.bind, Output.len, slhdsaWriteDer_of_le le_rfl,
      Output.bytes]
  have hneed := length_pemText l (slhdsaDer version tag contents ps)
  refine ⟨slhdsaDer version tag contents ps, pemText l (slhdsaDer version tag contents ps), hsize,
    fun n ↦ slhdsaWriteDer_of_le, fun cap ↦ slhdsaImportDer_of_some hread, ?_, fun n hn ↦ ?_,
    fun cap rest pemLen hcap ↦ ?_⟩
  · rw [hpem, hneed, slhdsaPemWrap]
  · rw [hneed] at hn
    rw [hpem, slhdsaPemWrap, if_neg (Nat.not_lt.mpr hn)]
  · rw [slhdsaImportPem, slhdsaPemUnwrap_pemText l hfits]
    exact slhdsaImportDer_of_some hread hcap

/-- What is exported in one way only is read back as the key. -/
theorem read_of_slhdsaRoundTrips {exportPem : (buffer : Option ℕ) → Except Failure Output}
    {importPem : Bytes → ℕ → Option ℕ → Except Failure Output}
    (h : SlhdsaRoundTrips (slhdsaWriteDer version tag contents ps) exportPem (slhdsaImportDer read)
      importPem key) : ∃ rest, read (slhdsaDer version tag contents ps) = some (key, rest) := by
  obtain ⟨der, -, -, hexport, himport, -⟩ := h
  let n := max der.length (slhdsaDer version tag contents ps).length
  have hder : der = slhdsaDer version tag contents ps := by
    have hwritten := (hexport n (le_max_left _ _)).symm.trans
      (slhdsaWriteDer_of_le (le_max_right der.length _))
    exact Output.written.inj (Except.ok.inj hwritten)
  have himport := himport key.length le_rfl
  rw [slhdsaImportDer, hder] at himport
  cases hread : read (slhdsaDer version tag contents ps) with
  | none =>
    rw [hread] at himport
    split at himport <;> cases himport
  | some r =>
    obtain ⟨key', rest⟩ := r
    rw [hread] at himport
    dsimp only at himport
    split_ifs at himport
    cases himport
    exact ⟨rest, rfl⟩

theorem slhdsaRoundTrips_publicKey :
    SlhdsaRoundTrips (slhdsaExportPublicKeyDer key ps) (slhdsaExportPublicKeyPem key ps)
      slhdsaImportPublicKeyDer slhdsaImportPublicKeyPem key ↔ key.length = ps.lengths.1 := by
  have hle := (lengths_le ps).1
  constructor
  · intro h
    obtain ⟨rest, hread⟩ := read_of_slhdsaRoundTrips h
    obtain ⟨hmod, heq⟩ := Option.ite_none_right_eq_some.mp
      ((readPublicKey_written key ps).symm.trans hread)
    have htake : (key.take _).length = key.length :=
      congrArg List.length (congrArg Prod.fst (Option.some.inj heq))
    rw [List.length_take] at htake
    omega
  · intro h
    have hlen : (slhdsaDer [] 0x03 (0x00 :: key) ps).length ≤ 0 + (key.length + 1) + 23 :=
      length_slhdsaDer_le
    refine slhdsaRoundTrips_of_read .publicKey ?_ (by omega)
    rw [readPublicKey_written, if_pos (by omega), ← h, List.take_length, List.drop_length]

theorem slhdsaRoundTrips_privateKey :
    SlhdsaRoundTrips (slhdsaExportPrivateKeyDer key ps) (slhdsaExportPrivateKeyPem key ps)
      slhdsaImportPrivateKeyDer slhdsaImportPrivateKeyPem key ↔ key.length = ps.lengths.2 := by
  have hle := (lengths_le ps).2
  constructor
  · intro h
    obtain ⟨rest, hread⟩ := read_of_slhdsaRoundTrips h
    obtain ⟨hmod, heq⟩ := Option.ite_none_right_eq_some.mp
      ((readPrivateKey_written key ps).symm.trans hread)
    have htake : (key.take _).length = key.length :=
      congrArg List.length (congrArg Prod.fst (Option.some.inj heq))
    rw [List.length_take] at htake
    omega
  · intro h
    have hlen : (slhdsaDer [0x02, 0x01, 0x00] 0x04 key ps).length ≤ 3 + key.length + 23 :=
      length_slhdsaDer_le
    refine slhdsaRoundTrips_of_read .privateKey ?_ (by omega)
    rw [readPrivateKey_written, if_pos (by omega), ← h, List.take_length, List.drop_length]

end

/-- A key comes back exactly if it has the length of its parameter set. Every other key is exported
all the same. -/
theorem slhdsa_round_trips (ps : SlhdsaParam) (key : Bytes) :
    (SlhdsaRoundTrips (slhdsaExportPublicKeyDer key ps) (slhdsaExportPublicKeyPem key ps)
        slhdsaImportPublicKeyDer slhdsaImportPublicKeyPem key ↔ key.length = ps.lengths.1) ∧
    (SlhdsaRoundTrips (slhdsaExportPrivateKeyDer key ps) (slhdsaExportPrivateKeyPem key ps)
        slhdsaImportPrivateKeyDer slhdsaImportPrivateKeyPem key ↔ key.length = ps.lengths.2) :=
  ⟨slhdsaRoundTrips_publicKey, slhdsaRoundTrips_privateKey⟩

/-- The empty key is exported, and not imported. -/
theorem slhdsa_exports_unreadable :
    SlhdsaUnreadable (slhdsaExportPublicKeyDer [] .sha2_128s) slhdsaImportPublicKeyDer ∧
      SlhdsaUnreadable (slhdsaExportPrivateKeyDer [] .sha2_128s) slhdsaImportPrivateKeyDer :=
  ⟨⟨_, fun _ ↦ slhdsaWriteDer_of_le, slhdsaImportDer_of_none (by decide +kernel)⟩,
    ⟨_, fun _ ↦ slhdsaWriteDer_of_le, slhdsaImportDer_of_none (by decide +kernel)⟩⟩

/-! ## The length of the text -/

/-- The result is the same for all texts that start with the characters `t`. -/
def Local (importPem : (pem : Bytes) → (pemLen : ℕ) → (buffer : Option ℕ) →
    Except Failure Output) (t : Bytes) : Prop :=
  ∀ rest rest' buffer, importPem (t ++ rest) t.length buffer =
    importPem (t ++ rest') t.length buffer

/-- The bytes of a PEM body are a key for the importer with the reader `read`. -/
def IsBody (derLen : ℕ) (read : Packet Bytes) (body : Bytes) : Prop :=
  ∃ der, b64Decode derLen body = some der ∧ 10 ≤ der.length ∧ (read der).isSome

/-- The characters contain a NUL, or a begin marker behind which there is an end marker, or
something that no body of a key with its end marker starts with. -/
def Settled (l : Label) (derLen : ℕ) (read : Packet Bytes) (t : Bytes) : Prop :=
  0 ∈ t ∨ ∃ p, search l.beginMarker t = some p ∧
    ((search l.endMarker (t.drop (p + l.beginMarker.length))).isSome ∨
      ∀ body, IsBody derLen read body →
        ¬t.drop (p + l.beginMarker.length) <+: body ++ l.endMarker)

section

variable {l : Label} {derLen p q : ℕ} {read : Packet Bytes} {t text pem body : Bytes}

/-- The importer on a text whose markers are known. -/
theorem slhdsaImportPem_eq (htext : cString pem = text) (hp : search l.beginMarker text = some p)
    (hq : search l.endMarker (text.drop (p + l.beginMarker.length)) = some q)
    (importDer : Bytes → Option ℕ → Except Failure Output) (pemLen : ℕ) (buffer : Option ℕ) :
    slhdsaImportPem l derLen importDer pem pemLen buffer =
      match if q = 0 then none
        else b64Decode derLen ((text.drop (p + l.beginMarker.length)).take q) with
      | none => .error .decode
      | some der => importDer der buffer := by
  simp only [slhdsaImportPem, slhdsaPemUnwrap, htext, hp, hq, Option.bind_some]

theorem slhdsaImportPem_of_none (htext : cString pem = text)
    (h : search l.beginMarker text = none ∨ ∃ p, search l.beginMarker text = some p ∧
      search l.endMarker (text.drop (p + l.beginMarker.length)) = none)
    (importDer : Bytes → Option ℕ → Except Failure Output) (pemLen : ℕ) (buffer : Option ℕ) :
    slhdsaImportPem l derLen importDer pem pemLen buffer = .error .decode := by
  rcases h with hp | ⟨p, hp, hq⟩
  · simp only [slhdsaImportPem, slhdsaPemUnwrap, htext, hp, Option.bind_none]
  · simp only [slhdsaImportPem, slhdsaPemUnwrap, htext, hp, hq, Option.bind_some, Option.bind_none]

/-- A body of a key between the markers is imported. -/
theorem IsBody.imported (h : IsBody derLen read body) (htext : cString pem = text)
    (hp : search l.beginMarker text = some p)
    (hbody : text.drop (p + l.beginMarker.length) = body ++ (l.endMarker ++ t)) (pemLen : ℕ) :
    slhdsaImportPem l derLen (slhdsaImportDer read) pem pemLen none ≠ .error .decode := by
  obtain ⟨der, hder, hten, hread⟩ := h
  have hq := search_endMarker_body l (ne_of_b64Decode hder).1 t
  have hne : body.length ≠ 0 := by
    intro hzero
    rw [List.length_eq_zero_iff.mp hzero] at hder
    cases hder
    exact absurd hten (by decide)
  obtain ⟨⟨key, rest⟩, hread⟩ := Option.isSome_iff_exists.mp hread
  rw [← hbody] at hq
  rw [slhdsaImportPem_eq htext hp hq, if_neg hne, hbody, List.take_left, hder]
  dsimp only
  rw [slhdsaImportDer, if_neg (by omega), hread]
  exact nofun

/-- What is no body of a key is an error. -/
theorem slhdsaImportDer_of_not_isBody {der : Bytes} (hder : b64Decode derLen body = some der)
    (h : ¬IsBody derLen read body) (buffer : Option ℕ) :
    slhdsaImportDer read der buffer = .error .decode := by
  by_cases hten : der.length < 10
  · rw [slhdsaImportDer, if_pos hten]
  · refine slhdsaImportDer_of_none (Option.not_isSome_iff_eq_none.mp fun hread ↦ ?_) buffer
    exact h ⟨der, hder, by omega, hread⟩

/-- Characters that no body of a key starts with are an error, whatever follows them. -/
theorem slhdsaImportPem_of_not_isBody {s : Bytes} (htext : cString pem = t ++ s)
    (hp : search l.beginMarker t = some p)
    (hend : search l.endMarker (t.drop (p + l.beginMarker.length)) = none)
    (h : ∀ body, IsBody derLen read body →
      ¬t.drop (p + l.beginMarker.length) <+: body ++ l.endMarker)
    (pemLen : ℕ) (buffer : Option ℕ) :
    slhdsaImportPem l derLen (slhdsaImportDer read) pem pemLen buffer = .error .decode := by
  have hp' := search_append_right hp s
  have hdrop : (t ++ s).drop (p + l.beginMarker.length) =
      t.drop (p + l.beginMarker.length) ++ s := List.drop_append_of_le_length (search_le hp)
  cases hq : search l.endMarker ((t ++ s).drop (p + l.beginMarker.length)) with
  | none => exact slhdsaImportPem_of_none htext (.inr ⟨p, hp', hq⟩) _ _ _
  | some q =>
    obtain ⟨hle, hocc, -⟩ := search_eq_some_iff.mp hq
    rw [slhdsaImportPem_eq htext hp' hq]
    generalize (t ++ s).drop (p + l.beginMarker.length) = u at *
    cases hder : b64Decode derLen (u.take q) with
    | none => split_ifs <;> rfl
    | some der =>
      have hnot : ¬IsBody derLen read (u.take q) := by
        intro hbody
        have hwhole : u.take q ++ l.endMarker <+: u := by
          conv_rhs => rw [← List.take_append_drop q u]
          exact (List.prefix_append_right_inj _).mpr hocc
        -- either marker or front part is the longer one
        rcases List.prefix_or_prefix_of_prefix (hdrop ▸ List.prefix_append _ s) hwhole
          with hpre | hpre
        · exact h _ hbody hpre
        · refine not_prefix_of_search hend q ?_
          have := hpre.drop q
          rwa [List.drop_left' (List.length_take_of_le hle)] at this
      split_ifs
      · rfl
      · exact slhdsaImportDer_of_not_isBody hder hnot buffer

/-- Exported keys of zeros. -/
def zeroPublicKey : Bytes := slhdsaDer [] 0x03 (0x00 :: List.replicate 32 0) .sha2_128s

@[inherit_doc zeroPublicKey]
def zeroPrivateKey : Bytes :=
  slhdsaDer [0x02, 0x01, 0x00] 0x04 (List.replicate 64 0) .sha2_128s

theorem newline_not_mem (l : Label) : (0x0a : UInt8) ∉ l.beginMarker := by
  cases l <;> decide +kernel

theorem Settled.local (h : Settled l derLen read t) :
    Local (slhdsaImportPem l derLen (slhdsaImportDer read)) t := by
  intro rest rest' buffer
  by_cases hzero : 0 ∈ t
  · simp only [slhdsaImportPem, slhdsaPemUnwrap, cString_append_of_mem hzero]
  have htext (rest : Bytes) : cString (t ++ rest) = t ++ cString rest := by
    have := (cString_of_not_mem
      (show 0 ∉ (t ++ rest).take t.length by rwa [List.take_left])).2
    rwa [List.take_left, List.drop_left] at this
  obtain ⟨p, hp, hor⟩ := h.resolve_left hzero
  cases hend : search l.endMarker (t.drop (p + l.beginMarker.length)) with
  | none =>
    have hbody := hor.resolve_left (by rw [hend]; exact Bool.false_ne_true)
    rw [slhdsaImportPem_of_not_isBody (htext rest) hp hend hbody,
      slhdsaImportPem_of_not_isBody (htext rest') hp hend hbody]
  | some q =>
    have hdrop (s : Bytes) : (t ++ s).drop (p + l.beginMarker.length) =
        t.drop (p + l.beginMarker.length) ++ s := List.drop_append_of_le_length (search_le hp)
    have hq (s : Bytes) : search l.endMarker ((t ++ s).drop (p + l.beginMarker.length)) =
        some q := by rw [hdrop, search_append_right hend]
    have hle := search_le hend
    rw [slhdsaImportPem_eq (htext rest) (search_append_right hp _) (hq _),
      slhdsaImportPem_eq (htext rest') (search_append_right hp _) (hq _), hdrop, hdrop,
      List.take_append_of_le_length (by omega), List.take_append_of_le_length (by omega)]

/-- Otherwise the characters are an error with a NUL behind them, and a key with another text. -/
theorem Settled.of_local (hkey : ∃ body, IsBody derLen read body)
    (h : Local (slhdsaImportPem l derLen (slhdsaImportDer read)) t) : Settled l derLen read t := by
  by_contra hnot
  obtain ⟨hzero, hnot⟩ := not_or.mp hnot
  have hne : ∀ c ∈ t, c ≠ 0 := fun c hc hc0 ↦ hzero (hc0 ▸ hc)
  have hmarker : ∀ c ∈ l.endMarker, c ≠ 0 :=
    fun c hc ↦ (marker_ne_zero l).2 c (List.mem_append_left _ hc)
  cases hp : search l.beginMarker t with
  | none =>
    obtain ⟨body, hbody⟩ := hkey
    obtain ⟨der, hder, -⟩ := id hbody
    let text := t ++ 0x0a :: (l.beginMarker ++ (body ++ l.endMarker))
    have htext : cString (t ++ (0x0a :: (l.beginMarker ++ (body ++ l.endMarker)) ++ [0])) =
      text := by
      rw [← List.append_assoc]
      refine cString_append (List.forall_mem_append.mpr ⟨hne, List.forall_mem_cons.mpr
        ⟨by decide, List.forall_mem_append.mpr ⟨fun c hc ↦ ?_, List.forall_mem_append.mpr
          ⟨(ne_of_b64Decode hder).2, hmarker⟩⟩⟩⟩) []
      exact (marker_ne_zero l).1 c (List.mem_append_left _ hc)
    have hbegin : search l.beginMarker text = some (t.length + 1) := by
      rw [search_append_cons hp (newline_not_mem l), search_eq_zero (List.prefix_append _ _),
        Option.map_some, Nat.zero_add]
    refine hbody.imported (t := []) htext hbegin ?_ t.length ?_
    · have happ : text = (t ++ [0x0a] ++ l.beginMarker) ++ (body ++ (l.endMarker ++ [])) := by
        simp [text]
      rw [happ]
      exact List.drop_left' (by simp; omega)
    · rw [h _ [0]]
      exact slhdsaImportPem_of_none (cString_append hne []) (.inl hp) _ _ _
  | some p =>
    have hnot := not_or.mp fun hor ↦ hnot ⟨p, hp, hor⟩
    have hend := Option.not_isSome_iff_eq_none.mp hnot.1
    obtain ⟨body, hbody, hpre⟩ : ∃ body, IsBody derLen read body ∧
        t.drop (p + l.beginMarker.length) <+: body ++ l.endMarker := by
      by_contra hall
      exact hnot.2 fun body hbody hpre ↦ hall ⟨body, hbody, hpre⟩
    obtain ⟨more, hmore⟩ := hpre
    obtain ⟨der, hder, -⟩ := id hbody
    have htext : cString (t ++ (more ++ [0])) = t ++ more := by
      rw [← List.append_assoc]
      refine cString_append (List.forall_mem_append.mpr ⟨hne, fun c hc ↦ ?_⟩) []
      have hc : c ∈ body ++ l.endMarker := hmore ▸ List.mem_append_right _ hc
      exact (List.mem_append.mp hc).elim ((ne_of_b64Decode hder).2 c) (hmarker c)
    refine hbody.imported (t := []) htext (search_append_right hp _) ?_ t.length ?_
    · rw [List.drop_append_of_le_length (search_le hp), hmore, List.append_nil]
    · rw [h _ [0]]
      exact slhdsaImportPem_of_none (cString_append hne []) (.inr ⟨p, hp, hend⟩) _ _ _

theorem isBody_written (der : Bytes) (hten : 10 ≤ der.length) (hfits : der.length ≤ derLen)
    (hread : (read der).isSome) : IsBody derLen read (b64EncodeWrapped der) :=
  ⟨der, b64Decode_encodeWrapped hfits, hten, hread⟩

end

/-- The result depends on the first characters alone exactly if they contain a NUL, or a begin
marker with an end marker behind it, or a begin marker with something behind it that does not begin
a key. In any case it depends on the text up to its NUL only. -/
theorem slhdsa_pem_import_local (t : Bytes) :
    (Local slhdsaImportPublicKeyPem t ↔ Settled .publicKey 8192 readPublicKey t) ∧
    (Local slhdsaImportPrivateKeyPem t ↔ Settled .privateKey 16384 readPrivateKey t) ∧
    ∀ (pem pem' : Bytes) (n : ℕ) (buffer : Option ℕ), cString pem = cString pem' →
      slhdsaImportPublicKeyPem pem n buffer = slhdsaImportPublicKeyPem pem' n buffer ∧
      slhdsaImportPrivateKeyPem pem n buffer = slhdsaImportPrivateKeyPem pem' n buffer := by
  refine ⟨⟨Settled.of_local ⟨_, isBody_written zeroPublicKey ?_ ?_ ?_⟩, Settled.local⟩,
    ⟨Settled.of_local ⟨_, isBody_written zeroPrivateKey ?_ ?_ ?_⟩, Settled.local⟩,
    fun pem pem' n buffer h ↦ ⟨?_, ?_⟩⟩
  any_goals decide +kernel
  · simp only [slhdsaImportPublicKeyPem, slhdsaImportPem, slhdsaPemUnwrap, h]
  · simp only [slhdsaImportPrivateKeyPem, slhdsaImportPem, slhdsaPemUnwrap, h]

/-- A text with both markers, one in which no key can follow the begin marker, and one with a NUL.
-/
theorem slhdsa_pem_import_local_markers :
    let l := Label.publicKey
    Local slhdsaImportPublicKeyPem (l.beginMarker ++ ascii "AAAA" ++ l.endMarker) ∧
      Local slhdsaImportPublicKeyPem (l.beginMarker ++ ascii "!") ∧
      Local slhdsaImportPrivateKeyPem [0x2d, 0x00] := by
  refine ⟨(slhdsa_pem_import_local _).1.mpr (.inr ⟨0, by decide +kernel, .inl (by decide +kernel)⟩),
    (slhdsa_pem_import_local _).1.mpr (.inr ⟨0, by decide +kernel, .inr fun body hbody hpre ↦ ?_⟩),
    (slhdsa_pem_import_local _).2.1.mpr (.inl (by decide))⟩
  obtain ⟨der, hder, -⟩ := hbody
  have hchars := b64DecodeLoop_chars hder
  cases body with
  | nil => exact absurd hpre (by decide +kernel)
  | cons c body =>
    have hc : 0x21 = c := (List.cons_prefix_cons.mp hpre).1
    exact absurd (hchars c List.mem_cons_self) (by rw [← hc]; decide)

/-- An exported key, and a text that has only its first character in common with it. -/
theorem slhdsa_pem_import_reads_on :
    (∃ pem : Bytes, pem.take 1 = [0x2d, 0x00].take 1 ∧
      slhdsaImportPublicKeyPem pem 1 (some 32) = .ok (.written (List.replicate 32 0)) ∧
      slhdsaImportPublicKeyPem [0x2d, 0x00] 1 (some 32) = .error .decode) ∧
    ∃ pem : Bytes, pem.take 1 = [0x2d, 0x00].take 1 ∧
      slhdsaImportPrivateKeyPem pem 1 (some 64) = .ok (.written (List.replicate 64 0)) ∧
      slhdsaImportPrivateKeyPem [0x2d, 0x00] 1 (some 64) = .error .decode := by
  have hdash (l : Label) (der : Bytes) : (pemText l der ++ [0x00]).take 1 = [0x2d] := by
    rw [pemText_eq]
    cases l <;> rfl
  constructor
  · refine ⟨pemText .publicKey zeroPublicKey ++ [0x00], hdash _ _, ?_, by decide +kernel⟩
    rw [slhdsaImportPublicKeyPem, slhdsaImportPem, slhdsaPemUnwrap_pemText _ (by decide)]
    decide +kernel
  · refine ⟨pemText .privateKey zeroPrivateKey ++ [0x00], hdash _ _, ?_, by decide +kernel⟩
    rw [slhdsaImportPrivateKeyPem, slhdsaImportPem, slhdsaPemUnwrap_pemText _ (by decide)]
    decide +kernel

end Interop
