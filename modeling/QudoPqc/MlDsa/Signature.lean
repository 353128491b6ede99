import QudoPqc.MlDsa.Hints
import QudoPqc.MlDsa.PolyCodec

/-!
# Encodings of ML-DSA signatures are unique

`ossl_ml_dsa_sig_decode` reads the commitment hash, `z` and the hints and insists that nothing is
left. It accepts exactly the strings that sigEncode of FIPS 204 writes, so `ossl_ml_dsa_sig_encode`
takes what it has read back to the same string.
-/

namespace MlDsa

open Codec Fips204

variable {v : Variant}

namespace Fips204

/-- The three parts of a signature fill `sig_len` bytes. -/
theorem length_sigEncode (parts : SignatureParts v) : parts.encode.length = v.params.sigLen := by
  have hz : (encodeVec (bitPack v.gamma1 v.zBits) parts.z).length = v.l * (32 * v.zBits) :=
    length_encodeVec (length_bitPack _ _) _
  rw [SignatureParts.encode, sigEncode, List.length_append, List.length_append,
    parts.length_cTilde, hz, length_hintBitPack parts.ones_le]
  cases v <;> decide

end Fips204

namespace Ossl

/-- `ML_DSA_SIG`. -/
@[ext]
structure Sig (v : Variant) where
  cTilde : Bytes
  z : PolyVec v.l ℕ
  hint : PolyVec v.k ℕ

/-- `ossl_ml_dsa_sig_encode` into a buffer of `sig_len` bytes: a write past its end fails. -/
def sigEncode (sig : Sig v) : Option Bytes :=
  let out := sig.cTilde ++ (encodeVec (zEncode v) sig.z ++ hintBitsEncode v.omega sig.hint)
  if out.length ≤ v.params.sigLen then some out else none

/-- The fields that `ossl_ml_dsa_sig_decode` reads. -/
def sigFields (v : Variant) : Packet (Sig v) :=
  (Packet.getBytes v.cTildeLen).bind fun cTilde ↦ (Packet.getVector (zDecode v) v.l).bind fun z ↦
    (hintBitsDecode v.omega v.k).map fun hint ↦ ⟨cTilde, z, hint⟩

/-- `ossl_ml_dsa_sig_decode`. -/
def sigDecode (v : Variant) (input : Bytes) : Option (Sig v) :=
  (sigFields v input).bind fun r ↦ if r.2 = [] then some r.1 else none

/-- The parts of a signature as OpenSSL holds them: residues, and hints of zeros and ones. -/
def Sig.ofParts (parts : SignatureParts v) : Sig v :=
  ⟨parts.cTilde, parts.z.repr, parts.h.bits⟩

theorem omega_lt (v : Variant) : v.omega < 256 := by
  cases v <;> decide

theorem parses_sigFields :
    Parses (sigFields v) fun enc sig ↦
      ∃ parts : SignatureParts v, sig = Sig.ofParts parts ∧ enc = parts.encode := by
  intro bs sig rest
  have hhint := parses_hintBitsDecode (n := v.k) (omega_lt v)
  rw [sigFields]
  constructor
  · intro hbind
    obtain ⟨cTilde, mid, hcTilde, hbind⟩ := Packet.bind_eq_some.mp hbind
    obtain ⟨p, mid', hp, hmap⟩ := Packet.bind_eq_some.mp hbind
    obtain ⟨hint, hhintEq, rfl⟩ := Packet.map_eq_some.mp hmap
    obtain ⟨hlen, rfl⟩ := (reads_getBytes v.cTildeLen bs cTilde mid).mp hcTilde
    obtain ⟨z, hz, rfl, rfl⟩ := (getVector_zDecode _ _ p).mp hp
    obtain ⟨_, ⟨h, hones, rfl, rfl⟩, rfl⟩ := (hhint mid' hint rest).mp hhintEq
    refine ⟨_, ⟨⟨cTilde, z, h, hlen, hz, hones⟩, rfl, rfl⟩, ?_⟩
    simp only [SignatureParts.encode, Fips204.sigEncode, List.append_assoc, id_eq]
  · rintro ⟨_, ⟨parts, rfl, rfl⟩, rfl⟩
    have hz := (getVector_zDecode _ (hintBitPack v.omega parts.h ++ rest) _).mpr
      ⟨parts.z, parts.z_range, rfl, rfl⟩
    have hh := (hhint _ _ rest).mpr ⟨_, ⟨parts.h, parts.ones_le, rfl, rfl⟩, rfl⟩
    rw [SignatureParts.encode, Fips204.sigEncode, List.append_assoc, List.append_assoc,
      Packet.bind_of_eq_some _ (getBytes_append parts.length_cTilde _),
      Packet.bind_of_eq_some _ hz]
    exact Packet.map_eq_some.mpr ⟨parts.h.bits, hh, rfl⟩

/-- The accepted strings are the encodings of FIPS 204. -/
theorem sigDecode_eq_some {input : Bytes} {sig : Sig v} :
    sigDecode v input = some sig ↔
      ∃ parts : SignatureParts v, sig = Sig.ofParts parts ∧ input = parts.encode := by
  rw [sigDecode]
  constructor
  · intro hdec
    obtain ⟨⟨sig', rest⟩, hfields, hif⟩ := Option.bind_eq_some_iff.mp hdec
    obtain ⟨hrest, heq⟩ := Option.ite_none_right_eq_some.mp hif
    obtain ⟨_, ⟨parts, rfl, rfl⟩, rfl⟩ := (parses_sigFields input sig' rest).mp hfields
    refine ⟨parts, (Option.some.inj heq).symm, ?_⟩
    rw [show rest = [] from hrest, List.append_nil]
  · rintro ⟨parts, rfl, rfl⟩
    have hfields := (parses_sigFields parts.encode (Sig.ofParts parts) []).mpr
      ⟨_, ⟨parts, rfl, rfl⟩, (List.append_nil _).symm⟩
    rw [hfields, Option.bind_some, if_pos rfl]

theorem sigEncode_ofParts (parts : SignatureParts v) :
    sigEncode (Sig.ofParts parts) = some parts.encode := by
  have hout : parts.cTilde ++ (encodeVec (zEncode v) parts.z.repr ++
      hintBitsEncode v.omega parts.h.bits) = parts.encode := by
    rw [encodeVec_zEncode parts.z_range, hintBitsEncode_bits parts.ones_le]
    rfl
  rw [sigEncode]
  simp only [Sig.ofParts, hout]
  exact if_pos (length_sigEncode parts).le

/-- Encoding what the decoder has read gives the string back, so no two strings decode to the same
signature, and every signature in range survives encoding and decoding. -/
theorem sig_encoding_unique (v : Variant) :
    (∀ (input : Bytes) (sig : Sig v), sigDecode v input = some sig →
      sigEncode sig = some input) ∧
    (∀ (input input' : Bytes) (sig : Sig v), sigDecode v input = some sig →
      sigDecode v input' = some sig → input = input') ∧
    ∀ (cTilde : Bytes) (z : PolyVec v.l ℤ) (h : PolyVec v.k Bool),
      cTilde.length = v.cTildeLen → (∀ i j, -(v.gamma1 : ℤ) < z i j ∧ z i j ≤ v.gamma1) →
      ones h ≤ v.omega →
      ∃ out, sigEncode (⟨cTilde, z.repr, h.bits⟩ : Sig v) = some out ∧
        sigDecode v out = some ⟨cTilde, z.repr, h.bits⟩ := by
  have hback : ∀ (input : Bytes) (sig : Sig v), sigDecode v input = some sig →
      sigEncode sig = some input := by
    intro input sig hdec
    obtain ⟨parts, rfl, rfl⟩ := sigDecode_eq_some.mp hdec
    exact sigEncode_ofParts parts
  refine ⟨hback, fun input input' sig hdec hdec' ↦ ?_, fun cTilde z h hlen hz hones ↦ ?_⟩
  · exact Option.some.inj ((hback input sig hdec).symm.trans (hback input' sig hdec'))
  · let parts : SignatureParts v := ⟨cTilde, z, h, hlen, hz, hones⟩
    exact ⟨parts.encode, sigEncode_ofParts parts, sigDecode_eq_some.mpr ⟨parts, rfl, rfl⟩⟩

/-- A signature with coefficients of both signs and a hint in every row, for ML-DSA-65. -/
theorem sig_encoding_unique_diagonal :
    let sig : Sig .mlDsa65 := ⟨List.replicate 48 7, PolyVec.repr fun i j ↦ (i : ℤ) - j,
      PolyVec.bits fun i j ↦ decide ((j : ℕ) = 40 * i)⟩
    ∃ out, sigEncode sig = some out ∧ sigDecode .mlDsa65 out = some sig ∧
      ∀ input, sigDecode .mlDsa65 input = some sig → input = out := by
  intro sig
  obtain ⟨-, hunique, hforth⟩ := sig_encoding_unique .mlDsa65
  have hz : ∀ (i : Fin 5) (j : Fin 256), -(524288 : ℤ) < (i : ℤ) - j ∧ (i : ℤ) - j ≤ 524288 := by
    omega
  obtain ⟨out, henc, hdec⟩ := hforth (List.replicate 48 7) (fun i j ↦ i - j)
    (fun i j ↦ decide ((j : ℕ) = 40 * i)) List.length_replicate hz (by decide +kernel)
  exact ⟨out, henc, hdec, fun input h ↦ hunique input out sig h hdec⟩

end Ossl

end MlDsa
