import QudoPqc.Codec.Table
import QudoPqc.MlKem.KeyHistory

/-!
# Encodings of ML-KEM keys are canonical

The parsers accept a string exactly if it has the right length, all its coefficients are below `q`
and, for a private key, the hash in it is that of the public key in it. What they accept is what the
encoders return for the object they leave, and the encoding of an object is parsed to its parts.

The encoder is a bit buffer for any width and the decoder works on three bytes at a time, so the two
meet in the packing of FIPS 203 only: a string of `384 * n` bytes is the encoding of a vector of
residues as soon as its words are below `q`.
-/

namespace MlKem

open Codec Fallible Fallible.Act Fips203

namespace Fips203

variable {n : ℕ}

/-- All words of a string are below `q`. -/
def Reduced (n : ℕ) (bs : Bytes) : Prop := ∀ x ∈ unpack 12 (n * degree) bs, x < q

/-- The encodings of vectors of residues. -/
theorem exists_encodeVec_iff {bs : Bytes} (hlen : bs.length = 384 * n) :
    (∃ p : Vec n (ZMod q), bs = encodeVec 12 p.repr) ↔ Reduced n bs := by
  rw [Reduced, ← exists_packTable_iff (show 12 * degree = 8 * 384 from rfl) hlen]
  constructor
  · rintro ⟨p, rfl⟩
    exact ⟨p.repr, fun i j ↦ ⟨(p.repr_lt i j).trans (by decide), p.repr_lt i j⟩, rfl⟩
  · rintro ⟨p, hp, rfl⟩
    refine ⟨Vec.residue p, ?_⟩
    rw [Vec.repr_residue fun i j ↦ (hp i j).2]
    rfl

variable {v : Variant}

/-- The encodings of public keys. -/
theorem exists_publicKey_iff {input : Bytes} :
    (∃ pk : PublicKey v, input = pk.encode) ↔
      input.length = v.pubkeyBytes ∧ Reduced v.rank (input.take v.vectorBytes) := by
  constructor
  · rintro ⟨pk, rfl⟩
    refine ⟨pk.length_encode, ?_⟩
    rw [pk.take_t]
    exact (exists_encodeVec_iff (length_encodeVec 12 _)).mp ⟨pk.t, rfl⟩
  · rintro ⟨hlen, hred⟩
    rw [Variant.pubkeyBytes] at hlen
    have htake : (input.take v.vectorBytes).length = 384 * v.rank :=
      List.length_take_of_le (by omega)
    obtain ⟨t, ht⟩ := (exists_encodeVec_iff htake).mpr hred
    refine ⟨⟨t, input.drop v.vectorBytes, by rw [List.length_drop, hlen]; omega⟩, ?_⟩
    rw [PublicKey.encode, ← ht, List.take_append_drop]

/-- The encodings of private keys. -/
theorem exists_secretKey_iff (H : Primitives) {input : Bytes} :
    (∃ sk : SecretKey v, input = sk.encode H) ↔
      input.length = v.prvkeyBytes ∧ Reduced v.rank (input.take v.vectorBytes) ∧
        Reduced v.rank ((input.drop v.vectorBytes).take v.vectorBytes) ∧
        (input.drop (v.vectorBytes + v.pubkeyBytes)).take 32 =
          H.sha3_256 ((input.drop v.vectorBytes).take v.pubkeyBytes) := by
  have hbytes : v.prvkeyBytes = v.vectorBytes + v.pubkeyBytes + 64 := by
    rw [Variant.prvkeyBytes, Variant.pubkeyBytes]
    omega
  have hle : v.vectorBytes ≤ v.pubkeyBytes := Nat.le_add_right _ _
  constructor
  · rintro ⟨sk, rfl⟩
    have hpub := (exists_publicKey_iff (v := v)).mp ⟨sk.pub, rfl⟩
    refine ⟨sk.length_encode H, ?_, ?_, ?_⟩
    · rw [sk.take_s]
      exact (exists_encodeVec_iff (length_encodeVec 12 _)).mp ⟨sk.s, rfl⟩
    · rw [sk.drop_s, List.take_append_of_le_length (hle.trans hpub.1.ge)]
      exact hpub.2
    · rw [sk.take_hash, sk.take_pub]
  · rintro ⟨hlen, hs, ht, hhash⟩
    rw [hbytes] at hlen
    have htake : (input.take v.vectorBytes).length = 384 * v.rank :=
      List.length_take_of_le (by omega)
    obtain ⟨s, hs⟩ := (exists_encodeVec_iff htake).mpr hs
    have hmiddle : ((input.drop v.vectorBytes).take v.pubkeyBytes).length = v.pubkeyBytes :=
      List.length_take_of_le (by rw [List.length_drop]; omega)
    obtain ⟨pub, hpub⟩ := (exists_publicKey_iff (v := v)).mpr
      ⟨hmiddle, by rwa [List.take_take, Nat.min_eq_left hle]⟩
    have hz : (input.drop (v.vectorBytes + v.pubkeyBytes + 32)).length = 32 := by
      rw [List.length_drop, hlen]
      omega
    have hsplit : input = input.take v.vectorBytes ++
        ((input.drop v.vectorBytes).take v.pubkeyBytes ++
          ((input.drop (v.vectorBytes + v.pubkeyBytes)).take 32 ++
            input.drop (v.vectorBytes + v.pubkeyBytes + 32))) := by
      simp only [← List.drop_drop, List.take_append_drop]
    refine ⟨⟨s, pub, _, hz⟩, ?_⟩
    rw [hhash, hpub, hs] at hsplit
    exact hsplit

end Fips203

namespace Ossl

variable {v : Variant} {H : Primitives} {build : Build} {ok : Call → Bool} {key : Key v}

/-! ## Objects that can be encoded -/

variable (H) in
/-- The coefficients of the public key are reduced, and its hash is there. -/
structure Key.Coherent (key : Key v) : Prop where
  t_lt : ∃ t, key.t = some t ∧ ∀ i j, t i j < q
  rho_isSome : ∃ rho, key.deref key.rho = some rho ∧ rho.length = 32
  pkhash_eq : key.deref key.pkhash = (key.encodePublicKey v.pubkeyBytes).map H.sha3_256

variable (H) in
/-- The same for a private key. -/
structure Key.CoherentPrivate (key : Key v) : Prop extends key.Coherent H where
  s_lt : ∃ s, key.s = some s ∧ ∀ i j, s i j < q
  z_isSome : ∃ z, key.deref key.z = some z ∧ z.length = 32

theorem Key.Coherent.exists_publicKey (h : key.Coherent H) :
    ∃ pk : PublicKey v, key.t = some pk.t.repr ∧ key.deref key.rho = some pk.rho ∧
      key.encodePubkey = some pk.encode ∧
      key.deref key.pkhash = some (H.sha3_256 pk.encode) := by
  obtain ⟨t, ht, hlt⟩ := h.t_lt
  obtain ⟨rho, hrho, hlen⟩ := h.rho_isSome
  let pk : PublicKey v := ⟨t.residue, rho, hlen⟩
  have ht' : key.t = some pk.t.repr := by rw [ht, Vec.repr_residue hlt]
  have henc : key.encodePubkey = some pk.encode := by
    rw [encodePubkey, ht', hrho]
    simp [vectorEncode_repr, PublicKey.encode, pk]
  refine ⟨pk, ht', hrho, henc, ?_⟩
  rw [h.pkhash_eq, encodePublicKey, havePubkey, ht', henc]
  simp

theorem Key.CoherentPrivate.exists_secretKey (h : key.CoherentPrivate H) :
    ∃ sk : SecretKey v, key.t = some sk.pub.t.repr ∧
      key.deref key.rho = some sk.pub.rho ∧
      key.deref key.pkhash = some (H.sha3_256 sk.pub.encode) ∧ key.s = some sk.s.repr ∧
      key.deref key.z = some sk.z ∧ key.encodePrivateKey v.prvkeyBytes = some (sk.encode H) := by
  obtain ⟨pk, ht, hrho, hpub, hpkhash⟩ := h.toCoherent.exists_publicKey
  obtain ⟨s, hs, hlt⟩ := h.s_lt
  obtain ⟨z, hz, hlen⟩ := h.z_isSome
  let sk : SecretKey v := ⟨s.residue, pk, z, hlen⟩
  have hs' : key.s = some sk.s.repr := by rw [hs, Vec.repr_residue hlt]
  refine ⟨sk, ht, hrho, hpkhash, hs', hz, ?_⟩
  rw [encodePrivateKey, havePrvkey, encodePrvkey, hs', hpub, hpkhash, hz]
  simp [vectorEncode_repr, SecretKey.encode, sk]

/-! ## The parsers -/

section Parsers

variable (hok : ∀ c, ok c = true) (hkey : key.Unloaded)

include hok hkey

theorem parsePublicKey_accepts (input : Bytes) (key' : Key v) :
    (parsePublicKey H build ok input).run key = (some (), key') ↔
      ∃ pk : PublicKey v, input = pk.encode ∧ key.loadedPublic H build pk = key' := by
  rw [parsePublicKey_eq_some]
  simp [hkey, hok, Build.Hashes]

theorem parsePrivateKey_accepts (input : Bytes) (key' : Key v) :
    (parsePrivateKey H build ok input).run key = (some (), key') ↔
      ∃ sk : SecretKey v, input = sk.encode H ∧ key.loadedPrivate H build sk = key' := by
  rw [parsePrivateKey_eq_some]
  simp [hkey, hok, Build.Hashes]

variable (H build) in
/-- The parsers of both builds accept exactly the canonical encodings, and are inverse to the
encoders. -/
theorem kem_codec_canonical :
    (∀ input, (∃ key', (parsePublicKey H build ok input).run key = (some (), key')) ↔
      input.length = v.pubkeyBytes ∧ Reduced v.rank (input.take v.vectorBytes)) ∧
    (∀ input key', (parsePublicKey H build ok input).run key = (some (), key') →
      key'.encodePublicKey v.pubkeyBytes = some input) ∧
    (∀ input, (∃ key', (parsePrivateKey H build ok input).run key = (some (), key')) ↔
      input.length = v.prvkeyBytes ∧ Reduced v.rank (input.take v.vectorBytes) ∧
        Reduced v.rank ((input.drop v.vectorBytes).take v.vectorBytes) ∧
        (input.drop (v.vectorBytes + v.pubkeyBytes)).take 32 =
          H.sha3_256 ((input.drop v.vectorBytes).take v.pubkeyBytes)) ∧
    (∀ input key', (parsePrivateKey H build ok input).run key = (some (), key') →
      key'.encodePrivateKey v.prvkeyBytes = some input) ∧
    (∀ src : Key v, src.Coherent H → ∃ enc key',
      src.encodePublicKey v.pubkeyBytes = some enc ∧
      (parsePublicKey H build ok enc).run key = (some (), key') ∧ key'.t = src.t ∧
      key'.deref key'.rho = src.deref src.rho ∧
      key'.deref key'.pkhash = src.deref src.pkhash) ∧
    (∀ src : Key v, src.CoherentPrivate H → ∃ enc key',
      src.encodePrivateKey v.prvkeyBytes = some enc ∧
      (parsePrivateKey H build ok enc).run key = (some (), key') ∧ key'.t = src.t ∧
      key'.deref key'.rho = src.deref src.rho ∧ key'.deref key'.pkhash = src.deref src.pkhash ∧
      key'.s = src.s ∧ key'.deref key'.z = src.deref src.z) ∧
    (∀ input input' key', (parsePublicKey H build ok input).run key = (some (), key') →
      (parsePublicKey H build ok input').run key = (some (), key') → input = input') ∧
    ∀ input input' key', (parsePrivateKey H build ok input).run key = (some (), key') →
      (parsePrivateKey H build ok input').run key = (some (), key') → input = input' := by
  have hpublic (input key') (h : (parsePublicKey H build ok input).run key = (some (), key')) :
      key'.encodePublicKey v.pubkeyBytes = some input := by
    obtain ⟨pk, rfl, rfl⟩ := (parsePublicKey_accepts hok hkey input key').mp h
    exact (key.holdsPublic_loadedPublic H build hkey.2 pk).encodePublicKey
  have hprivate (input key') (h : (parsePrivateKey H build ok input).run key = (some (), key')) :
      key'.encodePrivateKey v.prvkeyBytes = some input := by
    obtain ⟨sk, rfl, rfl⟩ := (parsePrivateKey_accepts hok hkey input key').mp h
    exact (key.holdsPrivate_loadedPrivate H build hkey.2 sk).encodePrivateKey
  refine ⟨fun input ↦ ?_, hpublic, fun input ↦ ?_, hprivate, fun src hsrc ↦ ?_, fun src hsrc ↦ ?_,
    fun input input' key' h h' ↦ ?_, fun input input' key' h h' ↦ ?_⟩
  · rw [← exists_publicKey_iff]
    constructor
    · rintro ⟨key', h⟩
      obtain ⟨pk, hpk, -⟩ := (parsePublicKey_accepts hok hkey input key').mp h
      exact ⟨pk, hpk⟩
    · rintro ⟨pk, hpk⟩
      exact ⟨_, (parsePublicKey_accepts hok hkey input _).mpr ⟨pk, hpk, rfl⟩⟩
  · rw [← exists_secretKey_iff]
    constructor
    · rintro ⟨key', h⟩
      obtain ⟨sk, hsk, -⟩ := (parsePrivateKey_accepts hok hkey input key').mp h
      exact ⟨sk, hsk⟩
    · rintro ⟨sk, hsk⟩
      exact ⟨_, (parsePrivateKey_accepts hok hkey input _).mpr ⟨sk, hsk, rfl⟩⟩
  · obtain ⟨pk, ht, hrho, hpub, hpkhash⟩ := hsrc.exists_publicKey
    refine ⟨pk.encode, _, ?_, (parsePublicKey_accepts hok hkey _ _).mpr ⟨pk, rfl, rfl⟩, ht.symm,
      hrho.symm, hpkhash.symm⟩
    rw [Key.encodePublicKey, Key.havePubkey, ht, hpub]
    simp
  · obtain ⟨sk, ht, hrho, hpkhash, hs, hz, henc⟩ := hsrc.exists_secretKey
    exact ⟨sk.encode H, _, henc, (parsePrivateKey_accepts hok hkey _ _).mpr ⟨sk, rfl, rfl⟩, ht.symm,
      hrho.symm, hpkhash.symm, hs.symm, hz.symm⟩
  · exact Option.some.inj ((hpublic input key' h).symm.trans (hpublic input' key' h'))
  · exact Option.some.inj ((hprivate input key' h).symm.trans (hprivate input' key' h'))

end Parsers

theorem kem_codec_canonical_new :
    (keyNew : Key .mlKem512).Unloaded ∧
      ∀ input key', (parsePublicKey zeroPrimitives .delegated (fun _ ↦ true) input).run
        (keyNew : Key .mlKem512) = (some (), key') → key'.encodePublicKey 800 = some input :=
  ⟨⟨rfl, rfl⟩, (kem_codec_canonical zeroPrimitives .delegated (fun _ ↦ rfl) ⟨rfl, rfl⟩).2.1⟩

end Ossl

end MlKem
