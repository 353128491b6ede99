import QudoPqc.Interop.PrivateKey
import QudoPqc.MlDsa.KeyHistory

/-!
# Imported key pairs of ML-DSA

`QUDO_MLDSA_import_private_key_der_format` returns a public key with the private key: the bytes
behind the private key if there are any, or else the key regenerated from a seed. To find the seed
it goes through the input a second time, with other rules: it jumps over the AlgorithmIdentifier by
the declared length, which the first reader does not use, and stays within the input instead of the
OCTET STRING.

So it finds the seed in whatever stands where that length ends (`findSeed_eq`). Nothing compares the
private key with either public key: the keys match exactly if the parts of the input do
(`imported_pair_matches`).
-/

namespace Interop

open Codec Codec.Packet MlDsa

/-! ## The function of the source -/

/-- `rp < rp_end && *rp++ == tag && asn1_decode_length(&rp, rp_end, &rlen)`, then `rp += rlen`. The
pointer also moves when the condition is false, over the bytes that were looked at. -/
def skipTagged (tag : UInt8) : Bytes → Bytes
  | [] => []
  | b :: bs =>
    if b = tag then
      match asn1DecodeLength bs with
      | some (len, rest) => rest.drop len
      | none => bs.drop 1
    else bs

/-- The seed at the start of the seed-and-private-key layout. -/
def readSeedAhead : Packet Bytes :=
  (expect 0x30).bind fun _ ↦ asn1DecodeLength.bind fun _ ↦
  (expect 0x04).bind fun _ ↦ (expect 0x20).bind fun _ ↦ getBytes seedBytes

/-- The search for a seed in `QUDO_MLDSA_import_private_key_der_format`. -/
def findSeed (der : Bytes) : Option Bytes :=
  (((expect 0x30).bind fun _ ↦ asn1DecodeLength.bind fun _ ↦ fun rp ↦
    ((expect 0x04).bind fun _ ↦ asn1DecodeLength.bind fun rlen ↦ fun rp ↦
      if skLenFromSeedPrivInnerLen rlen > 0 ∧ rlen ≤ rp.length then readSeedAhead rp else none)
    (skipTagged 0x30 (skipTagged 0x02 rp))) der).map fun r ↦ r.1

/-- `QUDO_MLDSA_import_private_key_der_format`, in a build with OpenSSL and with room for a public
key: the private key and the public key, which is empty when `public_key_len` is set to zero. The
engine gives the public key for a seed. -/
def importPrivateKeyDerFormat (engine : Variant → Bytes → Except Failure Bytes)
    (der : Bytes) (privateKeyLen publicKeyLen : ℕ) :
    Except Failure (Bytes × Bytes) :=
  (importPrivateKeyDer der privateKeyLen).bind fun key ↦
    match variantOfPair key.length with
    | some v =>
      if publicKeyLen < v.params.pkLen then .error (.bufferTooSmall v.params.pkLen)
      else .ok (key.take v.params.skLen, key.drop v.params.skLen)
    | none =>
      match variantOfSk key.length with
      | none => .ok (key, [])
      | some v =>
        match findSeed der with
        | none => .ok (key, [])
        | some seed =>
          if publicKeyLen < v.params.pkLen then .error (.bufferTooSmall v.params.pkLen)
          else (engine v seed).map fun publicKey ↦ (key, publicKey)

/-! ## The seed beside the private key -/

theorem skipTagged_cons (tag : UInt8) {octets : Bytes} {n : ℕ} (h : IsLength octets n)
    (hle : octets.length ≤ 5) (rest : Bytes) :
    skipTagged tag (tag :: (octets ++ rest)) = rest.drop n := by
  rw [skipTagged, if_pos rfl, asn1DecodeLength_append h hle]

/-- What stands in an input behind as many bytes as the AlgorithmIdentifier declares. -/
def declaredEnd : Packet Unit :=
  (expect 0x30).bind fun _ ↦ asn1DecodeLength.bind fun _ ↦
  (expect 0x02).bind fun _ ↦ asn1DecodeLength.bind fun len ↦ (getBytes len).bind fun _ ↦
  (expect 0x30).bind fun _ ↦ asn1DecodeLength.bind fun algIdLen bs ↦ some ((), bs.drop algIdLen)

/-- The seed in an OCTET STRING of the seed-and-private-key layout. -/
def seedBlock : Packet Bytes :=
  (expect 0x04).bind fun _ ↦ asn1DecodeLength.bind fun len bs ↦
    if skLenFromSeedPrivInnerLen len > 0 ∧ len ≤ bs.length then readSeedAhead bs else none

/-- The seed in the OCTET STRING that stands there, if there is one. -/
def declaredSeed (der : Bytes) : Option Bytes :=
  ((declaredEnd.bind fun _ ↦ seedBlock) der).map fun r ↦ r.1

/-- The input has the seed-and-private-key layout. -/
structure SeedPrivInput (v : Variant) (der seed sk : Bytes) : Prop where
  layout : ∃ s rest tail, readPki der = some (s, rest) ∧ s.octets.length = 42 + v.params.skLen ∧
    readSeedPriv v.params.skLen s.octets = some ((seed, sk), tail)

section

variable {v : Variant} {der seed sk : Bytes}

/-- The second reader looks for the seed where the first one has skipped it. -/
theorem readSeedAhead_append {skLen : ℕ} {octets tail : Bytes}
    (h : readSeedPriv skLen octets = some ((seed, sk), tail)) (rest : Bytes) :
    ∃ tail', readSeedAhead (octets ++ rest) = some (seed, tail') := by
  obtain ⟨inner, n, skOctLen, rfl, hinner, hinner5, hseedLen, -, -, -⟩ := readSeedPriv_eq_some.mp h
  simp only [readSeedAhead, bind_eq_some, expect_eq_some, asn1DecodeLength_eq_some,
    getBytes_eq_some, List.cons_append, List.append_assoc]
  exact ⟨_, (), _, rfl, n, _, ⟨inner, hinner, hinner5, rfl⟩, (), _, rfl, (), _, rfl, hseedLen, rfl⟩

/-- The second reader finds a seed in the OCTET STRING to which the declared length of the
AlgorithmIdentifier leads. -/
theorem findSeed_of_layout {s : Pki} {outer versionLen version alg octetsLen rest : Bytes}
    (hlay : s.Layout outer versionLen version alg octetsLen rest der) :
    findSeed der = (seedBlock ((0x06 :: 0x09 :: (s.oid ++ 0x04 :: (octetsLen ++
      (s.octets ++ rest)))).drop s.algIdLen)).map fun r ↦ r.1 := by
  obtain ⟨n, houter⟩ := hlay.outer_isLength
  rw [findSeed, hlay.der_eq, expect_bind,
    bind_of_eq_some _ (asn1DecodeLength_append houter hlay.outer_le _),
    skipTagged_cons _ hlay.version_isLength hlay.version_le, List.drop_left,
    skipTagged_cons _ hlay.alg_isLength hlay.alg_le]
  rfl

theorem findSeed_eq {s : Pki} {rest : Bytes} (h : readPki der = some (s, rest)) :
    findSeed der = declaredSeed der := by
  obtain ⟨outer, versionLen, version, alg, octetsLen, hlay⟩ := Pki.Layout.of_readPki h
  obtain ⟨n, houter⟩ := hlay.outer_isLength
  have hend : declaredEnd der = some ((), (0x06 :: 0x09 :: (s.oid ++ 0x04 :: (octetsLen ++
      (s.octets ++ rest)))).drop s.algIdLen) := by
    rw [hlay.der_eq, declaredEnd, expect_bind,
      bind_of_eq_some _ (asn1DecodeLength_append houter hlay.outer_le _), expect_bind,
      bind_of_eq_some _ (asn1DecodeLength_append hlay.version_isLength hlay.version_le _),
      getBytes_bind _ rfl, expect_bind,
      bind_of_eq_some _ (asn1DecodeLength_append hlay.alg_isLength hlay.alg_le _)]
  rw [declaredSeed, bind_of_eq_some _ hend, findSeed_of_layout hlay]

theorem SeedPrivInput.length_sk (h : SeedPrivInput v der seed sk) : sk.length = v.params.skLen := by
  obtain ⟨s, rest, tail, -, -, hseed⟩ := h.layout
  obtain ⟨-, -, -, -, -, -, -, -, -, hsk⟩ := readSeedPriv_eq_some.mp hseed
  exact hsk

/-- The public key is regenerated from the seed that the second reader finds. -/
theorem importPrivateKeyDerFormat_of_seed {privCap : ℕ}
    (himport : importPrivateKeyDer der privCap = .ok sk) (hsk : sk.length = v.params.skLen)
    (hseed : findSeed der = some seed)
    (engine : Variant → Bytes → Except Failure Bytes) (pubCap : ℕ) :
    importPrivateKeyDerFormat engine der privCap pubCap =
      if pubCap < v.params.pkLen then .error (.bufferTooSmall v.params.pkLen)
      else (engine v seed).map fun pk ↦ (sk, pk) := by
  have hpair : variantOfPair v.params.skLen = none := by cases v <;> decide
  simp only [importPrivateKeyDerFormat, himport, Except.bind, hsk, hpair, variantOfSk_skLen, hseed]

/-- A private key with a public key behind it is cut in two. -/
theorem importPrivateKeyDerFormat_of_pair {key : Bytes} {privCap : ℕ}
    (himport : importPrivateKeyDer der privCap = .ok key)
    (hkey : key.length = v.params.skLen + v.params.pkLen)
    (engine : Variant → Bytes → Except Failure Bytes) :
    importPrivateKeyDerFormat engine der privCap v.params.pkLen =
      .ok (key.take v.params.skLen, key.drop v.params.skLen) := by
  have hpair : variantOfPair (v.params.skLen + v.params.pkLen) = some v := by cases v <;> decide
  simp only [importPrivateKeyDerFormat, himport, Except.bind, hkey, hpair, lt_irrefl, if_false]

/-! ## Keys that belong together -/

/-- The matrix seeds of both keys are the same, and the private key has the hash of the public
key. -/
def KeysMatch (S : Sampling v) (sk pk : Bytes) : Prop :=
  pk.take 32 = sk.take 32 ∧ (sk.drop 64).take 64 = S.xof pk 64

end

section

variable (S : (v : Variant) → Sampling v) (der : Bytes)

/-- Whatever the engine returns for a seed, as long as it is right: the keys returned for an input
match, and for the seed-and-private-key layout the seed used is the one beside the private key,
which is generated from it. -/
def PairMatches : Prop :=
  ∀ engine : Variant → Bytes → Except Failure Bytes,
    (∀ v seed pk, engine v seed = .ok pk → pk = (Fips204.keyGen (S v) seed).1.encode) →
    ∀ privCap pubCap sk pk, importPrivateKeyDerFormat engine der privCap pubCap = .ok (sk, pk) →
      pk ≠ [] →
      (∃ v : Variant, sk.length = v.params.skLen ∧ KeysMatch (S v) sk pk) ∧
      ∀ v seed sk', SeedPrivInput v der seed sk' →
        findSeed der = some seed ∧ sk = (Fips204.keyGen (S v) seed).2.encode

/-- The parts of an input match: a private key and the public key behind it, or a private key and
the seed at the declared end of the AlgorithmIdentifier. In the seed-and-private-key layout this is
the seed beside the private key, which is generated from it. -/
def PartsMatch : Prop :=
  ∀ s rest key, readPki der = some (s, rest) → readOctets s.octets = some key →
    (∀ v : Variant, key.length = v.params.skLen + v.params.pkLen →
      KeysMatch (S v) (key.take v.params.skLen) (key.drop v.params.skLen)) ∧
    ∀ v : Variant, key.length = v.params.skLen → ∀ seed', declaredSeed der = some seed' →
      KeysMatch (S v) key (Fips204.keyGen (S v) seed').1.encode ∧
      ∀ seed sk tail, s.octets.length = 42 + v.params.skLen →
        readSeedPriv v.params.skLen s.octets = some ((seed, sk), tail) →
        seed' = seed ∧ key = (Fips204.keyGen (S v) seed).2.encode

variable {S der}

theorem variant_eq_of_skLen {v w : Variant} (h : v.params.skLen = w.params.skLen) : v = w := by
  have := variantOfSk_skLen v
  rw [h, variantOfSk_skLen] at this
  exact (Option.some.inj this).symm

theorem PairMatches.parts (h : PairMatches S der) : PartsMatch S der := by
  intro s rest key hpki hoctets
  have himport : importPrivateKeyDer der key.length = .ok key :=
    importPrivateKeyDer_eq_ok.mpr ⟨s, rest, hpki, hoctets, le_rfl⟩
  constructor
  · intro v hkey
    have hne : key.drop v.params.skLen ≠ [] := by
      rw [Ne, List.drop_eq_nil_iff, hkey]
      cases v <;> decide
    obtain ⟨⟨w, hw, hmatch⟩, -⟩ := h (fun _ _ ↦ .error .engine) nofun _ _ _ _
      (importPrivateKeyDerFormat_of_pair himport hkey _) hne
    rw [List.length_take_of_le (by omega)] at hw
    obtain rfl := variant_eq_of_skLen hw
    exact hmatch
  · intro v hkey seed' hseed'
    have hformat := importPrivateKeyDerFormat_of_seed himport hkey
      ((findSeed_eq hpki).trans hseed') (fun v seed ↦ .ok (Fips204.keyGen (S v) seed).1.encode)
      v.params.pkLen
    rw [if_neg (lt_irrefl _)] at hformat
    have hne : (Fips204.keyGen (S v) seed').1.encode ≠ [] := by
      rw [← List.length_pos_iff, Fips204.PublicKey.length_encode]
      cases v <;> decide
    obtain ⟨⟨w, hw, hmatch⟩, hbeside⟩ := h _ (fun v seed pk h ↦ (Except.ok.inj h).symm) _ _ _ _
      hformat hne
    obtain rfl := variant_eq_of_skLen (hkey.symm.trans hw)
    refine ⟨hmatch, fun seed sk tail hlen hread ↦ ?_⟩
    obtain ⟨hfind, hsk⟩ := hbeside v seed sk ⟨s, rest, tail, hpki, hlen, hread⟩
    exact ⟨Option.some.inj (hseed'.symm.trans ((findSeed_eq hpki).symm.trans hfind)), hsk⟩

theorem PartsMatch.pair (h : PartsMatch S der) : PairMatches S der := by
  intro engine hengine privCap pubCap sk pk hformat hne
  rw [importPrivateKeyDerFormat] at hformat
  cases himport : importPrivateKeyDer der privCap with
  | error e =>
    rw [himport] at hformat
    cases hformat
  | ok key =>
    obtain ⟨s, rest, hpki, hoctets, -⟩ := importPrivateKeyDer_eq_ok.mp himport
    obtain ⟨hpair, hseeds⟩ := h s rest key hpki hoctets
    have hlayout {v : Variant} {seed sk' : Bytes} (hin : SeedPrivInput v der seed sk') :
        ∃ tail, s.octets.length = 42 + v.params.skLen ∧ key.length = v.params.skLen ∧
          readSeedPriv v.params.skLen s.octets = some ((seed, sk'), tail) := by
      obtain ⟨s', rest', tail, hpki', hlen, hread⟩ := id hin.layout
      cases hpki.symm.trans hpki'
      cases hoctets.symm.trans (readOctets_seedPriv hlen hread)
      exact ⟨tail, hlen, hin.length_sk, hread⟩
    rw [himport] at hformat
    dsimp only [Except.bind] at hformat
    cases hv : variantOfPair key.length with
    | some v =>
      have hkey : key.length = v.params.skLen + v.params.pkLen := by
        simpa using List.find?_some hv
      rw [hv] at hformat
      dsimp only at hformat
      split_ifs at hformat
      cases hformat
      refine ⟨⟨v, List.length_take_of_le (by omega), hpair v hkey⟩, fun w seed sk' hin ↦ ?_⟩
      obtain ⟨-, -, hw, -⟩ := hlayout hin
      rw [hw] at hv
      cases w <;> cases hv
    | none =>
      rw [hv] at hformat
      dsimp only at hformat
      cases hv' : variantOfSk key.length with
      | none =>
        rw [hv'] at hformat
        cases hformat
        exact absurd rfl hne
      | some v =>
        have hkey : key.length = v.params.skLen := by simpa using List.find?_some hv'
        rw [hv', findSeed_eq hpki] at hformat
        dsimp only at hformat
        cases hseed : declaredSeed der with
        | none =>
          rw [hseed] at hformat
          cases hformat
          exact absurd rfl hne
        | some seed' =>
          rw [hseed] at hformat
          dsimp only at hformat
          split_ifs at hformat
          cases hpk : engine v seed' with
          | error e =>
            rw [hpk] at hformat
            cases hformat
          | ok pk' =>
            rw [hpk] at hformat
            cases hformat
            obtain ⟨hmatch, hbeside⟩ := hseeds v hkey seed' hseed
            refine ⟨⟨v, hkey, hengine v seed' pk hpk ▸ hmatch⟩, fun w seed sk' hin ↦ ?_⟩
            obtain ⟨tail, hlen, hw, hread⟩ := hlayout hin
            obtain rfl := variant_eq_of_skLen (hkey.symm.trans hw)
            obtain ⟨rfl, hsk⟩ := hbeside seed sk' tail hlen hread
            exact ⟨(findSeed_eq hpki).trans hseed, hsk⟩

end

end Interop
