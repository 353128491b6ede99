import QudoPqc.MlDsa.KeyHistory

/-!
# Delegated and upstream key generation

`keygen_internal` computes the vectors of a key and encodes them; `qudo_keygen` receives the two
encodings from the engine and decodes them. Both fill in the same key object: the one of the key
pair that KeyGen_internal of FIPS 204 makes of the seed. They also treat the seed alike, on every
path.
-/

namespace MlDsa

open Codec Fallible Fallible.Act Fips204
open Fallible.Traced (run_bind run_cleanup run_emit run_fetch run_ofOption run_onFailure run_pure
  run_require run_update)

namespace Ossl

variable {v : Variant} (S : Sampling v) {ok : Call → Bool} {key : Key v} {seed : Seed}

/-! ## The key pair -/

/-- The key object that key generation makes of a seed. -/
def Key.generated (key : Key v) (seed : Seed) : Key v :=
  (key.filled (keyGen S seed.1).1 (keyGen S seed.1).2).dropSeed key.retainSeed

/-- OpenSSL's key generation computes KeyGen_internal. -/
theorem keygenInternal_of_seed (hok : ∀ c, ok c = true) (hseed : key.seed = some seed)
    (ht1 : key.t1 = none) (hpriv : key.priv = none) :
    (keygenInternal S ok).run key = (some (), key.generated S seed) := by
  rw [keygenInternal, run_bind, run_fetch, fetch_bind, run_cleanup, run_dropSeed, cleanup_eq_some]
  refine ⟨_, ?_, rfl⟩
  simp only [run_bind, run_ofOption, run_require, run_emit, run_update, Act.pure_bind, hseed,
    ofOption_bind_eq_some, Option.some.injEq, exists_eq_left', require_bind_eq_some, hok, true_and]
  refine (yields_keyPubAlloc ok _).bind_iff.mpr ⟨⟨ht1, hok _⟩, ?_⟩
  refine (yields_keyPrivAlloc ok _).bind_iff.mpr ⟨⟨hpriv, hok _⟩, ?_⟩
  simp only [require_bind_eq_some, true_and, update_bind, Option.map_some]
  refine (yields_publicFromPrivate S ok _ rfl rfl rfl).bind_iff.mpr ⟨⟨hok _, hok _⟩, ?_⟩
  simp only [update_bind, Option.map_some]
  refine (yields_pkEncode ok _ (keyGen S seed.1).1 rfl rfl).bind_iff.mpr ⟨hok _, ?_⟩
  refine (yields_hashPublic S ok _ rfl).bind_iff.mpr ⟨hok _, ?_⟩
  exact (yields_skEncode ok _ (keyGen S seed.1).2 rfl rfl rfl rfl _ _).mpr ⟨hok _, rfl, rfl⟩

/-! ## The seed -/

/-- The seed after key generation. -/
theorem Key.seed_dropSeed (retain : Bool) (key : Key v) :
    (key.dropSeed retain).seed = if retain then key.seed else none := by
  rw [Key.dropSeed]
  cases retain with
  | true => rw [Bool.not_true, Bool.and_false, if_neg Bool.false_ne_true, if_pos rfl]
  | false =>
    rw [Bool.not_false, Bool.and_true, if_neg Bool.false_ne_true]
    split
    next => rfl
    next h => exact Option.not_isSome_iff_eq_none.mp h

variable (ok) in
theorem keeps_seed_keypairDecode (pk sk : Bytes) :
    Keeps Key.seed (keypairDecode S ok pk sk).run := by
  rw [keypairDecode]
  simp only [run_bind, run_fetch, run_require, run_onFailure, run_update, run_ofOption,
    run_resetKeepingSeed]
  refine .fetch_bind fun _ ↦ .require_bind <| .require_bind <|
    (keeps_keyPubAlloc ok fun _ _ ↦ rfl).bind fun _ ↦
    (keeps_keyPrivAlloc ok fun _ _ ↦ rfl).bind fun _ ↦ .onFailure ?_ fun _ ↦ rfl
  exact (keeps_decodePrivate (fun _ _ _ _ ↦ rfl) _ _).bind fun _ ↦ .ofOption_bind fun _ ↦
    .fetch_bind fun _ ↦ .require_bind <| .ofOption_bind fun _ ↦
    .update_bind (fun _ ↦ rfl) <| .require_bind <| .require_bind <| .require_bind <|
    .update_bind (fun _ ↦ rfl) <| .require_bind <| .require_bind <| .update_bind (fun _ ↦ rfl) <|
    .require_bind <| .update fun _ ↦ rfl

/-- What both key generations do with the seed of a key, whether they succeed or fail: it stays if
it is to be retained; otherwise the key has none, and the last buffer released is that of the seed,
cleared. -/
def SettlesSeed (keygen : Proc v Unit) : Prop :=
  ∀ key seed, key.seed = some seed →
    (keygen.run key).2.seed = (if key.retainSeed then some seed else none) ∧
    (key.retainSeed = false → [Released.bytes .seed (cleanse seed.1)] <:+ keygen.events key)

theorem events_dropSeed (hseed : key.seed = some seed) :
    (dropSeed false).events key = [.bytes .seed (cleanse seed.1)] := by
  rcases key with ⟨rho, tr, K, pub, enc, seed', flags, t1, priv⟩
  obtain rfl : seed' = some seed := hseed
  rfl

theorem SettlesSeed.of_keeps {body : Key v → Proc v Unit}
    (hbody : ∀ out, Keeps Key.seed (body out).run) :
    SettlesSeed (Traced.fetch >>= fun out ↦
      Traced.cleanup (body out) (dropSeed out.retainSeed)) := by
  intro key seed hseed
  have hafter : ((body key).run key).2.seed = some seed := (hbody key key).trans hseed
  constructor
  · rw [run_bind, run_fetch, fetch_bind, run_cleanup, run_dropSeed, ← hafter]
    exact Key.seed_dropSeed _ _
  · intro hretain
    have hdrop := events_dropSeed hafter
    rw [← hretain] at hdrop
    exact ⟨(body key).events key, hdrop ▸ rfl⟩

/-- Delegated key generation settles the seed. -/
theorem settlesSeed_qudoKeygen (ok : Call → Bool) (engine : Engine) :
    SettlesSeed (qudoKeygen S ok engine) := by
  refine SettlesSeed.of_keeps fun _ ↦ ?_
  simp only [run_bind, run_ofOption, run_require, run_emit, run_clearFree, Act.pure_bind]
  exact .ofOption_bind fun _ ↦ .require_bind <|
    .require_bind <| .require_bind <| .ofOption_bind fun _ ↦ keeps_seed_keypairDecode S ok _ _

/-- So does OpenSSL's. -/
theorem settlesSeed_keygenInternal (ok : Call → Bool) : SettlesSeed (keygenInternal S ok) := by
  refine SettlesSeed.of_keeps fun _ ↦ ?_
  simp only [publicFromPrivate, pkEncode, hashPublic, skEncode, run_bind, run_fetch, run_ofOption,
    run_require, run_emit, run_update, run_onFailure, run_pure, run_clearFree, Act.pure_bind]
  refine .ofOption_bind fun _ ↦ .require_bind <| (keeps_keyPubAlloc ok fun _ _ ↦ rfl).bind fun _ ↦
    (keeps_keyPrivAlloc ok fun _ _ ↦ rfl).bind fun _ ↦ .require_bind <|
    .update_bind (fun _ ↦ rfl) <| .require_bind <| .update_bind (fun _ ↦ rfl) <| .bind ?_ fun _ ↦
    .update_bind (fun _ ↦ rfl) <| .bind ?_ fun _ ↦ .bind ?_ fun _ ↦ ?_
  · exact .require_bind <| .require_bind <| .fetch_bind fun _ ↦ .ofOption_bind fun _ ↦ .pure _
  · exact .require_bind <| .fetch_bind fun _ ↦ .ofOption_bind fun _ ↦
      .require_bind <| .update fun _ ↦ rfl
  · exact .require_bind <| .fetch_bind fun _ ↦ .ofOption_bind fun _ ↦ .update fun _ ↦ rfl
  · exact .require_bind <| .fetch_bind fun _ ↦ .ofOption_bind fun _ ↦
      .bind (.onFailure (.require _) fun _ ↦ rfl) fun _ ↦ .update fun _ ↦ rfl

/-! ## Generation with a prekey -/

/-- A key generation that makes the key pair of the seed succeeds, on a key with a private encoding
set before, exactly if that is the encoding it makes. -/
theorem generateKey_prekey_iff {keygen : Proc v Unit} {random : Option Seed}
    {sk : Bytes} (hseed : key.seed = some seed) (hprekey : key.privEncoding = some sk)
    (hlen : sk.length = v.params.skLen)
    (hkeygen : keygen.run { key with privEncoding := none } =
      (some (), { key with privEncoding := none }.generated S seed)) :
    ((generateKey ok keygen random).run key).1 = some () ↔
      sk = (keyGen S seed.1).2.encode := by
  rcases key with ⟨rho, tr, K, pub, prekey, seed', flags, t1, priv⟩
  obtain rfl : seed' = some seed := hseed
  obtain rfl : prekey = some sk := hprekey
  have hmade (key : Key v) :
      (key.generated S seed).privEncoding = some (keyGen S seed.1).2.encode := by
    rw [Key.generated, Key.privEncoding_dropSeed]
    rfl
  have hcompare : (keyGen S seed.1).2.encode.take v.params.skLen = sk.take v.params.skLen ↔
      sk = (keyGen S seed.1).2.encode := by
    rw [List.take_of_length_le (SecretKey.length_encode _).le,
      List.take_of_length_le hlen.le, eq_comm]
  constructor
  · intro h
    obtain ⟨seed', hseed, hrun, hmatch⟩ := (generateKey_eq_some ok _).mp (Prod.ext h rfl)
    obtain rfl : seed = seed' := by
      rcases hseed with hseed | ⟨hseed, -⟩
      · exact Option.some.inj hseed
      · exact nomatch hseed
    obtain ⟨enc, henc, htake⟩ := hmatch sk rfl
    rw [← (Prod.mk.inj (hkeygen.symm.trans hrun)).2, hmade] at henc
    cases henc
    exact hcompare.mp htake
  · intro h
    refine congrArg Prod.fst ((generateKey_eq_some ok _).mpr ⟨seed, .inl rfl, hkeygen, ?_⟩)
    rintro _ ⟨⟩
    exact ⟨_, hmade _, hcompare.mpr h⟩

/-- Delegated key generation refines OpenSSL's. On a key with a seed and nothing else, with an
engine that returns the encodings of KeyGen_internal, both make the same key object. On every path
both settle the seed alike. A prekey is accepted exactly if it is what the seed generates. -/
theorem delegated_keygen_refines :
    (∀ (ok : Call → Bool) (engine : Engine) (key : Key v) (seed : Seed),
      (∀ c, ok c = true) → key.seed = some seed → key.encodings = (none, none) → key.t1 = none →
      key.priv = none → engine seed =
        some ((keyGen S seed.1).1.encode, (keyGen S seed.1).2.encode) →
      ∀ keygen ∈ [qudoKeygen S ok engine, keygenInternal S ok],
        keygen.run key = (some (), key.generated S seed)) ∧
    (∀ (ok : Call → Bool) (engine : Engine),
      ∀ keygen ∈ [qudoKeygen S ok engine, keygenInternal S ok], SettlesSeed keygen) ∧
    ∀ (ok : Call → Bool) (engine : Engine) (random : Option Seed) (key : Key v) (seed : Seed)
      (sk : Bytes), (∀ c, ok c = true) → key.seed = some seed →
      key.encodings = (none, some sk) → sk.length = v.params.skLen → key.t1 = none →
      key.priv = none → engine seed =
        some ((keyGen S seed.1).1.encode, (keyGen S seed.1).2.encode) →
      ∀ keygen ∈ [qudoKeygen S ok engine, keygenInternal S ok],
        (((generateKey ok keygen random).run key).1 = some () ↔
          sk = (keyGen S seed.1).2.encode) := by
  have hboth {ok : Call → Bool} {engine : Engine} {P : Proc v Unit → Prop}
      (hq : P (qudoKeygen S ok engine)) (hi : P (keygenInternal S ok)) :
      ∀ keygen ∈ [qudoKeygen S ok engine, keygenInternal S ok], P keygen :=
    List.forall_mem_cons.mpr ⟨hq, List.forall_mem_singleton.mpr hi⟩
  refine ⟨fun ok engine key seed hok hseed henc ht1 hpriv hengine ↦ ?_, fun ok engine ↦ ?_,
    fun ok engine random key seed sk hok hseed henc hlen ht1 hpriv hengine ↦ ?_⟩
  · exact hboth (qudoKeygen_of_seed S hok key hseed henc ht1 hpriv hengine)
      (keygenInternal_of_seed S hok hseed ht1 hpriv)
  · exact hboth (settlesSeed_qudoKeygen S ok engine) (settlesSeed_keygenInternal S ok)
  · obtain ⟨hpub, hprekey⟩ := Prod.mk.inj henc
    refine hboth (generateKey_prekey_iff S hseed hprekey hlen ?_)
      (generateKey_prekey_iff S hseed hprekey hlen ?_)
    · exact qudoKeygen_of_seed S hok { key with privEncoding := none } hseed
        (Prod.ext hpub rfl) ht1 hpriv hengine
    · exact keygenInternal_of_seed S hok hseed ht1 hpriv

/-- A new key with a seed, and the same with the private key that the seed generates as prekey. -/
theorem delegated_keygen_refines_seeded :
    let S := zeroSampling .mlDsa65
    let seed : Seed := ⟨List.replicate 32 7, rfl⟩
    let key : Key .mlDsa65 := { keyNew with seed := some seed }
    let prekey := (keyGen S seed.1).2.encode
    ∀ keygen ∈ [qudoKeygen S (fun _ ↦ true) (fips204Engine S), keygenInternal S (fun _ ↦ true)],
      keygen.run key = (some (), key.generated S seed) ∧
      ((generateKey (fun _ ↦ true) keygen none).run { key with privEncoding := some prekey }).1 =
        some () := by
  intro S seed key prekey keygen hkeygen
  obtain ⟨hrefines, -, hprekey⟩ := delegated_keygen_refines S
  exact ⟨hrefines _ _ key seed (fun _ ↦ rfl) rfl rfl rfl rfl rfl keygen hkeygen,
    (hprekey _ _ none { key with privEncoding := some prekey } seed prekey (fun _ ↦ rfl) rfl rfl
      (SecretKey.length_encode _) rfl rfl rfl keygen hkeygen).mpr rfl⟩

end Ossl

end MlDsa
