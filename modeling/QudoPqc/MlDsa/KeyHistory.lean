import QudoPqc.Fallible.History
import QudoPqc.MlDsa.KeyCodec

/-!
# The life of an ML-DSA key

A key object is created by `ossl_ml_dsa_key_new` and then passed to prekey import, the decoders,
delegated key generation, duplication and reset, in any order, with any input, and with any
allocation failing. Of the engine it is asked that its keys are those of FIPS 204 (`Generates`).

## The invariant

An object without a public encoding may be in any state: a decoder that breaks off leaves vectors
behind. But a public encoding is written last, after everything it belongs to. So an object is
unloaded, or it is that of a public key, or that of a key pair (`Key.Sound`); in the last case the
private key repeats its public data correctly, and the seed, if it is still there, generates the
pair. Key generation on an object that has a public encoding takes the private encoding away and
fails.
-/

namespace MlDsa

open Codec Fallible Fallible.Act Fips204
open Fallible.Traced (run_apart run_bind run_cleanup run_emit run_fetch run_forSome run_ite
  run_ofOption run_onFailure run_pure run_require run_update)

namespace Ossl

variable {v : Variant}

/-! ## Operations -/

/-- `QUDO_MLDSA_keypair_internal`: the two encodings for a seed, unless it fails. -/
abbrev Engine : Type := Seed → Option (Bytes × Bytes)

/-- What the engine returns are the encodings of KeyGen_internal. -/
def Engine.Correct (S : Sampling v) (engine : Engine) : Prop :=
  ∀ seed pair, engine seed = some pair →
    pair = ((keyGen S seed.1).1.encode, (keyGen S seed.1).2.encode)

/-- An operation on a key object. After `keyDup` one goes on with the copy or with the original;
the other one is released. -/
inductive Op
  | setPrekey (flagsSet flagsClr : UInt32) (seed sk : Option Bytes)
  | pkDecode (input : Bytes)
  | skDecode (src : Source)
  | generateKey (engine : Engine) (random : Option Seed)
  | keyDup (selection : UInt32) (onCopy : Bool)
  | keyReset

/-- A call of an operation: which of the calls it makes itself succeed. -/
structure Invocation where
  op : Op
  ok : Call → Bool

/-- The operation of an invocation. -/
def perform (S : Sampling v) (i : Invocation) : Proc v Unit :=
  match i.op with
  | .setPrekey flagsSet flagsClr seed sk => setPrekey i.ok flagsSet flagsClr seed sk
  | .pkDecode input => pkDecode S i.ok input
  | .skDecode src => skDecode S i.ok src
  | .generateKey engine random => generateKey i.ok (qudoKeygen S i.ok engine) random
  | .keyDup selection onCopy => do
    let copy ← keyDup i.ok selection
    if onCopy then do
      keyFree
      .update fun _ ↦ copy
    else do
      let _ ← .apart keyFree copy
      pure ()
  | .keyReset => keyReset

/-! ## The invariant -/

/-- No public encoding, and a private encoding of the right length if there is one. -/
structure Key.Unloaded (key : Key v) : Prop where
  pub : key.pubEncoding = none
  length_priv : ∀ enc, key.privEncoding = some enc → enc.length = v.params.skLen

/-- The three kinds of key object. -/
inductive Key.Sound (S : Sampling v) (key : Key v) : Prop
  | unloaded (h : key.Unloaded)
  | publicOnly (pk : PublicKey v) (hpriv : key.privEncoding = none)
      (h : key = key.filledPublic S pk)
  | pair (sk : SecretKey v) (hsk : sk.Consistent S)
      (h : key = key.filled (sk.publicKey S) sk)
      (hseed : ∀ seed, key.seed = some seed → keyGen S seed.1 = (sk.publicKey S, sk))

theorem unloaded_keyNew : (keyNew : Key v).Unloaded where
  pub := rfl
  length_priv := nofun

theorem Key.unloaded_reset (key : Key v) : key.reset.Unloaded where
  pub := rfl
  length_priv := nofun

/-- The encodings, on which alone it depends whether an object is unloaded. -/
def Key.encodings (key : Key v) : Option Bytes × Option Bytes :=
  (key.pubEncoding, key.privEncoding)

theorem Key.Unloaded.of_encodings {key key' : Key v} (h : key'.encodings = key.encodings)
    (hkey : key.Unloaded) : key'.Unloaded := by
  obtain ⟨hpub, hpriv⟩ := Prod.mk.inj h
  refine ⟨by rw [hpub, hkey.pub], fun enc henc ↦ hkey.length_priv enc ?_⟩
  rw [← hpriv, henc]

section Failures

variable (S : Sampling v) (ok : Call → Bool)

section Keeps

variable {τ : Type} {f : Key v → τ}

theorem keeps_keyPubAlloc (h : ∀ key t1, f { key with t1 := t1 } = f key) :
    Keeps f (keyPubAlloc ok).run := by
  simp only [keyPubAlloc, run_bind, run_fetch, run_require, run_update]
  exact .fetch_bind fun _ ↦ .require_bind <| .require_bind <| .update fun key ↦ h key _

theorem keeps_keyPrivAlloc (h : ∀ key p, f { key with priv := p } = f key) :
    Keeps f (keyPrivAlloc ok).run := by
  simp only [keyPrivAlloc, run_bind, run_fetch, run_require, run_update]
  exact .fetch_bind fun _ ↦ .require_bind <| .require_bind <| .update fun key ↦ h key _

theorem keeps_decodePrivate
    (h : ∀ key rho K p, f { key with rho := rho, K := K, priv := p } = f key)
    (atReturn : Bytes → Bytes) (sk : Bytes) :
    Keeps f (decodePrivate atReturn sk).run := by
  simp only [decodePrivate, run_bind, run_ofOption, run_update, run_emit, run_require, run_pure,
    Act.pure_bind]
  exact .ofOption_bind fun _ ↦ .update_bind (fun key ↦ h key _ _ _) <|
    .ofOption_bind fun _ ↦ .update_bind (fun key ↦ h key _ _ _) <|
    .ofOption_bind fun _ ↦ .ofOption_bind fun _ ↦
    .update_bind (fun key ↦ h key _ _ _) <| .ofOption_bind fun _ ↦
    .update_bind (fun key ↦ h key _ _ _) <| .ofOption_bind fun _ ↦
    .update_bind (fun key ↦ h key _ _ _) <| .require_bind <| .pure _

end Keeps

/-- What leaves the encodings alone leaves an unloaded object unloaded. -/
theorem triple_unloaded {α : Type} {x : Act (Key v) α} (h : Keeps Key.encodings x) :
    Triple Key.Unloaded x (fun _ ↦ Key.Unloaded) Key.Unloaded :=
  Triple.of_keeps h fun _ _ hkeep hkey ↦ hkey.of_encodings hkeep

theorem pkDecode_failed (input : Bytes) :
    Triple Key.Unloaded (pkDecode S ok input).run (fun _ _ ↦ True) Key.Unloaded := by
  simp only [pkDecode, run_bind, run_fetch, run_ofOption, run_update, run_require]
  exact .fetch_bind_any fun _ ↦ .require_keep fun _ ↦ .require_keep fun _ ↦
    .bind (triple_unloaded (keeps_keyPubAlloc ok fun _ _ ↦ rfl)) fun _ ↦ .require_keep fun _ ↦
    .ofOption_keep fun _ _ ↦ .update_keep (fun _ h ↦ ⟨h.pub, h.length_priv⟩) <|
    .ofOption_keep fun _ _ ↦ .update_keep (fun _ h ↦ ⟨h.pub, h.length_priv⟩) <|
    .require_keep fun _ ↦ .update_keep (fun _ h ↦ ⟨h.pub, h.length_priv⟩) <|
    .require_keep fun _ ↦ .update fun _ _ ↦ trivial

theorem keypairDecode_failed (pk sk : Bytes) :
    Triple Key.Unloaded (keypairDecode S ok pk sk).run (fun _ _ ↦ True) Key.Unloaded := by
  rw [keypairDecode]
  simp only [run_bind, run_fetch, run_require, run_onFailure]
  refine .fetch_bind_any fun _ ↦ .require_keep fun _ ↦ .require_keep fun _ ↦
    .bind (triple_unloaded (keeps_keyPubAlloc ok fun _ _ ↦ rfl)) fun _ ↦
    .bind (triple_unloaded (keeps_keyPrivAlloc ok fun _ _ ↦ rfl)) fun _ ↦
      .onFailure (.any _) fun key _ ↦ ?_
  exact ⟨rfl, key.unloaded_reset.length_priv⟩

theorem skDecode_failed (src : Source) :
    Triple Key.Unloaded (skDecode S ok src).run (fun _ _ ↦ True) Key.Unloaded := by
  simp only [skDecode, run_bind, run_fetch, run_update, run_require, run_onFailure, run_clearFree,
    Act.pure_bind, run_keyReset]
  refine .fetch_bind_any fun key ↦ .update_keep (fun _ h ↦ ⟨h.pub, h.length_priv⟩) <|
    .require_keep fun _ ↦ .require_keep fun hlen ↦
    .bind (triple_unloaded (keeps_keyPrivAlloc ok fun _ _ ↦ rfl)) fun _ ↦
    .bind (triple_unloaded (keeps_decodePrivate (fun _ _ _ _ ↦ rfl) _ _)) fun _ ↦
    .require_keep fun _ ↦ .update_keep (fun key₁ h ↦ ?_) <| .onFailure (.any _) fun key₁ _ ↦
      key₁.unloaded_reset
  refine ⟨h.pub, fun enc henc ↦ ?_⟩
  rw [← Option.some.inj henc]
  exact beq_iff_eq.mp hlen

theorem setPrekey_keeps_unloaded (flagsSet flagsClr : UInt32) (seed sk : Option Bytes) :
    Triple Key.Unloaded (setPrekey ok flagsSet flagsClr seed sk).run
      (fun _ ↦ Key.Unloaded (v := v)) Key.Unloaded := by
  rw [setPrekey]
  simp only [run_bind, run_fetch, run_require, run_onFailure, run_update, run_clearFree,
    Act.pure_bind]
  refine .fetch_bind_any fun key ↦ .require_keep fun hcheck ↦ .onFailure ?_
    fun key₁ (h : key₁.pubEncoding = none) ↦ ⟨h, nofun⟩
  have hsk : ∀ enc, sk = some enc → enc.length = v.params.skLen := by
    rintro enc rfl
    simp only [Bool.and_eq_true] at hcheck
    exact beq_iff_eq.mp hcheck.1.1.2
  exact .require_bind (fun _ _ h ↦ h.pub) fun _ ↦ .update_keep (fun _ h ↦ ⟨h.pub, hsk⟩) <|
    .require_bind (fun _ _ h ↦ h.pub) fun _ ↦ .update_keep (fun _ h ↦ ⟨h.pub, h.length_priv⟩) <|
    .update fun _ h ↦ ⟨h.pub, h.length_priv⟩

theorem Key.encodings_dropSeed (retain : Bool) (key : Key v) :
    (key.dropSeed retain).encodings = key.encodings := by
  rw [Key.dropSeed]
  split <;> rfl

theorem Key.pubEncoding_dropSeed (retain : Bool) (key : Key v) :
    (key.dropSeed retain).pubEncoding = key.pubEncoding :=
  (Prod.mk.inj (key.encodings_dropSeed retain)).1

theorem Key.privEncoding_dropSeed (retain : Bool) (key : Key v) :
    (key.dropSeed retain).privEncoding = key.privEncoding :=
  (Prod.mk.inj (key.encodings_dropSeed retain)).2

theorem Key.dropSeed_true (key : Key v) : key.dropSeed true = key := by
  simp [Key.dropSeed]

theorem qudoKeygen_ends (engine : Engine) :
    Triple Key.Unloaded (qudoKeygen S ok engine).run (fun _ key ↦ key.privEncoding.isSome = true)
      Key.Unloaded := by
  refine .of_success (fun key u key' _ h ↦ ?_) ?_
  · obtain ⟨_, -, -, -, -, _, -, r, hr, rfl⟩ := (qudoKeygen_eq_some S ok key).mp h
    obtain ⟨-, -, pk, sk, -, -, -, -, rfl⟩ := (keypairDecode_eq_some S ok key).mp hr
    exact congrArg Option.isSome (Key.privEncoding_dropSeed _ _)
  · simp only [qudoKeygen, run_bind, run_fetch, run_cleanup, run_ofOption, run_require, run_emit,
      run_clearFree, run_dropSeed, Act.pure_bind]
    exact .fetch_bind_any fun out ↦ .cleanup
      (.ofOption_keep fun _ _ ↦ .require_keep fun _ ↦ .require_keep fun _ ↦ .require_keep fun _ ↦
        .ofOption_keep fun _ _ ↦ keypairDecode_failed S ok _ _)
      (fun _ _ _ ↦ trivial) fun key h ↦ h.of_encodings (Key.encodings_dropSeed _ key)

theorem keygenMatching_failed {keygen : Proc v Unit}
    (hkeygen : Triple Key.Unloaded keygen.run (fun _ key ↦ key.privEncoding.isSome = true)
      Key.Unloaded) (prekey : Option Bytes) :
    Triple Key.Unloaded (keygenMatching keygen prekey).run (fun _ _ ↦ True) Key.Unloaded := by
  rw [keygenMatching, run_bind]
  refine .bind hkeygen fun _ ↦ ?_
  cases prekey with
  | none => exact .pure fun _ _ ↦ trivial
  | some sk =>
    simp only [run_forSome, Option.elim_some, run_bind, run_fetch, run_ofOption, run_onFailure,
      run_keyReset]
    refine .fetch_bind fun key₀ ↦ .ofOption_bind (fun hnone key hkey ↦ ?_) fun _ _ ↦
      .onFailure (.any _) fun key _ ↦ key.unloaded_reset
    rw [hkey.1, hnone] at hkey
    cases hkey.2

theorem generateKey_failed {keygen : Proc v Unit}
    (hkeygen : Triple Key.Unloaded keygen.run (fun _ key ↦ key.privEncoding.isSome = true)
      Key.Unloaded) (random : Option Seed) :
    Triple Key.Unloaded (generateKey ok keygen random).run (fun _ _ ↦ True) Key.Unloaded := by
  have hseed : Keeps Key.encodings (ensureSeed ok random : Proc v _).run := by
    simp only [ensureSeed, run_bind, run_fetch, run_ite, run_require, run_ofOption, run_update,
      run_pure]
    refine .fetch_bind fun out ↦ ?_
    split
    · exact .require_bind <| .ofOption_bind fun _ ↦ .update fun _ ↦ rfl
    · exact .pure _
  simp only [generateKey, run_bind, run_fetch, run_update, run_cleanup, run_clearFree]
  exact .fetch_bind_any fun out ↦ .bind (triple_unloaded hseed) fun _ ↦
    .update_keep (fun _ h ↦ ⟨h.pub, by simp⟩) <|
    .cleanup (keygenMatching_failed hkeygen _) (fun _ _ _ ↦ trivial) fun _ h ↦ h

end Failures

/-! ## Refused calls -/

section Refused

variable (S : Sampling v) (ok : Call → Bool) {key : Key v}

theorem setPrekey_refused (hpub : key.pubEncoding.isSome) (flagsSet flagsClr : UInt32)
    (seed sk : Option Bytes) :
    (setPrekey ok flagsSet flagsClr seed sk).run key = (none, key) := by
  obtain ⟨pub, hpub⟩ := Option.isSome_iff_exists.mp hpub
  simp [setPrekey, hpub]

theorem pkDecode_refused (hpub : key.pubEncoding.isSome) (input : Bytes) :
    (pkDecode S ok input).run key = (none, key) := by
  obtain ⟨pub, hpub⟩ := Option.isSome_iff_exists.mp hpub
  simp [pkDecode, hpub]

theorem skDecode_refused (hpub : key.pubEncoding.isSome) (src : Source) :
    (skDecode S ok src).run key = (none, { key with seed := none }) := by
  obtain ⟨pub, hpub⟩ := Option.isSome_iff_exists.mp hpub
  simp [skDecode, hpub]

theorem keypairDecode_refused (hpub : key.pubEncoding.isSome) (pk sk : Bytes) :
    (keypairDecode S ok pk sk).run key = (none, key) := by
  obtain ⟨pub, hpub⟩ := Option.isSome_iff_exists.mp hpub
  simp [keypairDecode, hpub]

/-- The public data of the object are those of its public encoding. -/
def Key.Published (key : Key v) : Prop := ∃ pk, key = key.filledPublic S pk

variable {S} in
theorem Key.Published.isSome (h : key.Published S) : key.pubEncoding.isSome := by
  obtain ⟨pk, h⟩ := h
  rw [h]
  rfl

variable {S} in
/-- The seed and the private encoding are no part of them. -/
theorem Key.Published.with (h : key.Published S) (seed : Option Seed) (priv : Option Bytes) :
    { key with seed := seed, privEncoding := priv }.Published S :=
  h.imp fun _ h ↦ congrArg (fun key ↦ { key with seed := seed, privEncoding := priv }) h

/-- Key generation on such an object fails when it stores the keys, if not before. -/
theorem generateKey_refused (h : key.Published S) (engine : Engine) (random : Option Seed) :
    Triple (· = key) (generateKey ok (qudoKeygen S ok engine) random).run (fun _ _ ↦ False)
      (fun key' ↦ key' = key ∨ key'.privEncoding = none ∧ key'.Published S) := by
  have hseed : Triple (· = key) (ensureSeed ok random).run (fun _ key' ↦ key'.Published S)
      (fun key' ↦ key' = key ∨ key'.privEncoding = none ∧ key'.Published S) := by
    simp only [ensureSeed, run_bind, run_fetch, run_ite, run_require, run_ofOption, run_update,
      run_pure]
    refine .fetch_bind_eq ?_
    split
    · refine .require_bind (fun _ _ ↦ .inl) fun _ ↦ .ofOption_bind (fun _ _ ↦ .inl) fun seed _ ↦
        .update ?_
      rintro _ rfl
      exact h.with _ _
    · exact .pure fun _ heq ↦ heq.symm ▸ h
  have hkeygen : Triple (fun key : Key v ↦ key.privEncoding = none ∧ key.Published S)
      (qudoKeygen S ok engine).run (fun _ _ ↦ False)
      (fun key ↦ key.privEncoding = none ∧ key.Published S) := by
    simp only [qudoKeygen, run_bind, run_fetch, run_cleanup, run_ofOption, run_require, run_emit,
      run_clearFree, run_dropSeed, Act.pure_bind]
    refine .fetch_bind_any fun out ↦ .cleanup (.ofOption_keep fun _ _ ↦ .require_keep fun _ ↦
      .require_keep fun _ ↦ .require_keep fun _ ↦ .ofOption_keep fun _ _ ↦ fun key hkey ↦ ?_)
      (fun _ _ ↦ False.elim) fun key hkey ↦ ?_
    · rw [keypairDecode_refused S ok hkey.2.isSome]
      exact ⟨by simp, fun _ ↦ hkey⟩
    · rw [show (update (Key.dropSeed out.retainSeed) key).2 = key.dropSeed out.retainSeed from rfl,
        Key.dropSeed]
      split
      · exact ⟨hkey.1, hkey.2.with none key.privEncoding⟩
      · exact hkey
  simp only [generateKey, run_bind, run_fetch, run_update, run_cleanup, run_clearFree,
    keygenMatching]
  exact .fetch_bind_eq <| .bind hseed fun _ ↦
    .update_bind (M := fun key ↦ key.privEncoding = none ∧ key.Published S)
      (fun key h ↦ ⟨rfl, h.with _ _⟩) <|
    .cleanup (.bind hkeygen fun _ _ ↦ False.elim) (fun _ _ ↦ id) fun _ ↦ .inr

end Refused

/-! ## One step -/

section Steps

variable {S : Sampling v} {key : Key v}

/-- A key pair with a seed, after key generation. -/
theorem sound_generated (seed : Seed) (retain : Bool) (hseed : key.seed = some seed) :
    ((key.filled (keyGen S seed.1).1 (keyGen S seed.1).2).dropSeed retain).Sound
      S := by
  refine .pair (keyGen S seed.1).2 (keyGen_consistent S seed.1) ?_ ?_
  · rw [Key.dropSeed, keyGen_publicKey]
    split <;> rfl
  · rw [Key.dropSeed]
    split
    · exact nofun
    · intro seed' hseed'
      obtain rfl : seed = seed' := Option.some.inj (hseed.symm.trans hseed')
      rfl

theorem sound_generateKey {ok : Call → Bool} {engine : Engine} (hengine : engine.Correct S)
    {random : Option Seed} {key' : Key v} {u : Unit}
    (h : (generateKey ok (qudoKeygen S ok engine) random).run key = (some u, key')) :
    key'.Sound S := by
  obtain ⟨seed, -, hkeygen, -⟩ := (generateKey_eq_some ok key).mp h
  obtain ⟨seed', hseed, -, -, -, pair, hpair, r, hr, rfl⟩ := (qudoKeygen_eq_some S ok _).mp hkeygen
  rw [hengine seed' pair hpair] at hr
  obtain rfl := filled_of_keypairDecode S ok _ rfl rfl hr
  exact sound_generated seed' _ hseed

theorem copyPublic_filledPublic (key ret : Key v) (pk : PublicKey v) :
    (key.filledPublic S pk).copyPublic ret = ret.filledPublic S pk := by
  change { ret with
    rho := pk.rho, tr := S.xof pk.encode 64, t1 := some pk.t1.repr,
    pubEncoding := some (pk.encode.take v.params.pkLen) } = ret.filledPublic S pk
  rw [List.take_of_length_le pk.length_encode.le]
  rfl

theorem copyPublic_filled {sk : SecretKey v} (hsk : sk.Consistent S) (key ret : Key v) :
    (key.filled (sk.publicKey S) sk).copyPublic ret = ret.filledPublic S (sk.publicKey S) := by
  rw [← copyPublic_filledPublic key ret (sk.publicKey S)]
  change { ret with
    rho := sk.rho, tr := sk.tr, t1 := some (sk.publicKey S).t1.repr,
    pubEncoding := some ((sk.publicKey S).encode.take v.params.pkLen) } = _
  rw [hsk.tr_eq]
  rfl

theorem copyPrivate_filled {sk : SecretKey v} (hsk : sk.Consistent S) (key ret : Key v) :
    (key.filled (sk.publicKey S) sk).copyPrivate (ret.filledPublic S (sk.publicKey S)) =
      ret.filled (sk.publicKey S) sk := by
  change { ret.filledPublic S (sk.publicKey S) with
    K := sk.K, priv := some (.ofSecret sk),
    privEncoding := some (sk.encode.take v.params.skLen) } = _
  rw [List.take_of_length_le sk.length_encode.le, Key.filledPublic, ← hsk.tr_eq]
  rfl

theorem sound_selected (hkey : key.Sound S) (selection : UInt32)
    (hprekey : key.pubEncoding = none → key.privEncoding = none ∧ key.seed = none) :
    (key.selected selection).Sound S := by
  have hblank : (Key.blank key.provFlags : Key v).Unloaded :=
    ⟨rfl, nofun⟩
  rw [Key.selected]
  split
  swap
  · exact .unloaded hblank
  cases hkey with
  | unloaded h =>
    obtain ⟨hpriv, hseed⟩ := hprekey h.pub
    rw [Key.copyPrivate, Key.copyPublic, hpriv, h.pub, hseed]
    split <;> exact .unloaded hblank
  | publicOnly pk hpriv h =>
    have hcopy (ret : Key v) : key.copyPublic ret = ret.filledPublic S pk := by
      rw [h, copyPublic_filledPublic]
    rw [hcopy, Key.copyPrivate, hpriv]
    split <;> exact .publicOnly pk rfl rfl
  | pair sk hsk h hseed =>
    have hcopy (ret : Key v) : key.copyPublic ret = ret.filledPublic S (sk.publicKey S) := by
      rw [h, copyPublic_filled hsk]
    split
    · have hpriv (ret : Key v) : key.copyPrivate (ret.filledPublic S (sk.publicKey S)) =
          ret.filled (sk.publicKey S) sk := by
        rw [h, copyPrivate_filled hsk]
      rw [hcopy, hpriv]
      exact .pair sk hsk rfl hseed
    · rw [hcopy]
      exact .publicOnly (sk.publicKey S) rfl rfl

/-- What is asked of the operations of a history: keys are generated by a correct engine. -/
def Generates (S : Sampling v) (i : Invocation) (_ : Key v) : Prop :=
  ∀ engine random, i.op = .generateKey engine random → engine.Correct S

theorem Key.Sound.unloaded_or_published (hkey : key.Sound S) : key.Unloaded ∨ key.Published S := by
  cases hkey with
  | unloaded h => exact .inl h
  | publicOnly pk hpriv h => exact .inr ⟨pk, h⟩
  | pair sk hsk h hseed =>
    refine .inr ⟨sk.publicKey S, h.trans ?_⟩
    rw [h, Key.filledPublic, ← hsk.tr_eq]
    rfl

theorem Key.Sound.unloaded_or (hkey : key.Sound S) : key.Unloaded ∨ key.pubEncoding.isSome :=
  hkey.unloaded_or_published.imp_right Key.Published.isSome

/-- The seed may be dropped. -/
theorem Key.Sound.dropSeed (hkey : key.Sound S) : { key with seed := none }.Sound S := by
  cases hkey with
  | unloaded h => exact .unloaded ⟨h.pub, h.length_priv⟩
  | publicOnly pk hpriv h =>
    exact .publicOnly pk hpriv (congrArg (fun key ↦ { key with seed := none }) h)
  | pair sk hsk h hseed =>
    exact .pair sk hsk (congrArg (fun key ↦ { key with seed := none }) h)
      nofun

theorem sound_of_triple {x : Act (Key v) Unit}
    (h : Triple Key.Unloaded x (fun _ ↦ Key.Sound S) Key.Unloaded) (hkey : key.Unloaded) :
    (x key).2.Sound S :=
  (h.mono (fun _ ↦ id) (fun _ _ ↦ id) fun _ ↦ .unloaded).final hkey

theorem keeps_keyDup (ok : Call → Bool) (selection : UInt32) :
    Keeps id (keyDup ok selection : Proc v _).run := by
  simp only [keyDup, run_bind, run_fetch, run_require, run_apart]
  exact .fetch_bind fun _ ↦ .require_bind <| .require_bind <| .ofOption _

/-- After duplication one goes on with the key or with a copy of what is selected. -/
theorem perform_keyDup (S : Sampling v) (ok : Call → Bool) (selection : UInt32) (onCopy : Bool)
    (key : Key v) :
    ((perform S ⟨.keyDup selection onCopy, ok⟩).run key).2 = key ∨
      (key.pubEncoding = none → key.privEncoding = none ∧ key.seed = none) ∧
      ((perform S ⟨.keyDup selection onCopy, ok⟩).run key).2 = key.selected selection := by
  rw [perform, run_bind]
  have hkeep : ((keyDup ok selection).run key).2 = key := keeps_keyDup ok selection key
  match h : (keyDup ok selection).run key with
  | (none, key') =>
    left
    rw [bind_of_eq_none _ h]
    rw [h] at hkeep
    exact hkeep
  | (some copy, key') =>
    rw [bind_of_eq_some _ h]
    obtain ⟨rfl, hprekey, rfl⟩ := keyDup_eq_some ok h
    cases onCopy with
    | true => exact .inr ⟨hprekey, rfl⟩
    | false => exact .inl rfl

/-- Every operation keeps the invariant, whether it succeeds or not. -/
theorem sound_perform (i : Invocation) (key : Key v) (hi : Generates S i key) (hkey : key.Sound S) :
    ((perform S i).run key).2.Sound S := by
  obtain ⟨op, ok⟩ := i
  cases op with
  | setPrekey flagsSet flagsClr seed sk =>
    rcases hkey.unloaded_or with h | h
    · exact .unloaded ((setPrekey_keeps_unloaded ok flagsSet flagsClr seed sk).final h)
    · rw [perform, setPrekey_refused ok h]
      exact hkey
  | pkDecode input =>
    rcases hkey.unloaded_or with h | h
    · refine sound_of_triple (.of_success (fun key u key' _ hrun ↦ ?_)
        (pkDecode_failed S ok input)) h
      obtain ⟨⟨hpriv, -⟩, pk, -, rfl⟩ := (pkDecode_eq_some S ok).mp hrun
      exact .publicOnly pk hpriv rfl
    · rw [perform, pkDecode_refused S ok h]
      exact hkey
  | skDecode src =>
    rcases hkey.unloaded_or with h | h
    · refine sound_of_triple (.of_success (fun key u key' _ hrun ↦ ?_)
        (skDecode_failed S ok src)) h
      obtain ⟨-, -, sk, -, hsk, rfl⟩ := (skDecode_eq_some S ok key).mp hrun
      exact .pair sk hsk rfl nofun
    · rw [perform, skDecode_refused S ok h]
      exact hkey.dropSeed
  | generateKey engine random =>
    rcases hkey.unloaded_or_published with h | h
    · exact sound_of_triple (.of_success
        (fun key u key' _ hrun ↦ sound_generateKey (hi engine random rfl) hrun)
        (generateKey_failed ok (qudoKeygen_ends S ok engine) random)) h
    · rcases ((generateKey_refused S ok h engine random).mono (fun _ ↦ id)
        (fun _ _ ↦ False.elim) fun _ ↦ id).final rfl with heq | ⟨hpriv, pk, hpk⟩
      · exact heq.symm ▸ hkey
      · exact .publicOnly pk hpriv hpk
  | keyDup selection onCopy =>
    rcases perform_keyDup S ok selection onCopy key with h | ⟨hprekey, h⟩
    · rw [h]
      exact hkey
    · rw [h]
      exact sound_selected hkey selection hprekey
  | keyReset => exact .unloaded key.unloaded_reset

end Steps

/-! ## What the invariant says -/

section Contents

variable {S : Sampling v} {key : Key v}

theorem Key.Sound.public_decoding (hkey : key.Sound S) {pub : Bytes}
    (hpub : key.pubEncoding = some pub) :
    ∃ pk : PublicKey v, pub = pk.encode ∧ key.rho = pk.rho ∧ key.t1 = some pk.t1.repr ∧
      key.tr = S.xof pub 64 := by
  cases hkey with
  | unloaded h => exact nomatch (hpub.symm.trans h.pub)
  | publicOnly pk hpriv h =>
    rw [h] at hpub ⊢
    obtain rfl : pk.encode = pub := Option.some.inj hpub
    exact ⟨pk, rfl, rfl, rfl, rfl⟩
  | pair sk hsk h hseed =>
    rw [h] at hpub ⊢
    obtain rfl : (sk.publicKey S).encode = pub := Option.some.inj hpub
    exact ⟨sk.publicKey S, rfl, rfl, rfl, hsk.tr_eq⟩

/-- An object with both encodings is that of a key pair. -/
theorem Key.Sound.pair_of_encodings (hkey : key.Sound S) {pub enc : Bytes}
    (hpub : key.pubEncoding = some pub) (henc : key.privEncoding = some enc) :
    ∃ sk : SecretKey v, sk.Consistent S ∧ key = key.filled (sk.publicKey S) sk ∧
      pub = (sk.publicKey S).encode ∧ enc = sk.encode ∧
      ∀ seed, key.seed = some seed → keyGen S seed.1 = (sk.publicKey S, sk) := by
  cases hkey with
  | unloaded h => exact nomatch (hpub.symm.trans h.pub)
  | publicOnly pk hpriv h => exact nomatch (henc.symm.trans hpriv)
  | pair sk hsk h hseed =>
    rw [h] at hpub henc
    exact ⟨sk, hsk, h, (Option.some.inj hpub).symm, (Option.some.inj henc).symm, hseed⟩

end Contents

/-! ## Copies -/

section Copies

variable {S : Sampling v} {key : Key v}

theorem Key.Sound.length_pub (hkey : key.Sound S) {pub : Bytes}
    (hpub : key.pubEncoding = some pub) : pub.length = v.params.pkLen := by
  cases hkey with
  | unloaded h => exact nomatch (hpub.symm.trans h.pub)
  | publicOnly pk hpriv h =>
    rw [h] at hpub
    rw [← Option.some.inj hpub, pk.length_encode]
  | pair sk hsk h hseed =>
    rw [h] at hpub
    rw [← Option.some.inj hpub, PublicKey.length_encode]

theorem Key.Sound.length_priv (hkey : key.Sound S) {enc : Bytes}
    (henc : key.privEncoding = some enc) : enc.length = v.params.skLen := by
  cases hkey with
  | unloaded h => exact h.length_priv enc henc
  | publicOnly pk hpriv h => exact nomatch (henc.symm.trans hpriv)
  | pair sk hsk h hseed =>
    rw [h] at henc
    rw [← Option.some.inj henc, sk.length_encode]

/-- Selecting the private key selects the public key too. -/
theorem selectKeypair_of_selectPrivateKey {selection : UInt32}
    (h : (selection &&& selectPrivateKey != 0) = true) :
    (selection &&& selectKeypair != 0) = true := by
  rw [bne_iff_ne] at h ⊢
  intro hpair
  apply h
  calc selection &&& selectPrivateKey
      = selection &&& (selectKeypair &&& selectPrivateKey) := by rfl
    _ = (selection &&& selectKeypair) &&& selectPrivateKey := (UInt32.and_assoc _ _ _).symm
    _ = 0 := by rw [hpair, UInt32.zero_and]

/-- A copy has the selected encodings and the selected seed. -/
theorem selected_encodings (hkey : key.Sound S) (selection : UInt32) :
    (key.selected selection).pubEncoding =
        (if selection &&& selectKeypair != 0 then key.pubEncoding else none) ∧
      (key.selected selection).privEncoding =
        (if selection &&& selectPrivateKey != 0 then key.privEncoding else none) ∧
      (key.selected selection).seed =
        (if selection &&& selectPrivateKey != 0 then key.seed else none) := by
  have hpublic (ret : Key v) (hret : ret.pubEncoding = none) :
      (key.copyPublic ret).pubEncoding = key.pubEncoding := by
    rw [Key.copyPublic]
    cases hpub : key.pubEncoding with
    | none => exact hret
    | some pub => exact congrArg some (List.take_of_length_le (hkey.length_pub hpub).le)
  have hprivate (ret : Key v) (hret : ret.privEncoding = none) :
      (key.copyPrivate ret).privEncoding = key.privEncoding ∧
        (key.copyPrivate ret).pubEncoding = ret.pubEncoding := by
    rw [Key.copyPrivate]
    cases henc : key.privEncoding with
    | none => exact ⟨hret, rfl⟩
    | some enc =>
      exact ⟨congrArg some (List.take_of_length_le (hkey.length_priv henc).le), rfl⟩
  have hother (ret : Key v) : (key.copyPublic ret).privEncoding = ret.privEncoding := by
    rw [Key.copyPublic]
    split <;> rfl
  rw [Key.selected]
  by_cases hprv : (selection &&& selectPrivateKey != 0) = true
  · rw [if_pos (selectKeypair_of_selectPrivateKey hprv), if_pos hprv, if_pos hprv, if_pos hprv,
      if_pos (selectKeypair_of_selectPrivateKey hprv)]
    obtain ⟨hpriv, hpub⟩ := hprivate (key.copyPublic (.blank key.provFlags)) (hother _)
    exact ⟨hpub.trans (hpublic _ rfl), hpriv, rfl⟩
  · rw [if_neg hprv, if_neg hprv, if_neg hprv]
    split
    · exact ⟨hpublic _ rfl, hother _, key.copyPublic_seed _⟩
    · exact ⟨rfl, rfl, rfl⟩

end Copies

/-! ## Histories -/

section Histories

variable (S : Sampling v)

/-- After any history of a key object:

* a public encoding comes with its `rho`, its `t1` and its hash;
* with both encodings, the private vectors are those of the private encoding, are short, repeat the
  hash, and round to `t1` and `t0`;
* a seed that is there with both encodings generates them;
* a copy carries the selected encodings and the selected seed. -/
theorem key_object_invariant (calls : List Invocation)
    (h : Along (perform S) (Generates S) calls keyNew) :
    let key := after (perform S) calls keyNew
    (∀ pub, key.pubEncoding = some pub → ∃ pk : PublicKey v, pub = pk.encode ∧
      key.rho = pk.rho ∧ key.t1 = some pk.t1.repr ∧ key.tr = S.xof pub 64) ∧
    (∀ pub enc, key.pubEncoding = some pub → key.privEncoding = some enc →
      ∃ sk : SecretKey v, enc = sk.encode ∧ key.rho = sk.rho ∧ key.K = sk.K ∧
        key.priv = some ⟨sk.s1.repr, sk.s2.repr, sk.t0.repr⟩ ∧ sk.tr = key.tr ∧
        (∀ i j, |sk.s1 i j| ≤ v.eta) ∧ (∀ i j, |sk.s2 i j| ≤ v.eta) ∧
        ∃ t1 : PolyVec v.k ℤ, key.t1 = some t1.repr ∧ ∀ i j,
          (t1 i j, sk.t0 i j) =
            Fips204.power2Round (publicVector S key.rho sk.s1 sk.s2 i j)) ∧
    (∀ pub enc seed, key.pubEncoding = some pub → key.privEncoding = some enc →
      key.seed = some seed →
        pub = (keyGen S seed.1).1.encode ∧ enc = (keyGen S seed.1).2.encode) ∧
    ∀ ok selection copy, ((keyDup ok selection).run key).1 = some copy →
      copy.pubEncoding = (if selection &&& selectKeypair != 0 then key.pubEncoding else none) ∧
      copy.privEncoding =
        (if selection &&& selectPrivateKey != 0 then key.privEncoding else none) ∧
      copy.seed = if selection &&& selectPrivateKey != 0 then key.seed else none := by
  intro key
  have hkey : key.Sound S := h.invariant sound_perform (.unloaded unloaded_keyNew)
  refine ⟨fun pub hpub ↦ hkey.public_decoding hpub, fun pub enc hpub henc ↦ ?_,
    fun pub enc seed hpub henc hseed ↦ ?_, fun ok selection copy hcopy ↦ ?_⟩
  · obtain ⟨sk, hsk, h, -, rfl, -⟩ := hkey.pair_of_encodings hpub henc
    rw [h]
    refine ⟨sk, rfl, rfl, rfl, rfl, rfl, sk.s1_short, sk.s2_short, (sk.publicKey S).t1, rfl,
      fun i j ↦ ?_⟩
    rw [hsk.t0_eq]
    rfl
  · obtain ⟨sk, -, -, rfl, rfl, hgen⟩ := hkey.pair_of_encodings hpub henc
    rw [hgen seed hseed]
    exact ⟨rfl, rfl⟩
  · obtain ⟨-, -, rfl⟩ := keyDup_eq_some ok (Prod.ext hcopy rfl)
    exact selected_encodings hkey selection

/-- The engine that computes KeyGen_internal. -/
def fips204Engine : Engine := fun seed ↦
  some ((keyGen S seed.1).1.encode, (keyGen S seed.1).2.encode)

theorem correct_fips204Engine : (fips204Engine S).Correct S := fun _ _ h ↦ (Option.some.inj h).symm

/-- Delegated key generation from the seed of an object with nothing else in it. -/
theorem qudoKeygen_of_seed {ok : Call → Bool} (hok : ∀ c, ok c = true) {engine : Engine}
    (key : Key v) {seed : Seed} (hseed : key.seed = some seed)
    (henc : key.encodings = (none, none)) (ht1 : key.t1 = none) (hpriv : key.priv = none)
    (hengine : engine seed =
      some ((keyGen S seed.1).1.encode, (keyGen S seed.1).2.encode)) :
    (qudoKeygen S ok engine).run key =
      (some (), (key.filled (keyGen S seed.1).1 (keyGen S seed.1).2).dropSeed
        key.retainSeed) := by
  obtain ⟨hpub, hprivEnc⟩ := Prod.mk.inj henc
  exact (qudoKeygen_eq_some S ok _).mpr ⟨seed, hseed, hok _, hok _, hok _, _, hengine, _,
    (keypairDecode_eq_some S ok _).mpr ⟨⟨hprivEnc, hpub, ht1, hpriv⟩,
      ⟨hok _, hok _, hok _, hok _, hok _, hok _⟩, _, _, rfl, rfl, rfl, rfl, rfl⟩, rfl⟩

theorem generateKey_of_seed {ok : Call → Bool} (hok : ∀ c, ok c = true) {engine : Engine}
    {random : Option Seed} {key : Key v} {seed : Seed} (hseed : key.seed = some seed)
    (henc : key.encodings = (none, none)) (ht1 : key.t1 = none) (hpriv : key.priv = none)
    (hengine : engine seed =
      some ((keyGen S seed.1).1.encode, (keyGen S seed.1).2.encode)) :
    (generateKey ok (qudoKeygen S ok engine) random).run key =
      (some (), (key.filled (keyGen S seed.1).1 (keyGen S seed.1).2).dropSeed
        key.retainSeed) := by
  rcases key with ⟨rho, tr, K, pub, enc, seed', flags, t1, priv⟩
  obtain rfl : seed' = some seed := hseed
  obtain ⟨rfl, rfl⟩ : pub = none ∧ enc = none := Prod.mk.inj henc
  exact (generateKey_eq_some ok _).mpr ⟨seed, .inl rfl,
    qudoKeygen_of_seed S hok _ rfl rfl ht1 hpriv hengine,
    nofun⟩

/-- A seed is set, and a key is generated from it. -/
def generatedFromSeed : List Invocation :=
  [⟨.setPrekey 0 0 (some (List.replicate 32 7)) none, fun _ ↦ true⟩,
    ⟨.generateKey (fips204Engine S) none, fun _ ↦ true⟩]

theorem along_generatedFromSeed :
    Along (perform S) (Generates S) (generatedFromSeed S) keyNew := by
  refine ⟨fun _ _ h ↦ ?_, fun engine random h ↦ ?_, trivial⟩
  · exact absurd h (by simp)
  · obtain ⟨rfl, -⟩ := Op.generateKey.inj h
    exact correct_fips204Engine S

theorem setPrekey_seed {ok : Call → Bool} (hok : ∀ c, ok c = true) (key : Key v) (seed : Seed)
    (henc : key.encodings = (none, none)) (hseed : key.seed = none) :
    (setPrekey ok 0 0 (some seed.1) none).run key = (some (), { key with seed := some seed }) := by
  rcases key with ⟨rho, tr, K, pub, enc, seed', flags, t1, priv⟩
  obtain ⟨rfl, rfl⟩ : pub = none ∧ enc = none := Prod.mk.inj henc
  obtain rfl : seed' = none := hseed
  simp [setPrekey, hok, seed.2, Seed.ofBytes]

/-- The object then holds the pair and the seed. -/
theorem after_generatedFromSeed :
    after (perform S) (generatedFromSeed S) keyNew =
      { (keyNew : Key v).filled (keyGen S (List.replicate 32 7)).1
          (keyGen S (List.replicate 32 7)).2 with
        seed := some ⟨List.replicate 32 7, List.length_replicate⟩ } := by
  have hprekey := setPrekey_seed (fun _ ↦ rfl) (keyNew : Key v)
    ⟨List.replicate 32 7, List.length_replicate⟩ rfl rfl
  rw [generatedFromSeed, after_cons, perform, hprekey, after_cons, perform]
  dsimp only
  rw [generateKey_of_seed S (fun _ ↦ rfl) rfl rfl rfl rfl (by rfl), after_nil, Key.retainSeed,
    show (keyNew : Key v).provFlags = provFlagsDefault from rfl,
    show (provFlagsDefault &&& retainSeedFlag != 0) = true from by decide, Key.dropSeed_true]
  rfl

end Histories

/-- Samplers that return zeros. -/
def zeroSampling (v : Variant) : Sampling v where
  shake256 := fun _ _ ↦ 0
  expandA := fun _ _ _ _ ↦ 0
  expandS := fun _ ↦ (fun _ ↦ ⟨fun _ ↦ 0, fun _ ↦ by simp⟩, fun _ ↦ ⟨fun _ ↦ 0, fun _ ↦ by simp⟩)
  sampleInBall := fun _ ↦ ⟨fun _ ↦ 0, fun _ ↦ by simp, by simp⟩

/-- The object of a generated pair: what its seed generates are its two encodings. -/
theorem key_object_invariant_generated :
    let key := after (perform (zeroSampling .mlDsa44))
      (generatedFromSeed (zeroSampling .mlDsa44)) keyNew
    ∃ pub enc seed, key.pubEncoding = some pub ∧ key.privEncoding = some enc ∧
      key.seed = some seed ∧ pub = (keyGen (zeroSampling .mlDsa44) seed.1).1.encode ∧
      enc = (keyGen (zeroSampling .mlDsa44) seed.1).2.encode := by
  intro key
  have hkey := after_generatedFromSeed (zeroSampling .mlDsa44)
  have hpub := congrArg Key.pubEncoding hkey
  have henc := congrArg Key.privEncoding hkey
  have hseed := congrArg Key.seed hkey
  exact ⟨_, _, _, hpub, henc, hseed,
    (key_object_invariant _ _ (along_generatedFromSeed _)).2.2.1 _ _ _ hpub henc hseed⟩

end Ossl

end MlDsa
