import QudoPqc.MlDsa.KeyHistory

/-!
# Failed operations on ML-DSA keys

An operation that fails should leave the key as it was or fully reset, and a loaded key should not
change at all. With every allocation succeeding this holds of prekey import and of public key
decoding. `ossl_ml_dsa_sk_decode` and `ossl_ml_dsa_generate_key` give it up: the first drops the
seed before it looks at anything else, and leaves its vectors behind when a coefficient is out of
range; the second replaces the seed and drops the prekey before it knows whether the key can be
filled in.

`Careful` says under which circumstances none of this happens.
-/

namespace MlDsa

open Codec Fallible Fallible.Act
open Fallible.Traced (run_bind run_cleanup run_fetch run_forSome run_ite run_ofOption run_onFailure
  run_pure run_require run_update)
open Fips204 (PublicKey SecretKey)

namespace Ossl

variable {v : Variant} (S : Sampling v) {ok : Call → Bool} {key : Key v}

/-- No encodings, no seed and no vectors. -/
structure Key.Cleared (key : Key v) : Prop where
  pub : key.pubEncoding = none
  priv : key.privEncoding = none
  seed : key.seed = none
  t1 : key.t1 = none
  vectors : key.priv = none

theorem Key.cleared_reset (key : Key v) : key.reset.Cleared := ⟨rfl, rfl, rfl, rfl, rfl⟩

/-! ## Prekeys and public keys -/

/-- Prekey import without a failed allocation changes nothing when it fails. -/
theorem setPrekey_atomic (hok : ∀ c, ok c = true) (flagsSet flagsClr : UInt32)
    (seed sk : Option Bytes)
    (h : ((setPrekey ok flagsSet flagsClr seed sk).run key).1 = none) :
    ((setPrekey ok flagsSet flagsClr seed sk).run key).2 = key := by
  have htriple : Triple (· = key) (setPrekey ok flagsSet flagsClr seed sk).run (fun _ _ ↦ True)
      (· = key) := by
    rw [setPrekey]
    simp only [run_bind, run_fetch, run_require, run_onFailure, run_update, hok, Bool.or_true]
    exact .fetch_bind_any fun _ ↦ .require_keep fun _ ↦ .onFailure (M := fun _ ↦ False)
      (.require_bind (by simp) fun _ ↦
        .update_bind (M := fun _ ↦ True) (fun _ _ ↦ trivial) <|
        .require_bind (by simp) fun _ ↦
        .update_keep (fun _ _ ↦ trivial) <| .update fun _ _ ↦ trivial)
      fun _ h ↦ h.elim
  exact (htriple key rfl).2 h

theorem keyPubAlloc_atomic : Triple (· = key) (keyPubAlloc ok).run
    (fun _ key' ↦ key.t1 = none ∧ key' = { key with t1 := some fun _ _ ↦ 0 }) (· = key) := by
  simp only [keyPubAlloc, run_bind, run_fetch, run_require, run_update]
  refine .fetch_bind_eq <| .require_keep fun hnone ↦ .require_keep fun _ ↦ .update ?_
  rintro _ rfl
  exact ⟨Option.isNone_iff_eq_none.mp hnone, rfl⟩

theorem keyPrivAlloc_atomic : Triple (· = key) (keyPrivAlloc ok).run
    (fun _ key' ↦ key.priv = none ∧
      key' = { key with priv := some ⟨fun _ _ ↦ 0, fun _ _ ↦ 0, fun _ _ ↦ 0⟩ }) (· = key) := by
  simp only [keyPrivAlloc, run_bind, run_fetch, run_require, run_update]
  refine .fetch_bind_eq <| .require_keep fun hnone ↦ .require_keep fun _ ↦ .update ?_
  rintro _ rfl
  exact ⟨Option.isNone_iff_eq_none.mp hnone, rfl⟩

/-- So does the decoding of a public key: a string of the right length always decodes. -/
theorem pkDecode_atomic (hok : ∀ c, ok c = true) (input : Bytes)
    (h : ((pkDecode S ok input).run key).1 = none) :
    ((pkDecode S ok input).run key).2 = key := by
  have hfail : ¬ (key.t1 = none ∧ (key.privEncoding = none ∧ key.pubEncoding = none) ∧
      input.length = v.params.pkLen) := by
    rintro ⟨ht1, ⟨hpriv, hpub⟩, hlen⟩
    obtain ⟨pk, hpk⟩ := Fips204.PublicKey.exists_encode hlen
    rw [(pkDecode_eq_some S ok (u := ())).mpr ⟨⟨hpriv, hpub, ht1, hok _, hok _, hok _, hok _⟩, pk,
      hpk, rfl⟩] at h
    exact nomatch h
  have htriple : Triple (· = key) (pkDecode S ok input).run (fun _ _ ↦ True) (· = key) := by
    rw [pkDecode]
    simp only [run_bind, run_fetch, run_require]
    refine .fetch_bind_eq <| .require_keep fun henc ↦ .require_keep fun hlen ↦
      .bind keyPubAlloc_atomic fun _ key' hkey' ↦ ?_
    simp only [Bool.and_eq_true, Option.isNone_iff_eq_none, beq_iff_eq] at henc hlen
    exact absurd ⟨hkey'.1, henc, hlen⟩ hfail
  exact (htriple key rfl).2 h

/-! ## Private keys -/

/-- The decoding of a private key drops the seed. Where there is none and the coefficients are in
range, it leaves the key as it was or resets it. -/
theorem skDecode_atomic (hok : ∀ c, ok c = true) (src : Source) (hseed : key.seed = none)
    (hsrc : key.pubEncoding = none → src.mayFill key = true →
      (src.bytes key).length = v.params.skLen →
      ∃ sk : SecretKey v, src.bytes key = sk.encode)
    (h : ((skDecode S ok src).run key).1 = none) :
    ((skDecode S ok src).run key).2 = key ∨ ((skDecode S ok src).run key).2.Cleared := by
  have htriple : Triple (· = key) (skDecode S ok src).run (fun _ _ ↦ True)
      (fun key' ↦ key' = key ∨ key'.Cleared) := by
    rw [skDecode]
    simp only [run_bind, run_fetch, run_require, run_update, run_onFailure, run_clearFree,
      Act.pure_bind, run_keyReset, hok, Bool.or_true]
    refine .fetch_bind_eq <| .update_keep (fun _ hkey ↦ ?_) <|
      .require_bind (fun _ _ ↦ .inl) fun hfill ↦ .require_bind (fun _ _ ↦ .inl) fun hlen ↦ ?_
    · rw [hkey, ← hseed]
    simp only [Bool.and_eq_true, Option.isNone_iff_eq_none, beq_iff_eq] at hfill hlen
    obtain ⟨sk, hsk⟩ := hsrc hfill.2 hfill.1 hlen
    refine .bind (keyPrivAlloc_atomic.mono (fun _ h ↦ h) (fun _ _ h ↦ h) fun _ ↦ .inl)
      fun _ ↦ .bind (Q := fun _ _ ↦ True) ?_ fun _ ↦
      .require_bind (by simp) fun _ ↦
      .update_keep (fun _ _ ↦ trivial) <|
      .onFailure (.any _) fun key' _ ↦ .inr key'.cleared_reset
    -- the encoding of a private key is decoded
    rintro key' ⟨-, rfl⟩
    rw [hsk, (decodePrivate_eq_some rfl).mpr ⟨sk, rfl, rfl, rfl⟩]
    exact ⟨fun _ _ ↦ trivial, by simp⟩
  exact (htriple key rfl).2 h

/-! ## Key generation -/

theorem ensureSeed_atomic (random : Option Seed) : Triple (· = key) (ensureSeed ok random).run
    (fun _ key' ↦ ∃ seed, key' = { key with seed := some seed }) (· = key) := by
  simp only [ensureSeed, run_bind, run_fetch, run_ite, run_require, run_ofOption, run_update,
    run_pure]
  refine .fetch_bind_eq ?_
  split
  next =>
    exact .require_keep fun _ ↦ .ofOption_keep fun seed _ ↦ .update (by
      rintro _ rfl
      exact ⟨seed, rfl⟩)
  next hsome =>
    obtain ⟨seed, hseed⟩ := Option.ne_none_iff_exists'.mp fun h ↦
      hsome (Option.isNone_iff_eq_none.mpr h)
    refine .pure fun key' hkey' ↦ ⟨seed, ?_⟩
    rw [hkey', ← hseed]

/-- Key generation for an object without a public encoding and without vectors, by an engine that
does not fail, leaves the key as it was if there are no random bytes, and resets it if the prekey
does not match. -/
theorem generateKey_atomic (hok : ∀ c, ok c = true) {engine : Engine} {random : Option Seed}
    (hengine : ∀ seed, engine seed = fips204Engine S seed) (hpub : key.pubEncoding = none)
    (ht1 : key.t1 = none) (hpriv : key.priv = none)
    (h : ((generateKey ok (qudoKeygen S ok engine) random).run key).1 = none) :
    ((generateKey ok (qudoKeygen S ok engine) random).run key).2 = key ∨
      ((generateKey ok (qudoKeygen S ok engine) random).run key).2.Cleared := by
  have hkeygen : Triple
      (fun key' ↦ ∃ seed, key' = { key with seed := some seed, privEncoding := none })
      (qudoKeygen S ok engine).run (fun _ key' ↦ key'.privEncoding.isSome = true)
      fun _ ↦ False := by
    rintro _ ⟨seed, rfl⟩
    rw [qudoKeygen_of_seed S hok { key with seed := some seed, privEncoding := none } rfl
      (Prod.ext hpub rfl) ht1 hpriv (hengine seed)]
    refine ⟨fun _ _ ↦ ?_, by simp⟩
    exact congrArg Option.isSome (Key.privEncoding_dropSeed _ _)
  have hmatching : Triple
      (fun key' ↦ ∃ seed, key' = { key with seed := some seed, privEncoding := none })
      (keygenMatching (qudoKeygen S ok engine) key.privEncoding).run (fun _ _ ↦ True)
      Key.Cleared := by
    rw [keygenMatching, run_bind]
    refine .bind (hkeygen.mono (fun _ h ↦ h) (fun _ _ h ↦ h) fun _ h ↦ h.elim) fun _ ↦ ?_
    cases key.privEncoding with
    | none => exact .pure fun _ _ ↦ trivial
    | some sk =>
      simp only [run_forSome, Option.elim_some, run_bind, run_fetch, run_ofOption, run_onFailure,
        run_keyReset]
      refine .fetch_bind fun key₀ ↦ .ofOption_bind (fun hnone key hkey ↦ ?_) fun _ _ ↦
        .onFailure (.any _) fun key _ ↦ key.cleared_reset
      rw [hkey.1, hnone] at hkey
      cases hkey.2
  have htriple : Triple (· = key) (generateKey ok (qudoKeygen S ok engine) random).run
      (fun _ _ ↦ True) (fun key' ↦ key' = key ∨ key'.Cleared) := by
    simp only [generateKey, run_bind, run_fetch, run_update, run_cleanup, run_clearFree]
    refine .fetch_bind_eq <| .bind ((ensureSeed_atomic random).mono (fun _ h ↦ h)
      (fun _ _ h ↦ h) fun _ ↦ .inl) fun _ ↦ .update_bind ?_ <|
      .cleanup hmatching (fun _ _ h ↦ h) fun _ ↦ .inr
    rintro _ ⟨seed, rfl⟩
    exact ⟨seed, rfl⟩
  exact (htriple key rfl).2 h

/-! ## Histories -/

/-- Whether an operation fills in the key. -/
def Op.fills : Op → Bool
  | setPrekey .. => true
  | pkDecode .. => true
  | skDecode .. => true
  | generateKey .. => true
  | keyDup .. => false
  | keyReset => false

/-- An operation that fails leaves the key as it was or fully reset, and none changes a loaded
key. -/
def Atomic (i : Invocation) (key : Key v) : Prop :=
  i.op.fills = true →
    (((perform S i).run key).1 = none →
      ((perform S i).run key).2 = key ∨ ((perform S i).run key).2.Cleared) ∧
    (key.pubEncoding.isSome = true → ((perform S i).run key).2 = key)

/-- No allocation and no digest fails; a private key is decoded only into a key without a seed, and
if it gets that far its coefficients are in range; a key is generated only while there is no public
encoding, and by an engine that succeeds. -/
def Careful (i : Invocation) (key : Key v) : Prop :=
  (∀ c, i.ok c = true) ∧
    match i.op with
    | .skDecode src => key.seed = none ∧
      (key.pubEncoding = none → src.mayFill key = true →
        (src.bytes key).length = v.params.skLen →
        ∃ sk : SecretKey v, src.bytes key = sk.encode)
    | .generateKey engine _ =>
      key.pubEncoding = none ∧ ∀ seed, engine seed = fips204Engine S seed
    | _ => True

/-- There are vectors only if there is a public encoding. -/
def Key.Tidy (key : Key v) : Prop := key.pubEncoding = none → key.t1 = none ∧ key.priv = none

theorem Key.Cleared.tidy (h : key.Cleared) : key.Tidy := fun _ ↦ ⟨h.t1, h.vectors⟩

theorem Key.tidy_of_isSome (h : key.pubEncoding.isSome = true) : key.Tidy := by
  intro hnone
  rw [hnone] at h
  exact nomatch h

theorem atomic_of_careful (i : Invocation) (key : Key v) (hi : Careful S i key) (hkey : key.Tidy) :
    Atomic S i key := by
  obtain ⟨op, ok⟩ := i
  obtain ⟨hok, hop⟩ := hi
  intro hfills
  cases op with
  | setPrekey flagsSet flagsClr seed sk =>
    refine ⟨fun h ↦ .inl (setPrekey_atomic hok _ _ _ _ h), fun hpub ↦ ?_⟩
    rw [perform, setPrekey_refused ok hpub]
  | pkDecode input =>
    refine ⟨fun h ↦ .inl (pkDecode_atomic S hok input h), fun hpub ↦ ?_⟩
    rw [perform, pkDecode_refused S ok hpub]
  | skDecode src =>
    refine ⟨skDecode_atomic S hok src hop.1 hop.2, fun hpub ↦ ?_⟩
    rw [perform, skDecode_refused S ok hpub, ← hop.1]
  | generateKey engine random =>
    obtain ⟨hpub, hengine⟩ := hop
    obtain ⟨ht1, hpriv⟩ := hkey hpub
    refine ⟨generateKey_atomic S hok hengine hpub ht1 hpriv, fun hsome ↦ ?_⟩
    rw [hpub] at hsome
    cases hsome
  | keyDup selection onCopy => cases hfills
  | keyReset => cases hfills

theorem tidy_setPrekey (ok : Call → Bool) (flagsSet flagsClr : UInt32)
    (seed sk : Option Bytes) (hkey : key.Tidy) :
    ((setPrekey ok flagsSet flagsClr seed sk).run key).2.Tidy := by
  have hkeep : Keeps (fun key : Key v ↦ (key.pubEncoding, key.t1, key.priv))
      (setPrekey ok flagsSet flagsClr seed sk).run := by
    rw [setPrekey]
    simp only [run_bind, run_fetch, run_require, run_onFailure, run_update, run_clearFree,
      Act.pure_bind]
    exact .fetch_bind fun _ ↦ .require_bind <| .onFailure
      (.require_bind <| .update_bind (fun _ ↦ rfl) <| .require_bind <| .update_bind (fun _ ↦ rfl) <|
        .update fun _ ↦ rfl) fun _ ↦ rfl
  obtain ⟨hpub, hvec⟩ := Prod.mk.inj (hkeep key)
  obtain ⟨ht1, hpriv⟩ := Prod.mk.inj hvec
  rw [Key.Tidy, hpub, ht1, hpriv]
  exact hkey

theorem Key.Tidy.selected (selection : UInt32)
    (hprekey : key.pubEncoding = none → key.privEncoding = none ∧ key.seed = none) :
    (key.selected selection).Tidy := by
  rw [Key.selected]
  split
  swap
  · exact fun _ ↦ ⟨rfl, rfl⟩
  cases hpub : key.pubEncoding with
  | none =>
    rw [Key.copyPrivate, Key.copyPublic, (hprekey hpub).1, hpub]
    split <;> exact fun _ ↦ ⟨rfl, rfl⟩
  | some pub =>
    refine Key.tidy_of_isSome ?_
    rw [Key.copyPrivate, Key.copyPublic, hpub]
    split
    · cases key.privEncoding <;> rfl
    · rfl

theorem tidy_of_ends {x : Act (Key v) Unit}
    (hsome : ∀ u key', x key = (some u, key') → key'.pubEncoding.isSome = true)
    (hnone : (x key).1 = none → (x key).2 = key ∨ (x key).2.Cleared) (hkey : key.Tidy) :
    (x key).2.Tidy := by
  cases hx : (x key).1 with
  | none =>
    rcases hnone hx with hsame | hcleared
    · rw [hsame]
      exact hkey
    · exact hcleared.tidy
  | some u => exact Key.tidy_of_isSome (hsome u _ (Prod.ext hx rfl))

/-- What fills in the key leaves a public encoding if it succeeds. -/
theorem tidy_perform (i : Invocation) (key : Key v) (hi : Careful S i key) (hkey : key.Tidy) :
    ((perform S i).run key).2.Tidy := by
  have hatomic := atomic_of_careful S i key hi hkey
  obtain ⟨op, ok⟩ := i
  cases op with
  | setPrekey flagsSet flagsClr seed sk => exact tidy_setPrekey ok _ _ _ _ hkey
  | pkDecode input =>
    refine tidy_of_ends (fun u key' h ↦ ?_) (hatomic rfl).1 hkey
    obtain ⟨-, pk, -, rfl⟩ := (pkDecode_eq_some S ok).mp h
    rfl
  | skDecode src =>
    refine tidy_of_ends (fun u key' h ↦ ?_) (hatomic rfl).1 hkey
    obtain ⟨-, -, sk, -, -, rfl⟩ := (skDecode_eq_some S ok key).mp h
    rfl
  | generateKey engine random =>
    refine tidy_of_ends (fun u key' h ↦ ?_) (hatomic rfl).1 hkey
    obtain ⟨seed, -, hkeygen, -⟩ := (generateKey_eq_some ok key).mp h
    obtain ⟨_, -, -, -, -, _, -, r, hr, rfl⟩ := (qudoKeygen_eq_some S ok _).mp hkeygen
    obtain ⟨-, -, pk, sk, -, -, -, -, rfl⟩ := (keypairDecode_eq_some S ok _).mp hr
    exact congrArg Option.isSome (Key.pubEncoding_dropSeed _ _)
  | keyDup selection onCopy =>
    rcases perform_keyDup S ok selection onCopy key with h | ⟨hprekey, h⟩
    · rw [h]
      exact hkey
    · rw [h]
      exact Key.Tidy.selected selection hprekey
  | keyReset => exact key.cleared_reset.tidy

/-- A cleared key accepts every public key, and every private key with the right public data. -/
theorem Key.Cleared.decodes (hkey : key.Cleared) (hok : ∀ c, ok c = true) :
    (∀ pk : PublicKey v, ((pkDecode S ok pk.encode).run key).1 = some ()) ∧
      ∀ sk : SecretKey v, sk.Consistent S →
        ((skDecode S ok (.buffer sk.encode)).run key).1 = some () := by
  refine ⟨fun pk ↦ ?_, fun sk hsk ↦ ?_⟩
  · rw [(pkDecode_eq_some S ok).mpr ⟨⟨hkey.priv, hkey.pub, hkey.t1, hok _, hok _, hok _, hok _⟩, pk,
      rfl, rfl⟩]
  · have hfill : (Source.buffer sk.encode).mayFill key = true :=
      Option.isNone_iff_eq_none.mpr hkey.priv
    rw [(skDecode_eq_some S ok key).mpr ⟨⟨hfill, hkey.pub, hkey.vectors, hkey.t1⟩,
      ⟨hok _, .inr (hok _), hok _, hok _, hok _, hok _, hok _, hok _, hok _⟩, sk, rfl, hsk, rfl⟩]

/-- In a careful history every failed operation leaves the key as it was or fully reset, and no
operation changes a loaded key. A reset or empty key can be filled in again. -/
theorem failed_operations_atomic (calls : List Invocation)
    (h : Along (perform S) (Careful S) calls (keyNew : Key v)) :
    Along (perform S) (Atomic S) calls keyNew ∧
      ∀ key : Key v, key.Cleared → ∀ ok : Call → Bool, (∀ c, ok c = true) →
        (∀ pk : PublicKey v, ((pkDecode S ok pk.encode).run key).1 = some ()) ∧
        ∀ sk : SecretKey v, sk.Consistent S →
          ((skDecode S ok (.buffer sk.encode)).run key).1 = some () :=
  ⟨h.of_invariant (tidy_perform S) (atomic_of_careful S) fun _ ↦ ⟨rfl, rfl⟩,
    fun _ hkey _ hok ↦ hkey.decodes S hok⟩

/-- A key is generated from a seed, and then something that is no public key is decoded into it. -/
def generatedThenRefused (S : Sampling v) : List Invocation :=
  generatedFromSeed S ++ [⟨.pkDecode [], fun _ ↦ true⟩]

theorem failed_operations_atomic_refused :
    Along (perform (zeroSampling .mlDsa44)) (Careful (zeroSampling .mlDsa44))
        (generatedThenRefused (zeroSampling .mlDsa44)) keyNew ∧
      Along (perform (zeroSampling .mlDsa44)) (Atomic (zeroSampling .mlDsa44))
        (generatedThenRefused (zeroSampling .mlDsa44)) keyNew := by
  have hcareful : Along (perform (zeroSampling .mlDsa44)) (Careful (zeroSampling .mlDsa44))
      (generatedThenRefused (zeroSampling .mlDsa44)) keyNew :=
    ⟨⟨fun _ ↦ rfl, trivial⟩, ⟨fun _ ↦ rfl, rfl, fun _ ↦ rfl⟩, ⟨fun _ ↦ rfl, trivial⟩, trivial⟩
  exact ⟨hcareful, (failed_operations_atomic _ _ hcareful).1⟩

/-- A generated key whose seed is retained loses the seed in a call that is refused. -/
theorem sk_decode_drops_seed :
    let S := zeroSampling .mlDsa44
    let key := after (perform S) (generatedFromSeed S) (keyNew : Key .mlDsa44)
    let i : Invocation := ⟨.skDecode (.buffer []), fun _ ↦ true⟩
    ((perform S i).run key).1 = none ∧ key.pubEncoding.isSome = true ∧
      key.seed.isSome = true ∧ ((perform S i).run key).2.seed = none ∧
      ((perform S i).run key).2 ≠ key ∧ ¬ ((perform S i).run key).2.Cleared := by
  intro S key i
  have hkey := after_generatedFromSeed S
  have hpub : key.pubEncoding.isSome = true := congrArg (fun key ↦ key.pubEncoding.isSome) hkey
  have hseed : key.seed.isSome = true := congrArg (fun key ↦ key.seed.isSome) hkey
  have hrun : (perform S i).run key = (none, { key with seed := none }) :=
    skDecode_refused S _ hpub _
  rw [hrun]
  refine ⟨rfl, hpub, hseed, rfl, fun h ↦ ?_, fun h ↦ ?_⟩
  · rw [← congrArg Key.seed h] at hseed
    exact Bool.false_ne_true hseed
  · rw [show key.pubEncoding = none from h.pub] at hpub
    exact Bool.false_ne_true hpub

end Ossl

end MlDsa
