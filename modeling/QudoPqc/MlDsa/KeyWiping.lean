import QudoPqc.MlDsa.KeyHistory

/-!
# Private material in released memory

What is left of the seed, of `K`, of private encodings and of private vectors in the memory that
the key functions give back. Resetting and freeing a key, prekey import, delegated key generation
and duplication zero all of it on every path. The decoding of a private key does not: it computes
`t0` once more, to compare it with the encoded one, and frees the vector as it is; the block in
which it computes `t`, from which `t0` is read off, is freed with `t` in it too. It also returns
with a copy of the public `tr` in a local buffer.
-/

namespace MlDsa

open Codec Fallible Fallible.Traced Fips204

namespace Ossl

variable {v : Variant} (S : Sampling v)

/-! ## What is always zeroed -/

theorem wiped_cleanse (held : Held) (bs : Bytes) : (Released.bytes held (cleanse bs)).Wiped := by
  intro x hx
  simp only [Released.bytes, cleanse, List.map_map, List.mem_map] at hx
  obtain ⟨_, -, rfl⟩ := hx
  rfl

theorem wiped_vectorZero (held : Held) {n : ℕ} (p : PolyVec n ℕ) :
    (⟨held, coeffs (vectorZero p)⟩ : Released).Wiped := by
  intro x hx
  simp only [coeffs, List.mem_flatten, List.mem_ofFn] at hx
  obtain ⟨_, ⟨i, rfl⟩, hx⟩ := hx
  obtain ⟨j, rfl⟩ := List.mem_ofFn.mp hx
  rfl

theorem PrivVectors.wiped_zero (held : Held) (p : PrivVectors v) :
    (⟨held, p.zero.coeffs⟩ : Released).Wiped := by
  intro x hx
  rcases List.mem_append.mp hx with hx | hx
  · exact wiped_vectorZero held p.s1 x hx
  rcases List.mem_append.mp hx with hx | hx
  · exact wiped_vectorZero held p.s2 x hx
  · exact wiped_vectorZero held p.t0 x hx

theorem emits_clearFree (held : Held) (bs : Option Bytes) :
    Emits Released.Wiped (clearFree held bs : Proc v _) := by
  refine .emit fun e he ↦ ?_
  obtain ⟨bs, -, rfl⟩ := List.mem_map.mp he
  exact wiped_cleanse held bs

theorem emits_keyReset : Emits Released.Wiped (keyReset : Proc v _) := by
  refine .fetch_bind fun key ↦ .emit_bind (fun e he ↦ ?_) <| .bind (emits_clearFree _ _) fun _ ↦
    .bind (emits_clearFree _ _) fun _ ↦ .ofAct _
  obtain ⟨p, -, rfl⟩ := List.mem_map.mp he
  exact p.wiped_zero _

theorem emits_keyFree : Emits Released.Wiped (keyFree : Proc v _) := by
  intro key e he
  rcases mem_events_bind.mp he with hreset | ⟨_, key', hrun, hfree⟩
  · exact emits_keyReset key e hreset
  · obtain rfl : key.reset = key' := Act.update_eq_some.mp hrun
    obtain rfl := List.mem_singleton.mp hfree
    exact wiped_cleanse _ _

section Operations

variable {E : Released → Prop} (ok : Call → Bool)

theorem emits_keyPubAlloc : Emits E (keyPubAlloc ok : Proc v _) :=
  .fetch_bind fun _ ↦ .require_bind <| .require_bind <| .ofAct _

theorem emits_keyPrivAlloc : Emits E (keyPrivAlloc ok : Proc v _) :=
  .fetch_bind fun _ ↦ .require_bind <| .require_bind <| .ofAct _

theorem emits_setPrekey (flagsSet flagsClr : UInt32) (seed sk : Option Bytes) :
    Emits Released.Wiped (setPrekey ok flagsSet flagsClr seed sk : Proc v _) :=
  .fetch_bind fun _ ↦ .require_bind <| .onFailure
    (.require_bind <| .update_bind <| .require_bind <| .update_bind <| .ofAct _)
    (.fetch_bind fun _ ↦ .bind (emits_clearFree _ _) fun _ ↦
      .bind (emits_clearFree _ _) fun _ ↦ .ofAct _)

theorem emits_keyDup (selection : UInt32) :
    Emits Released.Wiped (keyDup ok selection : Proc v _) := by
  refine .fetch_bind fun src ↦ .require_bind <| .require_bind <| .apart <| .onFailure ?_
    emits_keyFree
  refine .ite (.bind ?_ fun _ ↦ .ite (.bind ?_ fun _ ↦ ?_) (.pure _)) (.pure _)
  · exact .forSome fun _ ↦ .update_bind <| .bind
      (.forSome fun _ ↦ .bind (emits_keyPubAlloc ok) fun _ ↦ .ofAct _) fun _ ↦
      .require_bind <| .ofAct _
  · exact .forSome fun _ ↦ .update_bind <| .bind
      (.forSome fun _ ↦ .bind (emits_keyPrivAlloc ok) fun _ ↦ .ofAct _) fun _ ↦
      .require_bind <| .ofAct _
  · exact .forSome fun _ ↦ .require_bind <| .ofAct _

theorem emits_decodePrivate {atReturn : Bytes → Bytes}
    (h : ∀ tr, E (.bytes .inputTr (atReturn tr))) (sk : Bytes) :
    Emits E (decodePrivate atReturn sk : Proc v _) :=
  .ofOption_bind fun _ ↦ .update_bind <| .ofOption_bind fun _ ↦ .update_bind <|
    .ofOption_bind fun _ ↦ .emit_bind (fun _ he ↦ List.mem_singleton.mp he ▸ h _) <|
    .ofOption_bind fun _ ↦ .update_bind <| .ofOption_bind fun _ ↦ .update_bind <|
    .ofOption_bind fun _ ↦ .update_bind <| .require_bind <| .pure _

theorem emits_keypairDecode (pk sk : Bytes) :
    Emits Released.Wiped (keypairDecode S ok pk sk) :=
  .fetch_bind fun _ ↦ .require_bind <| .require_bind <| .bind (emits_keyPubAlloc ok) fun _ ↦
    .bind (emits_keyPrivAlloc ok) fun _ ↦ .onFailure
    (.bind (emits_decodePrivate (fun _ ↦ wiped_cleanse _ _) sk) fun _ ↦ .ofOption_bind fun _ ↦
      .fetch_bind fun _ ↦ .require_bind <| .ofOption_bind fun _ ↦ .update_bind <|
      .require_bind <| .require_bind <| .require_bind <| .update_bind <| .require_bind <|
      .require_bind <| .update_bind <| .require_bind <| .ofAct _)
    (.fetch_bind fun _ ↦ .update_bind <| .bind emits_keyReset fun _ ↦ .ofAct _)

theorem emits_dropSeed (retain : Bool) :
    Emits Released.Wiped (dropSeed retain : Proc v _) :=
  .fetch_bind fun _ ↦ .bind (.ite (.pure _) (emits_clearFree _ _)) fun _ ↦ .ofAct _

theorem emits_qudoKeygen (engine : Engine) : Emits Released.Wiped (qudoKeygen S ok engine) :=
  .fetch_bind fun _ ↦ .cleanup
    (.ofOption_bind fun _ ↦ .require_bind <|
      .emit_bind (fun _ he ↦ List.mem_singleton.mp he ▸ wiped_cleanse _ _) <|
      .require_bind <| .require_bind <| .bind (emits_clearFree _ _) fun _ ↦
      .ofOption_bind fun _ ↦ emits_keypairDecode S ok _ _)
    (emits_dropSeed _)

theorem emits_generateKey {keygen : Proc v Unit}
    (hkeygen : Emits Released.Wiped keygen) (random : Option Seed) :
    Emits Released.Wiped (generateKey ok keygen random) :=
  .fetch_bind fun _ ↦ .bind
    (.fetch_bind fun _ ↦ .ite (.require_bind <| .ofOption_bind fun _ ↦ .ofAct _) (.pure _))
    fun _ ↦ .update_bind <| .cleanup
      (.bind hkeygen fun _ ↦ .forSome fun _ ↦ .fetch_bind fun _ ↦ .ofOption_bind fun _ ↦
        .onFailure (.ofAct _) emits_keyReset)
      (emits_clearFree _ _)

end Operations

/-! ## The decoding of a private key -/

/-- `ossl_ml_dsa_sk_decode` gets as far as reading its input. -/
structure ReadsInput (ok : Call → Bool) (src : Source) (key : Key v) : Prop where
  mayFill : src.mayFill key = true
  pub : key.pubEncoding = none
  length : (src.bytes key).length = v.params.skLen
  vectors : key.priv = none
  allocS1 : ok .allocS1 = true

/-- It gets as far as computing `t0` once more. -/
structure Recomputes (ok : Call → Bool) (src : Source) (key : Key v) : Prop extends
    ReadsInput ok src key where
  encodes : ∃ sk : SecretKey v, src.bytes key = sk.encode
  t1 : key.t1 = none
  dupPriv : key.privEncoding.isSome = true ∨ ok .dupPriv = true
  allocT0 : ok .allocT0 = true
  mdCtxNew : ok .mdCtxNew = true
  allocT1 : ok .allocT1 = true
  allocPolys : ok .allocPolys = true
  expandA : ok .expandA = true

section Decoding

variable (ok : Call → Bool) {key : Key v} {e : Released}

theorem mem_events_publicFromPrivate (he : e ∈ (publicFromPrivate S ok).events key) :
    (ok .allocPolys = true ∧ ok .expandA = true) ∧ (e.Wiped ∨ e.held = .t) := by
  simp only [publicFromPrivate, mem_events_require_bind, mem_events_fetch_bind,
    mem_events_ofOption_bind, mem_events_emit_bind, mem_events_pure, or_false, List.mem_cons,
    List.not_mem_nil] at he
  obtain ⟨hpolys, hA, p, -, rfl | rfl⟩ := he
  · exact ⟨⟨hpolys, hA⟩, .inr rfl⟩
  · exact ⟨⟨hpolys, hA⟩, .inl (wiped_vectorZero _ _)⟩

/-- Encoding the public key and hashing it releases nothing. -/
theorem emits_encodePublic {E : Released → Prop} :
    Emits E (do pkEncode ok; hashPublic S ok : Proc v Unit) :=
  .bind (.require_bind <| .fetch_bind fun _ ↦ .ofOption_bind fun _ ↦ .require_bind <| .ofAct _)
    fun _ ↦ .require_bind <| .fetch_bind fun _ ↦ .ofOption_bind fun _ ↦ .ofAct _

theorem mem_events_checkPublic {tr : Bytes} (he : e ∈ (checkPublic S ok tr).events key) :
    (key.t1 = none ∧ ok .allocT0 = true ∧ ok .mdCtxNew = true ∧ ok .allocT1 = true ∧
      ok .allocPolys = true ∧ ok .expandA = true) ∧
      (e.Wiped ∨ e.held = .t ∨ e.held = .t0) := by
  rcases mem_events_bind.mp he with he | ⟨_, _, -, he⟩
  swap
  · simp only [mem_events_fetch_bind, mem_events_require] at he
  simp only [keyPublicFromPrivate, mem_events_require_bind] at he
  obtain ⟨hT0, hctx, he⟩ := he
  rcases mem_events_bind.mp he with he | ⟨_, key₁, hrun, he⟩
  · exact (emits_keyPubAlloc (E := fun _ ↦ False) ok key e he).elim
  obtain ⟨⟨ht1, hT1⟩, -, rfl⟩ := (yields_keyPubAlloc ok key _ _).mp hrun
  rcases mem_events_bind.mp he with he | ⟨t, key₂, hrun, he⟩
  · obtain ⟨⟨hpolys, hA⟩, h⟩ := mem_events_publicFromPrivate S ok he
    exact ⟨⟨ht1, hT0, hctx, hT1, hpolys, hA⟩, h.imp_right .inl⟩
  -- the vector `t0` is there once `public_from_private` has succeeded
  obtain ⟨hpolys, hA⟩ : ok .allocPolys = true ∧ ok .expandA = true := by
    simp only [publicFromPrivate, run_bind, run_require, Act.require_bind_eq_some] at hrun
    exact ⟨hrun.1, hrun.2.1⟩
  refine ⟨⟨ht1, hT0, hctx, hT1, hpolys, hA⟩, ?_⟩
  simp only [mem_events_emit_bind, List.mem_singleton, mem_events_update_bind,
    mem_events_fetch_bind, mem_events_ofOption_bind, mem_events_require_bind] at he
  obtain rfl | ⟨_, -, -, he⟩ := he
  · exact .inr (.inr rfl)
  · exact (emits_encodePublic (E := fun _ ↦ False) S ok _ e he).elim

/-- What the decoding of a private key may leave: `tr`, and `t` and `t0` if it gets so far. -/
theorem mem_events_skDecode {src : Source} (he : e ∈ (skDecode S ok src).events key) :
    e.Wiped ∨ ReadsInput ok src key ∧
      (e.held = .inputTr ∨ Recomputes ok src key ∧ (e.held = .t ∨ e.held = .t0)) := by
  rw [skDecode, mem_events_fetch_bind] at he
  rcases mem_events_bind.mp he with he | ⟨_, _, hrun, he⟩
  · exact .inl (emits_clearFree _ _ key e he)
  obtain ⟨-, rfl⟩ := Act.pure_eq_some.mp hrun
  simp only [mem_events_update_bind, mem_events_require_bind, Bool.and_eq_true,
    Option.isNone_iff_eq_none, beq_iff_eq] at he
  obtain ⟨⟨hfill, hpub⟩, hlen, he⟩ := he
  rcases mem_events_bind.mp he with he | ⟨_, key₁, hrun, he⟩
  · exact (emits_keyPrivAlloc (E := fun _ ↦ False) ok _ e he).elim
  obtain ⟨⟨hpriv, hS1⟩, -, rfl⟩ := (yields_keyPrivAlloc ok _ _ _).mp hrun
  have hreads : ReadsInput ok src key := ⟨hfill, hpub, hlen, hpriv, hS1⟩
  rcases mem_events_bind.mp he with he | ⟨tr, key₂, hrun, he⟩
  · exact .inr ⟨hreads, .inl (emits_decodePrivate (E := fun e ↦ e.held = .inputTr)
      (fun _ ↦ rfl) _ _ e he)⟩
  obtain ⟨sk, hsk, -, rfl⟩ := (decodePrivate_eq_some rfl).mp hrun
  simp only [mem_events_require_bind, mem_events_update_bind, Bool.or_eq_true] at he
  obtain ⟨hdup, he⟩ := he
  rcases mem_events_onFailure.mp he with he | ⟨-, he⟩
  · obtain ⟨⟨ht1, hT0, hctx, hT1, hpolys, hA⟩, h⟩ := mem_events_checkPublic S ok he
    exact h.imp_right fun h ↦ ⟨hreads, .inr ⟨⟨hreads, ⟨sk, hsk⟩, ht1, hdup, hT0, hctx, hT1, hpolys,
      hA⟩, h⟩⟩
  · exact .inl (emits_keyReset _ e he)

/-- A private key that is decoded into an empty key leaves its `t0` behind. -/
theorem t0_mem_events_skDecode {ok : Call → Bool} (hok : ∀ c, ok c = true)
    {sk : SecretKey v} (hsk : sk.Consistent S) (hpub : key.pubEncoding = none)
    (henc : key.privEncoding = none) (ht1 : key.t1 = none) (hpriv : key.priv = none) :
    ⟨.t0, coeffs sk.t0.repr⟩ ∈ (skDecode S ok (.buffer sk.encode)).events key := by
  have ht0 : sk.t0 = fun i j ↦ (Fips204.power2Round (publicVector S sk.rho sk.s1 sk.s2 i j)).2 :=
    funext fun i ↦ funext fun j ↦ hsk.t0_eq i j
  have hfill : (Source.buffer sk.encode).mayFill key = true := Option.isNone_iff_eq_none.mpr henc
  rw [skDecode, mem_events_fetch_bind]
  refine mem_events_bind.mpr (.inr ⟨(), key, rfl, ?_⟩)
  simp only [mem_events_update_bind, mem_events_require_bind, hfill, hpub, Option.isNone_none,
    Bool.and_self, true_and, Source.bytes, sk.length_encode, beq_self_eq_true]
  refine mem_events_bind.mpr (.inr ⟨(), _, (yields_keyPrivAlloc ok _ _ _).mpr
    ⟨⟨hpriv, hok _⟩, rfl, rfl⟩, ?_⟩)
  refine mem_events_bind.mpr (.inr ⟨_, _, (decodePrivate_eq_some rfl).mpr
    ⟨sk, rfl, rfl, rfl⟩, ?_⟩)
  simp only [mem_events_require_bind, mem_events_update_bind, hok, Bool.or_true, true_and]
  refine mem_events_onFailure.mpr (.inl (mem_events_bind.mpr (.inl ?_)))
  simp only [keyPublicFromPrivate, mem_events_require_bind, hok, true_and]
  refine mem_events_bind.mpr (.inr ⟨(), _, (yields_keyPubAlloc ok _ _ _).mpr
    ⟨⟨ht1, hok _⟩, rfl, rfl⟩, ?_⟩)
  refine mem_events_bind.mpr (.inr ⟨_, _, (yields_publicFromPrivate S ok _ rfl rfl rfl _ _).mpr
    ⟨⟨hok _, hok _⟩, rfl, rfl⟩, ?_⟩)
  rw [mem_events_emit_bind, List.mem_singleton, ht0]
  exact .inl rfl

end Decoding

/-! ## Histories -/

/-- What the operations of a history release, and `ossl_ml_dsa_key_free` at its end. -/
def released (calls : List Invocation) : List Released :=
  eventsOf (perform S) calls keyNew ++ keyFree.events (after (perform S) calls (keyNew : Key v))

theorem mem_events_perform {i : Invocation} {key : Key v} {e : Released}
    (he : e ∈ (perform S i).events key) :
    e.Wiped ∨ ∃ src, i.op = .skDecode src ∧ ReadsInput i.ok src key ∧
      (e.held = .inputTr ∨ Recomputes i.ok src key ∧ (e.held = .t ∨ e.held = .t0)) := by
  obtain ⟨op, ok⟩ := i
  cases op with
  | setPrekey flagsSet flagsClr seed sk => exact .inl (emits_setPrekey ok _ _ _ _ key e he)
  | pkDecode input =>
    refine .inl (Emits.fetch_bind (E := Released.Wiped) (fun _ ↦ ?_) key e he)
    exact .require_bind <| .require_bind <| .bind (emits_keyPubAlloc ok) fun _ ↦
      .require_bind <| .ofOption_bind fun _ ↦ .update_bind <| .ofOption_bind fun _ ↦
      .update_bind <| .require_bind <| .update_bind <| .require_bind <| .ofAct _
  | skDecode src =>
    exact (mem_events_skDecode S ok he).imp_right fun h ↦ ⟨src, rfl, h⟩
  | generateKey engine random =>
    exact .inl (emits_generateKey ok (emits_qudoKeygen S ok engine) random key e he)
  | keyDup selection onCopy =>
    refine .inl (Emits.bind (E := Released.Wiped) (emits_keyDup ok selection) (fun copy ↦ ?_)
      key e he)
    exact .ite (.bind emits_keyFree fun _ ↦ .ofAct _) (.bind (.apart emits_keyFree) fun _ ↦ .pure _)
  | keyReset => exact .inl (emits_keyReset key e he)

/-- If no private key is decoded so far that `t0` is computed once more, nothing is left in released
memory but the public `tr`; and not even that if no private key is read. -/
theorem key_secrets_wiped (calls : List Invocation)
    (h : Along (perform S) (fun i key ↦ ∀ src, i.op = .skDecode src → ¬ Recomputes i.ok src key)
      calls (keyNew : Key v)) :
    (∀ e ∈ released S calls, e.held ≠ .inputTr → e.Wiped) ∧
      (Along (perform S) (fun i key ↦ ∀ src, i.op = .skDecode src → ¬ ReadsInput i.ok src key)
        calls (keyNew : Key v) → ∀ e ∈ released S calls, e.Wiped) := by
  have hfree : ∀ e ∈ keyFree.events (after (perform S) calls (keyNew : Key v)), e.Wiped :=
    emits_keyFree _
  refine ⟨fun e he hheld ↦ ?_, fun hread e he ↦ ?_⟩
  · rcases List.mem_append.mp he with he | he
    · refine h.events (E := fun e ↦ e.held ≠ .inputTr → e.Wiped) (fun i key hi e he hheld ↦ ?_) e he
        hheld
      rcases mem_events_perform S he with hwiped | ⟨src, hop, -, htr | ⟨hrec, -⟩⟩
      · exact hwiped
      · exact absurd htr hheld
      · exact absurd hrec (hi src hop)
    · exact hfree e he
  · rcases List.mem_append.mp he with he | he
    · refine hread.events (fun i key hi e he ↦ ?_) e he
      rcases mem_events_perform S he with hwiped | ⟨src, hop, hreads, -⟩
      · exact hwiped
      · exact absurd hreads (hi src hop)
    · exact hfree e he

/-- A key is generated from a seed and freed: all that is released is zeroed. -/
theorem key_secrets_wiped_generated :
    let rs := released (zeroSampling .mlDsa44) (generatedFromSeed (zeroSampling .mlDsa44))
    (∀ e ∈ rs, e.held ≠ .inputTr → e.Wiped) ∧ ∀ e ∈ rs, e.Wiped := by
  have hnone {R : Invocation → Key .mlDsa44 → Source → Prop} :
      Along (perform (zeroSampling .mlDsa44))
        (fun i key ↦ ∀ src, i.op = .skDecode src → ¬ R i key src)
        (generatedFromSeed (zeroSampling .mlDsa44)) keyNew :=
    ⟨fun _ h ↦ Op.noConfusion h, fun _ h ↦ Op.noConfusion h, trivial⟩
  obtain ⟨hwiped, hall⟩ := key_secrets_wiped _ _ hnone
  exact ⟨hwiped, hall hnone⟩

/-- Samplers with which the coefficients of `s2` are one and all others zero. -/
def oneSampling : Sampling .mlDsa44 where
  shake256 := fun _ _ ↦ 0
  expandA := fun _ _ _ ↦ 0
  expandS := fun _ ↦
    (fun _ ↦ ⟨fun _ ↦ 0, fun _ ↦ by simp⟩,
      fun _ ↦ ⟨fun _ ↦ 1, fun _ ↦ abs_one.trans_le (by exact_mod_cast (by decide : 1 ≤ 2))⟩)
  sampleInBall := (zeroSampling .mlDsa44).sampleInBall

theorem t0_oneSampling (seed : Bytes) (i : Fin (Variant.mlDsa44).k) (j : Fin numCoeff) :
    (keyGen oneSampling seed).2.t0 i j = 1 := by
  have ht (rho : Bytes) (s1 : PolyVec (Variant.mlDsa44).l ℤ) :
      publicVector oneSampling rho s1 (fun _ _ ↦ 1) i j = 1 := by
    have hdot : dot (oneSampling.expandA rho i) (fun j ↦ (s1 j).residue) j = 0 :=
      Finset.sum_eq_zero fun l _ ↦ congrFun (Negacyclic.negacyclic_zero_left _) j
    rw [publicVector, Pi.add_apply, hdot, zero_add, Poly.residue, Int.cast_one]
  rw [(keyGen_consistent oneSampling seed).t0_eq,
    show (keyGen oneSampling seed).2.s2 = fun _ _ ↦ 1 from rfl, ht]
  decide +kernel

/-- A private key is decoded and the key is freed: `t0` is left in released memory. -/
theorem sk_decode_leaves_t0 :
    let sk := (keyGen oneSampling (List.replicate 32 7)).2
    ∃ e ∈ released oneSampling [⟨.skDecode (.buffer sk.encode), fun _ ↦ true⟩],
      e.held = .t0 ∧ e.content = coeffs sk.t0.repr ∧ ¬ e.Wiped := by
  intro sk
  refine ⟨⟨.t0, coeffs sk.t0.repr⟩, ?_, rfl, rfl, fun hwiped ↦ ?_⟩
  · refine List.mem_append_left _ (List.mem_append_left _ ?_)
    exact t0_mem_events_skDecode oneSampling (fun _ ↦ rfl) (keyGen_consistent _ _) rfl rfl
      rfl rfl
  · have hmem (i j) : sk.t0.repr i j ∈ coeffs sk.t0.repr :=
      List.mem_flatten.mpr ⟨_, List.mem_ofFn.mpr ⟨i, rfl⟩, List.mem_ofFn.mpr ⟨j, rfl⟩⟩
    have hzero : (sk.t0 ⟨0, by decide⟩ ⟨0, by decide⟩ : ZMod q).val = 0 := hwiped _ (hmem _ _)
    rw [t0_oneSampling] at hzero
    exact absurd hzero (by decide +kernel)

end Ossl

end MlDsa
