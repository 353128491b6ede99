import QudoPqc.SlhDsa.Correctness
import QudoPqc.Wrapper.Keygen

/-!
# SLH-DSA key generation and its random source

`slh_keygen` asks its random source for SK.seed, SK.prf and PK.seed, which the source writes
straight into the caller's secret key buffer. It does not look at what the source returns. This file
models one call of the key pair functions of `slhdsa_wrapper.c`, with the buffers as they are before
and after, and follows a failure of the source up to the status of the call.

## What the call depends on

`Platform` holds what the wrapper calls outside itself: the state of the module, the random source
`qudo_slhdsa_randombytes`, memory and the self-test callback. Its state is arbitrary, so a source
may fail now and succeed later. `Engine` holds the parameter sets with which `slh_dsa.c` computes.

## What catches a failure

Nothing in `slh_keygen` or `internal_keypair` does. In the FIPS build the pairwise test signs with
the new key and needs `n` random bytes of its own, so a source that stays broken is noticed there.
The direct functions run no pairwise test.
-/

namespace SlhDsa

open Codec QudoPqc

/-- Whether `QUDO_FIPS_MODULE` is defined. -/
inductive Build where
  | plain
  | fips
  deriving DecidableEq, Repr

/-- What the wrapper calls outside itself, over a state of type `σ`. -/
structure Platform (σ : Type) where
  /-- `qudo_pqc_is_running_or_selftest`. -/
  isRunningOrSelftest : σ → Bool
  /-- `qudo_pqc_is_self_testing`. -/
  isSelfTesting : σ → Bool
  /-- `QUDO_FIPS_IND_CHECK` on a handle. -/
  fipsIndCheck : σ → Bool
  /-- `qudo_slhdsa_randombytes` on a buffer: whether it reports success, and what it leaves there.
  -/
  randombytes : Bytes → σ → (Bool × Bytes) × σ
  length_randombytes : ∀ buf s, (randombytes buf s).1.2.length = buf.length
  /-- `qudo_malloc`. -/
  malloc : σ → Bool × σ
  /-- `qudo_st_corrupt`. -/
  stCorrupt : Bytes → σ → Bytes × σ
  /-- `qudo_st_end`, with the entry in the audit log. -/
  stEnd : Bool → σ → σ
  /-- `qudo_pqc_set_error_state(QUDO_ST_TYPE_PCT)`. -/
  setErrorState : σ → σ

/-- The parameter sets that `get_native_param` returns, and what is in the local variables of the
engine when its functions start. -/
structure Engine where
  Pre : SlhdsaParam → Type
  prm : ∀ ps, Native.SlhParam (Pre ps)
  stack : ∀ ps, Native.Local (Pre ps)
  n_eq : ∀ ps, (prm ps).n = ps.n

namespace Engine

variable (engine : Engine) (ps : SlhdsaParam)

/-- `pk_root` in `slh_keygen`, from the secret key with a root of zeros. -/
def root (sk : Bytes) : Bytes :=
  let prm := engine.prm ps
  let var := prm.mkVar (engine.stack ps).var none (some sk)
  (Native.xmssNode prm var 0 prm.hp ((engine.stack ps).adrs.zero.setLayerAddress (prm.d - 1))).1

/-- `slh_sign` with an empty context. -/
def sign (sk msg addrnd : Bytes) : Bytes :=
  Native.slhSign (engine.prm ps) (engine.stack ps) msg [] sk (some addrnd)

/-- `slh_verify` with an empty context. -/
def verify (pk msg sig : Bytes) : Bool :=
  Native.slhVerify (engine.prm ps) (engine.stack ps) msg sig [] pk

/-- The functions of the parameter sets are those of FIPS 205 for some hash functions. -/
def Standard : Prop := ∀ ps, ∃ H Good, Native.Realizes (engine.prm ps) H Good

end Engine

/-- `memcpy(buf + off, bs, …)`. -/
def writeAt (buf : Bytes) (off : ℕ) (bs : Bytes) : Bytes :=
  buf.take off ++ writeFront (buf.drop off) bs

section Functions

variable {σ : Type} (build : Build) (engine : Engine) (platform : Platform σ)

/-! ## The engine's key generation -/

/-- `slh_keygen`, with its return value and the public and the secret key. -/
def slhKeygen (ps : SlhdsaParam) (pk sk : Bytes) : StateM σ (Int × Bytes × Bytes) := fun s ↦
  let n := ps.n
  -- the first component, whether the source succeeded, is not looked at
  let ((_, seeds), s') := platform.randombytes (sk.take (3 * n)) s
  let sk := writeFront sk seeds
  let pk := writeFront pk ((sk.drop (2 * n)).take n)
  let sk := writeAt sk (3 * n) (List.replicate n 0)
  let pkRoot := engine.root ps sk
  let sk := writeAt sk (3 * n) pkRoot
  let pk := writeAt pk n pkRoot
  ((0, pk, sk), s')

/-- `internal_keypair`. -/
def internalKeypair (ps : SlhdsaParam) (pk sk : Bytes) : StateM σ (Status × Bytes × Bytes) := do
  let (ret, pk, sk) ← slhKeygen engine platform ps pk sk
  return (if ret = 0 then .success else .errorRng, pk, sk)

/-! ## The gates -/

/-- `QUDO_FIPS_GATE`, which is empty outside the FIPS build. -/
def gate : StateM σ Bool := fun s ↦
  (decide (build = .plain) || platform.isRunningOrSelftest s, s)

/-- `QUDO_FIPS_IND_CHECK`, which does nothing without a handle. -/
def indCheck (handle : Bool) : StateM σ Bool := fun s ↦
  (decide (build = .plain) || !handle || platform.fipsIndCheck s, s)

/-- `variant_keypair_*`. -/
def variantKeypair (ps : SlhdsaParam) (pk sk : Bytes) : StateM σ (Status × Bytes × Bytes) := do
  if !(← gate build platform) then
    return (.error, pk, sk)
  internalKeypair engine platform ps pk sk

/-- `QUDO_SLHDSA_*_keypair`, the function of the direct interface for the parameter set. -/
def directKeypair (ps : SlhdsaParam) (buffers : KeyBuffers) : StateM σ KeygenResult := do
  if !(← gate build platform) then
    return ⟨.error, buffers⟩
  match buffers.publicKey, buffers.secretKey with
  | some pk, some sk =>
    let (status, pk, sk) ← internalKeypair engine platform ps pk sk
    return ⟨status, ⟨some pk, some sk, buffers.seedOut⟩⟩
  | _, _ => return ⟨.errorNullPtr, buffers⟩

/-! ## The pairwise test -/

/-- `internal_sign` into a buffer that is large enough. -/
def internalSign (ps : SlhdsaParam) (msg sk : Bytes) : StateM σ Reply := do
  let (drawn, addrnd) ← platform.randombytes (List.replicate ps.n 0)
  if !drawn then
    return ⟨.errorRng, [], []⟩
  let sig := engine.sign ps sk msg addrnd
  if sig.length = 0 then
    return ⟨.errorCrypto, [], []⟩
  return ⟨.success, sig, []⟩

/-- `QUDO_SLHDSA_sign`, which reaches `internal_sign` through `variant_sign_*` and its gate. -/
def sign (ps : SlhdsaParam) (msg sk : Bytes) : StateM σ Reply := do
  if !(← gate build platform) then
    return ⟨.error, [], []⟩
  if !(← indCheck build platform true) then
    return ⟨.error, [], []⟩
  if !(← gate build platform) then
    return ⟨.error, [], []⟩
  internalSign engine platform ps msg sk

/-- `QUDO_SLHDSA_verify`, which reaches `internal_verify` through `variant_verify_*`. -/
def verify (ps : SlhdsaParam) (msg sig pk : Bytes) : StateM σ Status := do
  if !(← gate build platform) then
    return .error
  if !(← indCheck build platform true) then
    return .error
  if !(← gate build platform) then
    return .error
  return if engine.verify ps pk msg sig then .success else .errorVerify

/-- What `qudo_pqc_slhdsa_pct` tests. -/
def consistent (ps : SlhdsaParam) (pk sk : Bytes) : StateM σ Bool := do
  let msg := List.replicate 16 0
  if !(← platform.malloc) then
    return false
  let sig ← sign build engine platform ps msg sk
  if sig.status ≠ .success then
    return false
  let sigBuf ← platform.stCorrupt sig.out
  let status ← verify build engine platform ps msg sigBuf pk
  return decide (status = .success)

/-- `qudo_pqc_slhdsa_pct`, which nobody calls with a NULL pointer. -/
def slhdsaPct (ps : SlhdsaParam) (pk sk : Bytes) : StateM σ Bool := fun s ↦
  if platform.isSelfTesting s then (true, s)
  else
    let (passed, s) := consistent build engine platform ps pk sk s
    (passed, platform.stEnd passed s)

/-! ## The function with a handle -/

/-- The end of `QUDO_SLHDSA_keypair`: in the FIPS build, the pairwise test. -/
def pairwiseTested (ps : SlhdsaParam) (pk sk : Bytes) : StateM σ KeygenResult := fun s ↦
  if build = .fips ∧ platform.isSelfTesting s = false then
    match slhdsaPct build engine platform ps pk sk s with
    | (true, s) => (⟨.success, ⟨some pk, some sk, none⟩⟩, s)
    | (false, s) =>
      (⟨.errorCrypto, ⟨some (cleanse pk ps.lengths.1), some (cleanse sk ps.lengths.2), none⟩⟩,
        platform.setErrorState s)
  else (⟨.success, ⟨some pk, some sk, none⟩⟩, s)

/-- `QUDO_SLHDSA_keypair`. -/
def keypair (sig : Option SlhdsaParam) (buffers : KeyBuffers) : StateM σ KeygenResult := do
  if !(← gate build platform) then
    return ⟨.error, buffers⟩
  if !(← indCheck build platform sig.isSome) then
    return ⟨.error, buffers⟩
  match sig, buffers.publicKey, buffers.secretKey with
  | some ps, some pk, some sk =>
    let (rc, pk, sk) ← variantKeypair build engine platform ps pk sk
    if rc ≠ .success then
      return ⟨rc, ⟨some pk, some sk, none⟩⟩
    pairwiseTested build engine platform ps pk sk
  | _, _, _ => return ⟨.errorNullPtr, buffers⟩

end Functions

/-! ## The status of a call -/

section Status

variable {σ : Type} (build : Build) (engine : Engine) (platform : Platform σ) (ps : SlhdsaParam)
  (pk sk : Bytes) (s : σ)

/-- The state after the request which `slh_keygen` makes. -/
def afterRequest : σ := (platform.randombytes (sk.take (3 * ps.n)) s).2

/-- The keys `slh_keygen` makes of what the request left in the buffer. -/
def generated : Bytes × Bytes := (slhKeygen engine platform ps pk sk s).1.2

/-- The gate and the indicator check let a call with a handle through. -/
def Open : Prop :=
  build = .plain ∨ platform.isRunningOrSelftest s = true ∧ platform.fipsIndCheck s = true

variable {build platform s}

theorem bind_of_eq {α β : Type} {p : StateM σ α} {f : α → StateM σ β} {a : α} {s' : σ}
    (h : p s = (a, s')) : (p >>= f) s = f a s' := by
  simp only [bind, StateT.bind, h]

/-- A check that passes leaves the rest of the call. -/
theorem check_pass {α : Type} {check : StateM σ Bool} {stop rest : StateM σ α} {s' : σ}
    (h : check s = (true, s')) : (check >>= fun b ↦ if !b then stop else rest) s = rest s' :=
  bind_of_eq h

/-- A check that fails ends the call. -/
theorem check_fail {α : Type} {check : StateM σ Bool} {stop rest : StateM σ α} {s' : σ}
    (h : check s = (false, s')) : (check >>= fun b ↦ if !b then stop else rest) s = stop s' :=
  bind_of_eq h

theorem gate_open (h : build = .plain ∨ platform.isRunningOrSelftest s = true) :
    gate build platform s = (true, s) := by
  rcases h with rfl | h
  · rfl
  · rw [gate, h, Bool.or_true]

theorem gate_closed (h : ¬(build = .plain ∨ platform.isRunningOrSelftest s = true)) :
    gate build platform s = (false, s) := by
  rw [not_or, Bool.not_eq_true] at h
  rw [gate, h.2, decide_eq_false h.1, Bool.or_false]

theorem Open.gate (h : Open build platform s) : gate build platform s = (true, s) :=
  gate_open (h.imp_right And.left)

theorem Open.indCheck (h : Open build platform s) (handle : Bool) :
    indCheck build platform handle s = (true, s) := by
  rcases h with rfl | ⟨-, h⟩
  · rfl
  · rw [SlhDsa.indCheck, h, Bool.or_true]

/-- The two checks at the start of a function. -/
theorem checks_open {α : Type} {stop rest : StateM σ α} (h : Open build platform s) :
    (SlhDsa.gate build platform >>= fun b ↦ if !b then stop else
      SlhDsa.indCheck build platform true >>= fun b ↦ if !b then stop else rest) s = rest s :=
  (check_pass h.gate).trans (check_pass (h.indCheck true))

theorem checks_closed {α : Type} {stop rest : StateM σ α} (h : ¬Open build platform s) :
    (SlhDsa.gate build platform >>= fun b ↦ if !b then stop else
      SlhDsa.indCheck build platform true >>= fun b ↦ if !b then stop else rest) s = stop s := by
  rw [Open, not_or] at h
  obtain ⟨hbuild, hchecks⟩ := h
  by_cases hgate : platform.isRunningOrSelftest s = true
  · have hind : platform.fipsIndCheck s = false :=
      Bool.eq_false_iff.mpr fun hind ↦ hchecks ⟨hgate, hind⟩
    have hcheck : SlhDsa.indCheck build platform true s = (false, s) := by
      rw [SlhDsa.indCheck, decide_eq_false hbuild, hind]
      rfl
    exact (check_pass (gate_open (.inr hgate))).trans (check_fail hcheck)
  · exact check_fail (gate_closed (not_or.mpr ⟨hbuild, hgate⟩))

variable (build platform s)

/-- A direct function succeeds as soon as the module is running. -/
theorem directKeypair_success_iff :
    (directKeypair build engine platform ps ⟨some pk, some sk, none⟩ s).1.status = .success ↔
      build = .plain ∨ platform.isRunningOrSelftest s = true := by
  by_cases h : build = .plain ∨ platform.isRunningOrSelftest s = true
  · rw [directKeypair, check_pass (gate_open h)]
    exact iff_of_true rfl h
  · rw [directKeypair, check_fail (gate_closed h)]
    exact iff_of_false Status.noConfusion h

/-- With a handle, what decides is the pairwise test on the generated keys. -/
theorem keypair_open (h : Open build platform s) :
    keypair build engine platform (some ps) ⟨some pk, some sk, none⟩ s =
      pairwiseTested build engine platform ps (generated engine platform ps pk sk s).1
        (generated engine platform ps pk sk s).2 (afterRequest platform ps sk s) := by
  have hvariant : variantKeypair build engine platform ps pk sk s =
      ((.success, generated engine platform ps pk sk s), afterRequest platform ps sk s) :=
    check_pass h.gate
  refine (checks_open h).trans ?_
  dsimp only
  rw [bind_of_eq hvariant]
  rfl

/-! ## The generated keys -/

section Generated

variable {engine ps pk sk}

theorem writeAt_append {front back bs : Bytes} {off : ℕ} (hoff : front.length = off)
    (hbs : bs.length = back.length) : writeAt (front ++ back) off bs = front ++ bs := by
  rw [writeAt, List.take_left' hoff, List.drop_left' hoff, writeFront,
    List.take_of_length_le hbs.le, hbs, List.drop_length, List.append_nil]

/-- Keys from seeds of the right length sign and verify. -/
theorem Engine.Standard.round_trip (h : engine.Standard) {seeds : Bytes}
    (hseeds : seeds.length = 3 * ps.n) (msg addrnd : Bytes) :
    let root := engine.root ps (seeds ++ List.replicate ps.n 0)
    root.length = ps.n ∧ (addrnd.length = ps.n →
      engine.sign ps (seeds ++ root) msg addrnd ≠ [] ∧
        engine.verify ps (seeds.drop (2 * ps.n) ++ root) msg
          (engine.sign ps (seeds ++ root) msg addrnd) = true) := by
  obtain ⟨H, Good, R⟩ := h ps
  have hn := engine.n_eq ps
  obtain ⟨a, b, c, rfl, ha, hb, hc⟩ : ∃ a b c, seeds = a ++ b ++ c ∧ a.length = (engine.prm ps).n ∧
      b.length = (engine.prm ps).n ∧ c.length = (engine.prm ps).n := by
    refine ⟨seeds.take ps.n, (seeds.drop ps.n).take ps.n, seeds.drop (ps.n + ps.n), ?_, ?_, ?_, ?_⟩
    · rw [← List.take_add, List.take_append_drop]
    all_goals simp only [hn, List.length_take, List.length_drop]; omega
  have hdrop : (a ++ b ++ c).drop (2 * ps.n) = c :=
    List.drop_left' (by rw [List.length_append, ha, hb]; omega)
  have hkeys : Native.slhKeygenInternal (engine.prm ps) (engine.stack ps) a b c =
      (a ++ b ++ c ++ engine.root ps (a ++ b ++ c ++ List.replicate ps.n 0),
        c ++ engine.root ps (a ++ b ++ c ++ List.replicate ps.n 0)) := by
    rw [← hn]
    rfl
  have hroot := congrArg Prod.snd
    (hkeys.symm.trans (Native.slhKeygenInternal_eq R (engine.stack ps) ha hb hc))
  rw [hdrop]
  refine ⟨?_, fun hrnd ↦ ?_⟩
  · rw [List.append_cancel_left hroot, Fips205.length_slhRoot, hn]
  · have htrip := Native.verifyWith_signWith_keygen R (engine.stack ps) (engine.stack ps)
      (engine.stack ps) ha hb hc (some addrnd) (by simp [hrnd, hn]) msg (some [])
    rw [hkeys] at htrip
    refine ⟨List.ne_nil_of_length_pos (htrip.1.symm ▸ ?_), htrip.2⟩
    rw [Native.slhSigSz, hn]
    exact Nat.mul_pos (by omega) (by cases ps <;> decide)

/-- The keys in buffers of the right lengths. -/
theorem generated_eq (h : engine.Standard) (hpk : pk.length = 2 * ps.n)
    (hsk : sk.length = 4 * ps.n) :
    let seeds := (platform.randombytes (sk.take (3 * ps.n)) s).1.2
    let root := engine.root ps (seeds ++ List.replicate ps.n 0)
    generated engine platform ps pk sk s = (seeds.drop (2 * ps.n) ++ root, seeds ++ root) := by
  have hseeds := platform.length_randombytes (sk.take (3 * ps.n)) s
  rw [List.length_take_of_le (by omega)] at hseeds
  simp only [generated, slhKeygen]
  generalize (platform.randombytes (sk.take (3 * ps.n)) s).1.2 = seeds at hseeds ⊢
  have hroot := (h.round_trip hseeds [] []).1
  have hfront : writeFront sk seeds = seeds ++ sk.drop (3 * ps.n) := by
    rw [writeFront, List.take_of_length_le (by omega), hseeds]
  have hpublic : (seeds.drop (2 * ps.n)).length = ps.n := by
    rw [List.length_drop]
    omega
  have hseed : ((seeds ++ sk.drop (3 * ps.n)).drop (2 * ps.n)).take ps.n =
      seeds.drop (2 * ps.n) := by
    rw [List.drop_append_of_le_length (by omega), List.take_left' hpublic]
  have hpk' : writeFront pk (seeds.drop (2 * ps.n)) = seeds.drop (2 * ps.n) ++ pk.drop ps.n := by
    rw [writeFront, List.take_of_length_le (by omega), hpublic]
  rw [hfront, hseed, hpk', writeAt_append hseeds (by simp; omega),
    writeAt_append hpublic (by simp; omega), writeAt_append hseeds (by simp [hroot])]

end Generated

/-! ## The pairwise test -/

/-- What the pairwise test needs: memory, random bytes for the signature, and open checks before
signing and before verification. -/
structure CanTest (s : σ) : Prop where
  malloc : (platform.malloc s).1 = true
  signs : Open .fips platform (platform.malloc s).2
  random : (platform.randombytes (List.replicate ps.n 0) (platform.malloc s).2).1.1 = true
  verifies : Open .fips platform
    (platform.randombytes (List.replicate ps.n 0) (platform.malloc s).2).2

section Consistent

variable {engine ps pk sk}

/-- The test on keys that sign and verify. -/
theorem consistent_iff (hcorrupt : ∀ buf s, platform.stCorrupt buf s = (buf, s))
    (hkeys : ∀ addrnd : Bytes, addrnd.length = ps.n →
      engine.sign ps sk (List.replicate 16 0) addrnd ≠ [] ∧
        engine.verify ps pk (List.replicate 16 0)
          (engine.sign ps sk (List.replicate 16 0) addrnd) = true) :
    (consistent .fips engine platform ps pk sk s).1 = true ↔ CanTest platform ps s := by
  rcases hmalloc : platform.malloc s with ⟨allocated, s₁⟩
  cases allocated with
  | false =>
    rw [consistent, check_fail hmalloc]
    exact iff_of_false Bool.false_ne_true fun h ↦ by simpa [hmalloc] using h.malloc
  | true =>
    rw [consistent, check_pass hmalloc]
    by_cases hsigns : Open .fips platform s₁
    · rcases hdraw : platform.randombytes (List.replicate ps.n 0) s₁ with ⟨⟨drawn, addrnd⟩, s₂⟩
      have hsign : sign .fips engine platform ps (List.replicate 16 0) sk s₁ =
          internalSign engine platform ps (List.replicate 16 0) sk s₁ :=
        (checks_open hsigns).trans (check_pass hsigns.gate)
      cases drawn with
      | false =>
        have hfailed : internalSign engine platform ps (List.replicate 16 0) sk s₁ =
            (⟨.errorRng, [], []⟩, s₂) := bind_of_eq hdraw
        rw [bind_of_eq (hsign.trans hfailed)]
        exact iff_of_false Bool.false_ne_true fun h ↦ by simpa [hmalloc, hdraw] using h.random
      | true =>
        have hlen : addrnd.length = ps.n := by
          have hsame := platform.length_randombytes (List.replicate ps.n 0) s₁
          rwa [hdraw, List.length_replicate] at hsame
        obtain ⟨hne, hverify⟩ := hkeys addrnd hlen
        have hsigned : internalSign engine platform ps (List.replicate 16 0) sk s₁ =
            (⟨.success, engine.sign ps sk (List.replicate 16 0) addrnd, []⟩, s₂) :=
          (bind_of_eq hdraw).trans (congrFun (if_neg (List.length_eq_zero_iff.not.mpr hne)) s₂)
        rw [bind_of_eq (hsign.trans hsigned), if_neg (not_not.mpr rfl), bind_of_eq (hcorrupt _ _)]
        by_cases hverifies : Open .fips platform s₂
        · have hverified : verify .fips engine platform ps (List.replicate 16 0)
              (engine.sign ps sk (List.replicate 16 0) addrnd) pk s₂ = (.success, s₂) := by
            refine (checks_open hverifies).trans ((check_pass hverifies.gate).trans ?_)
            rw [hverify]
            rfl
          rw [bind_of_eq hverified]
          exact iff_of_true rfl ⟨by rw [hmalloc], by rwa [hmalloc], by rw [hmalloc, hdraw],
            by rwa [hmalloc, hdraw]⟩
        · have hrefused : verify .fips engine platform ps (List.replicate 16 0)
              (engine.sign ps sk (List.replicate 16 0) addrnd) pk s₂ = (.error, s₂) :=
            checks_closed hverifies
          rw [bind_of_eq hrefused]
          refine iff_of_false Bool.false_ne_true fun h ↦ hverifies ?_
          simpa [hmalloc, hdraw] using h.verifies
    · have hrefused : sign .fips engine platform ps (List.replicate 16 0) sk s₁ =
          (⟨.error, [], []⟩, s₁) := checks_closed hsigns
      rw [bind_of_eq hrefused]
      refine iff_of_false Bool.false_ne_true fun h ↦ hsigns ?_
      simpa [hmalloc] using h.signs

/-- The pairwise test passes on the keys that were generated. -/
theorem slhdsaPct_generated (hengine : engine.Standard) (hpk : pk.length = 2 * ps.n)
    (hsk : sk.length = 4 * ps.n) (hcorrupt : ∀ buf s, platform.stCorrupt buf s = (buf, s)) (s' : σ)
    (hself : platform.isSelfTesting s' = false) :
    (slhdsaPct .fips engine platform ps (generated engine platform ps pk sk s).1
      (generated engine platform ps pk sk s).2 s').1 = true ↔ CanTest platform ps s' := by
  have hseeds := platform.length_randombytes (sk.take (3 * ps.n)) s
  rw [List.length_take_of_le (by omega)] at hseeds
  rw [slhdsaPct, if_neg (Bool.not_eq_true _ ▸ hself), generated_eq platform s hengine hpk hsk]
  exact consistent_iff platform s' hcorrupt fun _ ↦ (hengine.round_trip hseeds _ _).2

end Consistent

/-- When a call succeeds, with an engine that computes as FIPS 205 says and a self-test callback
that does not change the signature. The report of the random source to `slh_keygen` is not among the
conditions: a call with a handle fails for want of randomness only if the pairwise test runs and the
source fails again. -/
theorem slhdsa_keypair_status (hengine : engine.Standard) (hpk : pk.length = 2 * ps.n)
    (hsk : sk.length = 4 * ps.n) (hcorrupt : ∀ buf s, platform.stCorrupt buf s = (buf, s)) :
    ((directKeypair build engine platform ps ⟨some pk, some sk, none⟩ s).1.status = .success ↔
      build = .plain ∨ platform.isRunningOrSelftest s = true) ∧
    ((keypair build engine platform (some ps) ⟨some pk, some sk, none⟩ s).1.status = .success ↔
      Open build platform s ∧ (build = .plain ∨
        platform.isSelfTesting (afterRequest platform ps sk s) = true ∨
        CanTest platform ps (afterRequest platform ps sk s))) := by
  refine ⟨directKeypair_success_iff build engine platform ps pk sk s, ?_⟩
  by_cases h : Open build platform s
  · have hpct := slhdsaPct_generated platform s hengine hpk hsk hcorrupt
      (afterRequest platform ps sk s)
    rw [keypair_open _ _ _ _ _ _ _ h, and_iff_right h]
    generalize generated engine platform ps pk sk s = keys at hpct ⊢
    generalize afterRequest platform ps sk s = s' at hpct ⊢
    simp only [pairwiseTested]
    cases build with
    | plain => simp
    | fips =>
      cases hself : platform.isSelfTesting s' with
      | true => simp
      | false =>
        rw [← hpct hself]
        rcases slhdsaPct .fips engine platform ps keys.1 keys.2 s' with ⟨passed, s''⟩
        cases passed <;> simp
  · have hclosed : keypair build engine platform (some ps) ⟨some pk, some sk, none⟩ s =
        (⟨.error, ⟨some pk, some sk, none⟩⟩, s) := checks_closed h
    rw [hclosed]
    exact iff_of_false Status.noConfusion fun hsuccess ↦ h hsuccess.1

end Status

/-! ## A source that fails for a while -/

/-- A running module whose random source fails `failures` times, without writing, before it works.
-/
def recovering (failures : ℕ) : Platform ℕ where
  isRunningOrSelftest _ := true
  isSelfTesting _ := false
  fipsIndCheck _ := true
  randombytes buf requests :=
    if requests < failures then ((false, buf), requests + 1)
    else ((true, buf.map fun _ ↦ 170), requests + 1)
  length_randombytes buf requests := by
    split
    · rfl
    · exact List.length_map _
  malloc s := (true, s)
  stCorrupt buf s := (buf, s)
  stEnd _ s := s
  setErrorState s := s

/-- The engine with a function in the place of SHAKE256, and of SHA-2. -/
def shakeEngine (K : Shake256) : Engine where
  Pre _ := Unit
  prm ps := Shake.param K (Native.sizes ps)
  stack _ := Native.noLocals
  n_eq ps := by cases ps <;> rfl

theorem standard_shakeEngine (K : Shake256) : (shakeEngine K).Standard :=
  fun ps ↦ ⟨_, _, Shake.realizes K (Native.sizes ps)⟩

/-- One failure escapes the pairwise test, two do not. -/
theorem slhdsa_keypair_status_recovering :
    (keypair .fips (shakeEngine Shake.rotation) (recovering 1) (some .shake_128s)
        ⟨some (List.replicate 32 0), some (List.replicate 64 0), none⟩ 0).1.status = .success ∧
      (keypair .fips (shakeEngine Shake.rotation) (recovering 2) (some .shake_128s)
        ⟨some (List.replicate 32 0), some (List.replicate 64 0), none⟩ 0).1.status ≠ .success := by
  have hstatus := fun failures ↦ (slhdsa_keypair_status .fips (shakeEngine Shake.rotation)
    (recovering failures) .shake_128s (List.replicate 32 0) (List.replicate 64 0) 0
    (standard_shakeEngine _) rfl rfl fun _ _ ↦ rfl).2
  have hopen : ∀ failures s, Open .fips (recovering failures) s := fun _ _ ↦ .inr ⟨rfl, rfl⟩
  refine ⟨(hstatus 1).mpr ⟨hopen _ _, .inr (.inr ⟨rfl, hopen _ _, rfl, hopen _ _⟩)⟩, fun h ↦ ?_⟩
  obtain ⟨-, hplain | hself | htest⟩ := (hstatus 2).mp h
  · cases hplain
  · cases hself
  · exact Bool.false_ne_true htest.random

/-- The source fails for the request of key generation, and both functions succeed, in every
parameter set and with an engine that computes as FIPS 205 says: the secret key then has the bytes
that were in the buffer as its seeds. -/
theorem keypair_succeeds_without_randomness :
    (shakeEngine Shake.rotation).Standard ∧
    ∀ (ps : SlhdsaParam) (pk sk : Bytes), pk.length = 2 * ps.n → sk.length = 4 * ps.n →
      ((recovering 1).randombytes (sk.take (3 * ps.n)) 0).1.1 = false ∧
      ∃ pk' sk', sk'.take (3 * ps.n) = sk.take (3 * ps.n) ∧
        (directKeypair .fips (shakeEngine Shake.rotation) (recovering 1) ps
          ⟨some pk, some sk, none⟩ 0).1 = ⟨.success, ⟨some pk', some sk', none⟩⟩ ∧
        (keypair .fips (shakeEngine Shake.rotation) (recovering 1) (some ps)
          ⟨some pk, some sk, none⟩ 0).1 = ⟨.success, ⟨some pk', some sk', none⟩⟩ := by
  have hengine := standard_shakeEngine Shake.rotation
  refine ⟨hengine, fun ps pk sk hpk hsk ↦ ?_⟩
  have hopen : ∀ s, Open .fips (recovering 1) s := fun _ ↦ .inr ⟨rfl, rfl⟩
  have hkeys := generated_eq (recovering 1) 0 hengine hpk hsk
  have hpct := (slhdsaPct_generated (recovering 1) 0 hengine hpk hsk (fun _ _ ↦ rfl)
    (afterRequest (recovering 1) ps sk 0) rfl).mpr ⟨rfl, hopen _, rfl, hopen _⟩
  refine ⟨rfl, (generated (shakeEngine Shake.rotation) (recovering 1) ps pk sk 0).1,
    (generated (shakeEngine Shake.rotation) (recovering 1) ps pk sk 0).2, ?_, rfl, ?_⟩
  · rw [hkeys]
    exact List.take_left' (List.length_take_of_le (l := sk) (by omega))
  · rw [keypair_open _ _ _ _ _ _ _ (hopen 0), pairwiseTested, if_pos ⟨rfl, rfl⟩]
    rcases htest : slhdsaPct .fips _ _ _ _ _ _ with ⟨passed, s'⟩
    rw [htest] at hpct
    rw [show passed = true from hpct]

end SlhDsa
