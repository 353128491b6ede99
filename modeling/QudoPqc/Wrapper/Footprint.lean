import QudoPqc.Wrapper.Keygen

/-!
# What the wrappers touch

The services and the key pair functions never take the self-test lock as a writer, never release
it as one, and write nothing to the module state but ERROR. They also begin with a gate, and return
no success when it is closed. These are the only facts about them that most properties of the life
cycle need, and they are proved here once, function by function.
-/

namespace QudoPqc

open Concurrent

/-- The operations of the wrappers. -/
def WrapperOp : Op → Prop
  | .load site => site = .gate ∨ site = .selfTesting
  | .store site v => site = .setErrorState ∧ v = .error
  | .once | .wrlock | .unlock => False
  | .set f _ => f ≠ .configSet ∧ f ≠ .conditionalErrorCheck
  | _ => True

/-- The operations of the services, which report no pairwise test. -/
def ServiceOp : Op → Prop
  | .stEnd _ => False
  | o => WrapperOp o

attribute [local simp] WrapperOp ServiceOp

theorem ServiceOp.wrapper (o : Op) (h : ServiceOp o) : WrapperOp o := by
  cases o with
  | stEnd result => trivial
  | _ => exact h

/-! ## Gates, error state, random bytes -/

theorem isRunningOrSelftest_only : isRunningOrSelftest.Only ServiceOp := by
  simp [isRunningOrSelftest, reportErrorState, ModuleState.forall_iff]

theorem isSelfTesting_only : isSelfTesting.Only ServiceOp := by
  simp [isSelfTesting]

theorem getStCtx_only : getStCtx.Only ServiceOp := by
  simp [getStCtx]

theorem setErrorState_only (type : Option String) : (setErrorState type).Only ServiceOp := by
  unfold setErrorState
  split
  · trivial
  · split <;> simp

theorem entropyHealthFail_only : entropyHealthFail.Only ServiceOp :=
  ⟨by simp, fun _ ↦ setErrorState_only _⟩

theorem platformEntropy_only : platformEntropy.Only ServiceOp := by
  have hfail : (entropyHealthFail.bind fun _ ↦ (.ret false : Code Bool)).Only ServiceOp :=
    entropyHealthFail_only.bind fun _ ↦ trivial
  simp [platformEntropy, hfail]

theorem randChunks_only (chunks : ℕ) : (randChunks chunks).Only ServiceOp := by
  induction chunks with
  | zero => trivial
  | succ chunks ih =>
    have hgenerate : (do
        if !(← arbitraryOutcome) then
          return false
        randChunks chunks : Code Bool).Only ServiceOp := ⟨trivial, by simp [ih]⟩
    refine ⟨trivial, fun reseed ↦ ?_⟩
    cases reseed with
    | false => exact hgenerate
    | true =>
      refine platformEntropy_only.guard trivial ⟨trivial, fun ok ↦ ?_⟩
      cases ok with
      | false => exact (setErrorState_only _).bind fun _ ↦ trivial
      | true => exact hgenerate

theorem fipsRandBytes_only (outLen : ℕ) : (fipsRandBytes outLen).Only ServiceOp := by
  refine isRunningOrSelftest_only.guard trivial ⟨trivial, fun _ ↦ .ite trivial (.ite trivial ?_)⟩
  exact ⟨trivial, fun _ ↦ .ite trivial (randChunks_only _)⟩

theorem randombytes_only (outLen : ℕ) : (randombytes outLen).Only ServiceOp :=
  ⟨trivial, fun _ ↦ .ite trivial (fipsRandBytes_only outLen)⟩

theorem randombytesTest_only : randombytesTest.Only ServiceOp :=
  (randombytes_only 32).guard trivial ⟨trivial, fun _ ↦ trivial⟩

/-! ## Handles -/

theorem wrapperInit_only {flag : Flag} (hc : flag ≠ .configSet)
    (he : flag ≠ .conditionalErrorCheck) : (wrapperInit flag).Only ServiceOp := by
  refine ⟨trivial, fun _ ↦ .ite trivial ⟨trivial, fun _ ↦ .ite trivial ?_⟩⟩
  exact randombytesTest_only.guard trivial ⟨⟨hc, he⟩, fun _ ↦ trivial⟩

theorem kemNew_only (known : Bool) : (kemNew known).Only ServiceOp := by
  have hrest : (do
      if !known then
        return false
      arbitraryOutcome : Code Bool).Only ServiceOp := .ite trivial ⟨trivial, fun _ ↦ trivial⟩
  refine isRunningOrSelftest_only.guard trivial ⟨trivial, fun _ ↦ .ite ?_ hrest⟩
  exact (wrapperInit_only (by decide) (by decide)).guard trivial hrest

theorem mldsaNew_only (known : Bool) : (mldsaNew known).Only ServiceOp := by
  have hrest : (do
      if !(← arbitraryOutcome) then
        return false
      return known : Code Bool).Only ServiceOp := ⟨trivial, fun _ ↦ .ite trivial trivial⟩
  refine isRunningOrSelftest_only.guard trivial ⟨trivial, fun _ ↦ .ite ?_ hrest⟩
  exact (wrapperInit_only (by decide) (by decide)).guard trivial hrest

theorem slhdsaNew_only (known : Bool) : (slhdsaNew known).Only ServiceOp :=
  isRunningOrSelftest_only.guard trivial (.ite trivial ⟨trivial, fun _ ↦ trivial⟩)

/-! ## Gated functions -/

theorem Args.check_only {query : Bool} (args : Args query) {body : Code Reply}
    (h : body.Only ServiceOp) :
    (args.check body).Only ServiceOp := by
  cases args with
  | ok => exact h
  | bad status hbad => trivial
  | lengthQuery hquery => trivial

theorem fipsIndCheck_only (handle : Bool) : (fipsIndCheck handle).Only ServiceOp :=
  .ite trivial ⟨trivial, fun _ ↦ .ite trivial ⟨trivial, fun _ ↦ trivial⟩⟩

theorem gated_only {query : Bool} (args : Args query) {body : Code Reply}
    (h : body.Only ServiceOp) :
    (gated args body).Only ServiceOp :=
  isRunningOrSelftest_only.guard trivial (args.check_only h)

theorem gatedInd_only {query : Bool} (handle : Bool) (args : Args query) {body : Code Reply}
    (h : body.Only ServiceOp) :
    (gatedInd handle args body).Only ServiceOp :=
  isRunningOrSelftest_only.guard trivial ((fipsIndCheck_only handle).guard trivial
    (args.check_only h))

theorem withRandom_only {random : Code Bool} (hr : random.Only ServiceOp) (failure : Status)
    {body : Code Reply} (h : body.Only ServiceOp) :
    (withRandom random failure body).Only ServiceOp :=
  hr.bind fun _ ↦ .ite h trivial

theorem engineEncaps_only (pk : Bytes) : (engineEncaps pk).Only ServiceOp :=
  ⟨trivial, fun _ ↦ trivial⟩

theorem engineDecaps_only (sk ct : Bytes) : (engineDecaps sk ct).Only ServiceOp :=
  ⟨trivial, fun _ ↦ trivial⟩

theorem engineSign_only (sk : Bytes) : (engineSign sk).Only ServiceOp :=
  ⟨trivial, fun _ ↦ trivial⟩

theorem engineVerify_only (pk sig : Bytes) : (replying (engineVerify pk sig)).Only ServiceOp :=
  ⟨trivial, fun _ ↦ trivial⟩

theorem slhdsaInternalSign_only (ps : SlhdsaParam) (sk : Bytes) :
    (slhdsaInternalSign ps sk).Only ServiceOp :=
  withRandom_only (fipsRandBytes_only _) _ (engineSign_only sk)

theorem handleReply_only {new : Code Bool} (h : new.Only ServiceOp) :
    (handleReply new).Only ServiceOp :=
  h.bind fun _ ↦ trivial

/-- Every service stays within the wrapper operations. -/
theorem serviceCode_only (call : ServiceCall) : (serviceCode call).Only ServiceOp := by
  cases call with
  | kemNew known => exact handleReply_only (kemNew_only known)
  | mldsaNew known => exact handleReply_only (mldsaNew_only known)
  | slhdsaNew known => exact handleReply_only (slhdsaNew_only known)
  | kemEncaps handle args pk | kemEncapsulate _ args pk =>
    first
    | exact gatedInd_only _ _ (withRandom_only (randombytes_only _) _ (engineEncaps_only _))
    | exact gated_only _ (withRandom_only (randombytes_only _) _ (engineEncaps_only _))
  | kemEncapsDerand handle args pk => exact gatedInd_only _ _ (engineEncaps_only _)
  | kemDecaps handle args sk ct => exact gatedInd_only _ _ (engineDecaps_only _ _)
  | kemDecapsulate _ args sk ct => exact gated_only _ (engineDecaps_only _ _)
  | kemCheck args => exact args.check_only ⟨trivial, fun _ ↦ trivial⟩
  | mldsaSign handle args args' sk =>
    exact gatedInd_only _ _ (gatedInd_only _ _
      (withRandom_only (randombytes_only _) _ (engineSign_only _)))
  | mldsaSignWithContext handle args sk | mldsaSignExtmu handle args sk =>
    exact gatedInd_only _ _ (withRandom_only (randombytes_only _) _ (engineSign_only _))
  | mldsaDirectSign _ args sk =>
    exact gated_only _ (withRandom_only (randombytes_only _) _ (engineSign_only _))
  | mldsaVerify handle args args' pk sig =>
    exact gatedInd_only _ _ (gatedInd_only _ _ (engineVerify_only _ _))
  | mldsaVerifyWithContext handle args pk sig => exact gatedInd_only _ _ (engineVerify_only _ _)
  | mldsaSignInternal args sk | slhdsaSignEx args sk => exact gated_only _ (engineSign_only _)
  | mldsaVerifyInternal args pk sig | slhdsaVerifyInternal args pk sig =>
    exact gated_only _ (engineVerify_only _ _)
  | mldsaSignPreHash args args' sk => exact gated_only _ (gated_only _ (engineSign_only _))
  | mldsaVerifyPreHash args args' pk sig =>
    exact args.check_only (gated_only _ (engineVerify_only _ _))
  | slhdsaSign ps handle args args' sk =>
    exact gatedInd_only _ _ (gated_only _ (slhdsaInternalSign_only _ _))
  | slhdsaVerify handle args args' pk sig =>
    exact gatedInd_only _ _ (gated_only _ (engineVerify_only _ _))
  | slhdsaDirectSign ps args sk => exact gated_only _ (slhdsaInternalSign_only _ _)

/-! ## Key generation -/

/-- A pairwise test reports its verdict, and does nothing else that a service does not do. -/
theorem pairwiseTest_only {test : Code Bool} (h : test.Only ServiceOp) :
    (pairwiseTest test).Only WrapperOp := by
  refine (isSelfTesting_only.mono ServiceOp.wrapper).bind fun _ ↦ .ite trivial ?_
  refine (getStCtx_only.mono ServiceOp.wrapper).bind fun _ ↦ ?_
  exact (h.mono ServiceOp.wrapper).bind fun _ ↦ ⟨trivial, fun _ ↦ trivial⟩

theorem mlkemConsistent_only (pk sk : Bytes) (useRandom : Bool) :
    (mlkemConsistent pk sk useRandom).Only ServiceOp := by
  have hdecaps (enc : Reply) (ctext : Bytes) : (do
      let dec ← kemDecaps true .ok sk ctext
      return decide (dec.status = .success ∧ dec.sharedSecret = enc.sharedSecret) :
      Code Bool).Only ServiceOp :=
    (gatedInd_only _ _ (engineDecaps_only sk ctext)).bind fun _ ↦ trivial
  refine ⟨trivial, fun _ ↦ .ite trivial ?_⟩
  refine .ite ?_ ?_
  · refine (gatedInd_only _ _ (withRandom_only (randombytes_only _) _ (engineEncaps_only pk))).bind
      fun enc ↦ .ite trivial ⟨trivial, fun ctext ↦ hdecaps enc ctext⟩
  · refine (gatedInd_only _ _ (engineEncaps_only pk)).bind
      fun enc ↦ .ite trivial ⟨trivial, fun ctext ↦ hdecaps enc ctext⟩

theorem mlkemPct_only (pk sk : Bytes) (useRandom : Bool) :
    (mlkemPct pk sk useRandom).Only WrapperOp :=
  pairwiseTest_only (mlkemConsistent_only pk sk useRandom)

theorem signatureConsistent_only {sign : Bytes → Code Reply} {verify : Bytes → Bytes → Code Reply}
    (hs : ∀ sk, (sign sk).Only ServiceOp) (hv : ∀ pk sig, (verify pk sig).Only ServiceOp)
    (pk sk : Bytes) : (signatureConsistent sign verify pk sk).Only ServiceOp := by
  refine ⟨trivial, fun _ ↦ .ite trivial ?_⟩
  refine (hs sk).bind fun _ ↦ .ite trivial ⟨trivial, fun sigBuf ↦ ?_⟩
  exact (hv pk sigBuf).bind fun _ ↦ trivial

theorem mldsaPct_only (pk sk : Bytes) : (mldsaPct pk sk).Only WrapperOp :=
  pairwiseTest_only (signatureConsistent_only (fun sk ↦ gated_only _ (engineSign_only sk))
    (fun pk sig ↦ gated_only _ (engineVerify_only pk sig)) pk sk)

theorem slhdsaPct_only (ps : SlhdsaParam) (pk sk : Bytes) :
    (slhdsaPct ps pk sk).Only WrapperOp :=
  pairwiseTest_only (signatureConsistent_only
    (fun sk ↦ gatedInd_only _ _ (gated_only _ (slhdsaInternalSign_only ps sk)))
    (fun pk sig ↦ gatedInd_only _ _ (gated_only _ (engineVerify_only pk sig))) pk sk)

theorem pairwiseTested_only {pct : Bytes → Bytes → Code Bool}
    (hpct : ∀ pk sk, (pct pk sk).Only WrapperOp) (lengths : ℕ × ℕ) (pk sk : Bytes)
    (seedOut : Option Bytes) : (pairwiseTested pct lengths pk sk seedOut).Only WrapperOp := by
  refine (isSelfTesting_only.mono ServiceOp.wrapper).bind fun _ ↦ .ite ?_ trivial
  exact (hpct pk sk).guard (((setErrorState_only _).mono ServiceOp.wrapper).bind fun _ ↦ trivial)
    trivial

theorem generateTested_only {engine : Code KeygenOut} (he : engine.Only ServiceOp)
    {pct : Bytes → Bytes → Code Bool} (hpct : ∀ pk sk, (pct pk sk).Only WrapperOp)
    (lengths : ℕ × ℕ) (pk sk : Bytes) (seedOut : Option Bytes) :
    (generateTested engine pct lengths pk sk seedOut).Only WrapperOp :=
  (he.mono ServiceOp.wrapper).bind fun _ ↦ .ite trivial (pairwiseTested_only hpct _ _ _ _)

theorem handleKeygen_only {α : Type} (handle : Option α) (argError : Status) (argsOk : Bool)
    (buffers : KeyBuffers) {body : α → Bytes → Bytes → Code KeygenResult}
    (hbody : ∀ h pk sk, (body h pk sk).Only WrapperOp) :
    (handleKeygen handle argError argsOk buffers body).Only WrapperOp := by
  refine (isRunningOrSelftest_only.mono ServiceOp.wrapper).guard trivial
    (((fipsIndCheck_only _).mono ServiceOp.wrapper).guard trivial ?_)
  split
  · exact hbody _ _ _
  · trivial

theorem engineKeygen_only : engineKeygen.Only ServiceOp := ⟨trivial, fun _ ↦ trivial⟩

theorem engineKeypair_only {random : Code Bool} (hr : random.Only ServiceOp) (failure : Status) :
    (engineKeypair random failure).Only ServiceOp :=
  hr.bind fun _ ↦ ⟨trivial, fun _ ↦ trivial⟩

theorem slhKeygen_only (ps : SlhdsaParam) : (slhKeygen ps).Only ServiceOp :=
  (fipsRandBytes_only _).bind fun _ ↦ engineKeygen_only

theorem slhdsaVariantKeypair_only (ps : SlhdsaParam) :
    (slhdsaVariantKeypair ps).Only ServiceOp :=
  isRunningOrSelftest_only.guard trivial (slhKeygen_only ps)

theorem directKeygen_only (argError : Status) (argsOk : Bool) (buffers : KeyBuffers)
    {engine : Code KeygenOut} (he : engine.Only ServiceOp) :
    (directKeygen argError argsOk buffers engine).Only ServiceOp := by
  refine isRunningOrSelftest_only.guard trivial ?_
  split
  · exact he.bind fun _ ↦ trivial
  · trivial

theorem kemKeypairFromSeed_only (kem : Option KemLevel) (seed : Bool) (buffers : KeyBuffers) :
    (kemKeypairFromSeed kem seed buffers).Only WrapperOp :=
  handleKeygen_only _ _ _ _ fun _ _ _ ↦ generateTested_only engineKeygen_only
    (fun pk sk ↦ mlkemPct_only pk sk false) _ _ _ _

theorem mldsaKeypairInternal_only (sig : Option MldsaLevel) (seed : Bool) (buffers : KeyBuffers) :
    (mldsaKeypairInternal sig seed buffers).Only WrapperOp :=
  handleKeygen_only _ _ _ _ fun _ _ _ ↦ generateTested_only engineKeygen_only mldsaPct_only _ _ _ _

theorem slhdsaKeypairInternal_only (sig : Option SlhdsaParam) (seeds : Bool)
    (buffers : KeyBuffers) : (slhdsaKeypairInternal sig seeds buffers).Only WrapperOp :=
  handleKeygen_only _ _ _ _ fun ps _ _ ↦ generateTested_only engineKeygen_only
    (slhdsaPct_only ps) _ _ _ _

/-- Every key pair function stays within the wrapper operations. -/
theorem keygenCode_only (call : KeygenCall) : (keygenCode call).Only WrapperOp := by
  obtain ⟨function, publicKey, secretKey⟩ := call
  cases function with
  | kemKeypair kem =>
    exact handleKeygen_only _ _ _ _ fun _ _ _ ↦ generateTested_only
      (engineKeypair_only (randombytes_only _) _) (fun pk sk ↦ mlkemPct_only pk sk false) _ _ _ _
  | kemKeypairDerand kem seedOut =>
    exact handleKeygen_only _ _ _ _ fun _ _ _ ↦ .ite trivial (generateTested_only
      (engineKeypair_only (randombytes_only _) _) (fun pk sk ↦ mlkemPct_only pk sk false) _ _ _ _)
  | kemKeypairFromSeed kem seed => exact kemKeypairFromSeed_only kem seed _
  | mldsaKeypair sig =>
    refine handleKeygen_only _ _ _ _ fun _ _ _ ↦ ?_
    refine ((directKeygen_only _ _ _ (engineKeypair_only (randombytes_only _) _)).mono
      ServiceOp.wrapper).bind fun _ ↦ ?_
    split
    · exact pairwiseTested_only mldsaPct_only _ _ _ _
    · trivial
  | mldsaKeypairInternal sig seed => exact mldsaKeypairInternal_only sig seed _
  | slhdsaKeypair sig =>
    exact handleKeygen_only _ _ _ _ fun ps _ _ ↦ generateTested_only
      (slhdsaVariantKeypair_only ps) (slhdsaPct_only ps) _ _ _ _
  | slhdsaKeypairInternal sig seeds => exact slhdsaKeypairInternal_only sig seeds _
  | kemKeypairGenerate level | mldsaDirectKeypair level =>
    exact (directKeygen_only _ _ _ (engineKeypair_only (randombytes_only _) _)).mono
      ServiceOp.wrapper
  | mldsaDirectKeypairInternal level seed =>
    exact (directKeygen_only _ _ _ engineKeygen_only).mono ServiceOp.wrapper
  | slhdsaDirectKeypair ps =>
    exact (directKeygen_only _ _ _ (slhKeygen_only ps)).mono ServiceOp.wrapper

/-! ## Gates -/

/-- The code returns no `good` result without asking the gate, nor after the gate's refusal. -/
def GateFirst {α : Type} (good : α → Prop) (p : Code α) : Prop :=
  (∃ a, ¬good a ∧ p = .ret a) ∨
    ∃ f a, ¬good a ∧ f false = .ret a ∧ p = isRunningOrSelftest.bind f

section Gates

variable {α β : Type} {good : α → Prop}

/-- A function that begins with `QUDO_FIPS_GATE`. -/
theorem gateFirst_guard {a : α} (ha : ¬good a) (q : Code α) :
    GateFirst good (isRunningOrSelftest.bind fun b ↦ if (!b) = true then .ret a else q) :=
  .inr ⟨_, a, ha, rfl, rfl⟩

theorem GateFirst.bind {good' : β → Prop} {p : Code α} (h : GateFirst good p) {f : α → β}
    (hf : ∀ a, ¬good a → ¬good' (f a)) : GateFirst good' (p.bind fun a ↦ .ret (f a)) := by
  obtain ⟨a, ha, rfl⟩ | ⟨g, a, ha, hg, rfl⟩ := h
  · exact .inl ⟨f a, hf a ha, rfl⟩
  · refine .inr ⟨fun b ↦ (g b).bind fun a ↦ .ret (f a), f a, hf a ha, ?_, Prog.bind_assoc _ _ _⟩
    exact congrArg (fun p : Code α ↦ p.bind fun a ↦ .ret (f a)) hg

theorem handleReply_gateFirst {new : Code Bool} (h : GateFirst (· = true) new) :
    GateFirst (·.status = .success) (handleReply new) := by
  refine h.bind fun b hb ↦ ?_
  rw [Bool.not_eq_true] at hb
  rw [hb]
  decide

/-- Every service but the ungated ones begins with a gate. -/
theorem serviceCode_gateFirst {call : ServiceCall} (hcall : call.ungated = false) :
    GateFirst (·.status = .success) (serviceCode call) := by
  cases call with
  | kemNew | mldsaNew | slhdsaNew => exact handleReply_gateFirst (gateFirst_guard (by decide) _)
  | kemCheck args => cases hcall
  | mldsaVerifyPreHash args args' pk sig =>
    -- the gate comes after the argument checks, which never answer success
    cases args with
    | ok => exact gateFirst_guard (by decide) _
    | bad status hbad => exact .inl ⟨_, hbad, rfl⟩
    | lengthQuery hquery => cases hquery
  | _ => exact gateFirst_guard (by decide) _

theorem keygenCode_gateFirst (call : KeygenCall) :
    GateFirst (·.status = .success) (keygenCode call) := by
  obtain ⟨function, publicKey, secretKey⟩ := call
  cases function <;> exact gateFirst_guard (by simp) _

end Gates

end QudoPqc
