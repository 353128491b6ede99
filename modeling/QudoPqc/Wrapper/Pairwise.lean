import QudoPqc.Wrapper.Footprint

/-!
# The paths of a key pair function

What the operations on a path through a key pair function say about its result. Everything here is
about one call and the answers it received; where the answers come from, and what other threads do
meanwhile, does not matter.

## Two facts about a pairwise test

A test that returns true, and that was not skipped because the module was testing itself, has
performed the comparison on the keys it was given. A test that has reported a failure returns
false. `IsPairwiseTest` holds the two, and is all that the functions using a test need to know.

## The shape of a path

`keygenCode_returns` cuts a path through one of the seven functions with a handle in two: a part
without a report, then either a return with an error or the pairwise test.
-/

namespace QudoPqc

open Concurrent
open Prog (returns_bind returns_guard returns_op returns_ret)

/-- The operations of a call with their answers. -/
abbrev Trace := List (Action Op Resp)

/-- No load of `qudo_pqc_is_self_testing` answered SELFTEST. -/
def NotSelfTesting (tr : Trace) : Prop :=
  ∀ st : ModuleState, ⟨.load .selfTesting, st⟩ ∈ tr → st ≠ .selftest

theorem NotSelfTesting.sublist {tr tr' : Trace} (h : NotSelfTesting tr) (hsub : tr'.Sublist tr) :
    NotSelfTesting tr' :=
  fun st hst ↦ h st (hsub.subset hst)

theorem isSelfTesting_returns {tr : Trace} {b : Bool} (h : isSelfTesting.Returns tr b) :
    ∃ st : ModuleState, tr = [⟨.load .selfTesting, st⟩] ∧ b = decide (st = .selftest) := by
  obtain ⟨st, tr', rfl, hret⟩ := returns_op.mp h
  obtain ⟨rfl, rfl⟩ := returns_ret.mp hret
  exact ⟨st, rfl, rfl⟩

/-! ## A service succeeds through its engine -/

section Services

variable {query : Bool} {body : Code Reply} {tr : Trace} {reply : Reply}

theorem guarded_returns {gate : Code Bool}
    (h : (gate.bind fun ok ↦ if (!ok) = true then .ret ⟨.error, [], []⟩ else body).Returns tr reply)
    (hreply : reply.status = .success) : ∃ tr', tr'.Sublist tr ∧ body.Returns tr' reply := by
  obtain ⟨tr₁, tr₂, rfl, ⟨-, hclosed⟩ | ⟨-, hopen⟩⟩ := returns_guard h
  · obtain ⟨-, rfl⟩ := returns_ret.mp hclosed
    cases hreply
  · exact ⟨tr₂, List.sublist_append_right _ _, hopen⟩

theorem gated_returns (h : (gated (.ok : Args query) body).Returns tr reply)
    (hreply : reply.status = .success) : ∃ tr', tr'.Sublist tr ∧ body.Returns tr' reply :=
  guarded_returns h hreply

theorem gatedInd_returns {handle : Bool}
    (h : (gatedInd handle (.ok : Args query) body).Returns tr reply)
    (hreply : reply.status = .success) : ∃ tr', tr'.Sublist tr ∧ body.Returns tr' reply := by
  obtain ⟨tr₁, hsub₁, h₁⟩ := guarded_returns h hreply
  obtain ⟨tr₂, hsub₂, h₂⟩ := guarded_returns h₁ hreply
  exact ⟨tr₂, hsub₂.trans hsub₁, h₂⟩

theorem withRandom_returns {random : Code Bool} {failure : Status} (hfail : failure ≠ .success)
    (h : (withRandom random failure body).Returns tr reply) (hreply : reply.status = .success) :
    ∃ tr', tr'.Sublist tr ∧ body.Returns tr' reply := by
  obtain ⟨tr₁, drawn, tr₂, rfl, -, hrest⟩ := returns_bind.mp h
  cases drawn with
  | false =>
    obtain ⟨-, rfl⟩ := returns_ret.mp hrest
    exact absurd hreply hfail
  | true => exact ⟨tr₂, List.sublist_append_right _ _, hrest⟩

/-- The path of a single operation. -/
theorem perform_returns {o : Op} {r : Resp o} (h : (Prog.perform o : Code (Resp o)).Returns tr r) :
    tr = [⟨o, r⟩] := by
  obtain ⟨r', tr', rfl, hret⟩ := returns_op.mp h
  obtain ⟨rfl, rfl⟩ := returns_ret.mp hret
  rfl

theorem replying_returns {pk sig : Bytes} (h : (replying (engineVerify pk sig)).Returns tr reply)
    (hreply : reply.status = .success) : tr = [⟨.verify pk sig, Status.success⟩] := by
  obtain ⟨status, tr', rfl, hret⟩ := returns_op.mp h
  obtain ⟨rfl, rfl⟩ := returns_ret.mp hret
  rw [show status = .success from hreply]

/-- An encapsulation that succeeds has asked the engine. -/
theorem kemEncapsDerand_returns {handle : Bool} {pk : Bytes}
    (h : (kemEncapsDerand handle .ok pk).Returns tr reply) (hreply : reply.status = .success) :
    List.Sublist [⟨.encaps pk, reply⟩] tr := by
  obtain ⟨tr', hsub, hbody⟩ := gatedInd_returns h hreply
  exact perform_returns hbody ▸ hsub

theorem kemEncaps_returns {handle : Bool} {pk : Bytes}
    (h : (kemEncaps handle .ok pk).Returns tr reply) (hreply : reply.status = .success) :
    List.Sublist [⟨.encaps pk, reply⟩] tr := by
  obtain ⟨tr', hsub, hbody⟩ := gatedInd_returns h hreply
  obtain ⟨tr₂, hsub₂, hengine⟩ := withRandom_returns (by decide) hbody hreply
  exact perform_returns hengine ▸ hsub₂.trans hsub

theorem kemDecaps_returns {handle : Bool} {sk ct : Bytes}
    (h : (kemDecaps handle .ok sk ct).Returns tr reply) (hreply : reply.status = .success) :
    List.Sublist [⟨.decaps sk ct, reply⟩] tr := by
  obtain ⟨tr', hsub, hbody⟩ := gatedInd_returns h hreply
  exact perform_returns hbody ▸ hsub

end Services

/-! ## The comparison -/

/-- On the path, `pk` was encapsulated to and `sk` decapsulated the result, after the self-test
callback had seen it, to the same secret. -/
def KemCompared (tr : Trace) (pk sk : Bytes) : Prop :=
  ∃ (enc dec : Reply) (ct : Bytes), enc.status = .success ∧ dec.status = .success ∧
    dec.sharedSecret = enc.sharedSecret ∧
    List.Sublist [⟨.encaps pk, enc⟩, ⟨.stCorrupt enc.out, ct⟩, ⟨.decaps sk ct, dec⟩] tr

/-- On the path, `sk` signed and `pk` verified the signature, after the self-test callback had seen
it. -/
def SignatureCompared (tr : Trace) (pk sk : Bytes) : Prop :=
  ∃ (sig : Reply) (buf : Bytes), sig.status = .success ∧
    List.Sublist [⟨.sign sk, sig⟩, ⟨.stCorrupt sig.out, buf⟩, ⟨.verify pk buf, Status.success⟩] tr

theorem mlkemConsistent_returns {pk sk : Bytes} {useRandom : Bool} {tr : Trace}
    (h : (mlkemConsistent pk sk useRandom).Returns tr true) : KemCompared tr pk sk := by
  obtain ⟨tr₀, tr₁, rfl, ⟨-, hnull⟩ | ⟨-, h₁⟩⟩ := returns_guard h
  · cases (returns_ret.mp hnull).2
  -- the two ways to encapsulate are followed by the same code
  have henc : ∃ tr₂ enc tr₃, tr₁ = tr₂ ++ tr₃ ∧
      (enc.status = .success → List.Sublist [⟨.encaps pk, enc⟩] tr₂) ∧
      (if enc.status ≠ .success then .ret false else
        .op (.stCorrupt enc.out) fun ct ↦ (kemDecaps true .ok sk ct).bind fun dec ↦
          .ret (decide (dec.status = .success ∧ dec.sharedSecret = enc.sharedSecret)) :
        Code Bool).Returns tr₃ true := by
    cases useRandom with
    | false =>
      obtain ⟨tr₂, enc, tr₃, rfl, h₂, h₃⟩ := returns_bind.mp h₁
      exact ⟨tr₂, enc, tr₃, rfl, kemEncapsDerand_returns h₂, h₃⟩
    | true =>
      obtain ⟨tr₂, enc, tr₃, rfl, h₂, h₃⟩ := returns_bind.mp h₁
      exact ⟨tr₂, enc, tr₃, rfl, kemEncaps_returns h₂, h₃⟩
  obtain ⟨tr₂, enc, tr₃, rfl, hsub, hrest⟩ := henc
  split at hrest
  · cases (returns_ret.mp hrest).2
  next hstatus =>
    rw [not_not] at hstatus
    obtain ⟨ct, tr₄, rfl, hdec⟩ := returns_op.mp hrest
    obtain ⟨tr₅, dec, tr₆, rfl, h₅, h₆⟩ := returns_bind.mp hdec
    obtain ⟨hdecStatus, hsecret⟩ := of_decide_eq_true (returns_ret.mp h₆).2.symm
    refine ⟨enc, dec, ct, hstatus, hdecStatus, hsecret, ?_⟩
    have htail : List.Sublist [⟨.decaps sk ct, dec⟩] (tr₅ ++ tr₆) :=
      (kemDecaps_returns h₅ hdecStatus).trans (List.sublist_append_left _ _)
    exact ((hsub hstatus).append (htail.cons_cons _)).trans (List.sublist_append_right _ _)

theorem signatureConsistent_returns {sign : Bytes → Code Reply}
    {verify : Bytes → Bytes → Code Reply} {pk sk : Bytes} {tr : Trace}
    (hsign : ∀ {tr reply}, (sign sk).Returns tr reply → reply.status = .success →
      List.Sublist [⟨.sign sk, reply⟩] tr)
    (hverify : ∀ {sig tr reply}, (verify pk sig).Returns tr reply → reply.status = .success →
      List.Sublist [⟨.verify pk sig, Status.success⟩] tr)
    (h : (signatureConsistent sign verify pk sk).Returns tr true) : SignatureCompared tr pk sk := by
  obtain ⟨tr₀, tr₁, rfl, ⟨-, hnull⟩ | ⟨-, h₁⟩⟩ := returns_guard h
  · cases (returns_ret.mp hnull).2
  obtain ⟨tr₂, sig, tr₃, rfl, h₂, h₃⟩ := returns_bind.mp h₁
  split at h₃
  · cases (returns_ret.mp h₃).2
  next hstatus =>
    rw [not_not] at hstatus
    obtain ⟨buf, tr₄, rfl, hver⟩ := returns_op.mp h₃
    obtain ⟨tr₅, ver, tr₆, rfl, h₅, h₆⟩ := (returns_bind (p := verify pk buf)).mp hver
    have hverStatus := of_decide_eq_true (returns_ret.mp h₆).2.symm
    refine ⟨sig, buf, hstatus, ?_⟩
    have htail : List.Sublist [⟨.verify pk buf, Status.success⟩] (tr₅ ++ tr₆) :=
      (hverify h₅ hverStatus).trans (List.sublist_append_left _ _)
    exact ((hsign h₂ hstatus).append (htail.cons_cons _)).trans (List.sublist_append_right _ _)

/-! ## Pairwise tests -/

/-- What a function needs to know about its pairwise test. -/
structure IsPairwiseTest (Compared : Trace → Bytes → Bytes → Prop)
    (pct : Bytes → Bytes → Code Bool) : Prop where
  passed : ∀ {pk sk tr}, (pct pk sk).Returns tr true → NotSelfTesting tr → Compared tr pk sk
  failed : ∀ {pk sk tr b}, (pct pk sk).Returns tr b → ⟨.stEnd false, ()⟩ ∈ tr → b = false

/-- The frame around a test skips it only when the module is testing itself, and reports the
verdict it returns. -/
theorem pairwiseTest_isPairwiseTest (Compared : Trace → Bytes → Bytes → Prop)
    (hmono : ∀ tr tr' pk sk, tr.Sublist tr' → Compared tr pk sk → Compared tr' pk sk)
    {test : Bytes → Bytes → Code Bool} (honly : ∀ pk sk, (test pk sk).Only ServiceOp)
    (htest : ∀ pk sk tr, (test pk sk).Returns tr true → Compared tr pk sk) :
    IsPairwiseTest Compared fun pk sk ↦ pairwiseTest (test pk sk) where
  passed := by
    intro pk sk tr h hnot
    obtain ⟨tr₁, skipped, tr₂, rfl, h₁, h₂⟩ := returns_bind.mp h
    obtain ⟨st, rfl, rfl⟩ := isSelfTesting_returns h₁
    have hst : st ≠ .selftest := hnot st (List.mem_append_left _ List.mem_cons_self)
    rw [decide_eq_false hst] at h₂
    obtain ⟨tr₃, _, tr₄, rfl, -, h₄⟩ := returns_bind.mp h₂
    obtain ⟨tr₅, verdict, tr₆, rfl, h₅, h₆⟩ := returns_bind.mp h₄
    obtain ⟨_, _, rfl, hret⟩ := returns_op.mp h₆
    obtain ⟨rfl, rfl⟩ := returns_ret.mp hret
    refine hmono _ _ _ _ ?_ (htest _ _ _ h₅)
    exact ((List.sublist_append_left _ _).trans (List.sublist_append_right _ _)).trans
      (List.sublist_append_right _ _)
  failed := by
    intro pk sk tr b h hmem
    obtain ⟨tr₁, skipped, tr₂, rfl, h₁, h₂⟩ := returns_bind.mp h
    have hnot₁ : ⟨.stEnd false, ()⟩ ∉ tr₁ := fun hm ↦ isSelfTesting_only.of_returns h₁ _ hm
    cases skipped with
    | true =>
      obtain ⟨rfl, -⟩ := returns_ret.mp h₂
      simp [hnot₁] at hmem
    | false =>
      obtain ⟨tr₃, _, tr₄, rfl, h₃, h₄⟩ := returns_bind.mp h₂
      obtain ⟨tr₅, verdict, tr₆, rfl, h₅, h₆⟩ := returns_bind.mp h₄
      have hnot₃ : ⟨.stEnd false, ()⟩ ∉ tr₃ := fun hm ↦ getStCtx_only.of_returns h₃ _ hm
      have hnot₅ : ⟨.stEnd false, ()⟩ ∉ tr₅ := fun hm ↦ (honly pk sk).of_returns h₅ _ hm
      obtain ⟨_, _, rfl, hret⟩ := returns_op.mp h₆
      obtain ⟨rfl, rfl⟩ := returns_ret.mp hret
      simpa [hnot₁, hnot₃, hnot₅] using hmem

theorem KemCompared.mono {tr tr' : Trace} {pk sk : Bytes} (hsub : tr.Sublist tr')
    (h : KemCompared tr pk sk) : KemCompared tr' pk sk := by
  obtain ⟨enc, dec, ct, henc, hdec, hsecret, htr⟩ := h
  exact ⟨enc, dec, ct, henc, hdec, hsecret, htr.trans hsub⟩

theorem SignatureCompared.mono {tr tr' : Trace} {pk sk : Bytes} (hsub : tr.Sublist tr')
    (h : SignatureCompared tr pk sk) : SignatureCompared tr' pk sk := by
  obtain ⟨sig, buf, hsig, htr⟩ := h
  exact ⟨sig, buf, hsig, htr.trans hsub⟩

theorem mlkemPct_isPairwiseTest (useRandom : Bool) :
    IsPairwiseTest KemCompared fun pk sk ↦ mlkemPct pk sk useRandom :=
  pairwiseTest_isPairwiseTest KemCompared (fun _ _ _ _ ↦ KemCompared.mono)
    (fun pk sk ↦ mlkemConsistent_only pk sk useRandom) fun _ _ _ ↦ mlkemConsistent_returns

theorem mldsaPct_isPairwiseTest : IsPairwiseTest SignatureCompared mldsaPct := by
  refine pairwiseTest_isPairwiseTest SignatureCompared (fun _ _ _ _ ↦ SignatureCompared.mono) ?_
    fun _ _ _ ↦ signatureConsistent_returns ?_ ?_
  · exact signatureConsistent_only (fun sk ↦ gated_only _ (engineSign_only sk))
      fun pk sig ↦ gated_only _ (engineVerify_only pk sig)
  · intro tr reply h hreply
    obtain ⟨tr', hsub, hbody⟩ := gated_returns h hreply
    exact perform_returns hbody ▸ hsub
  · intro sig tr reply h hreply
    obtain ⟨tr', hsub, hbody⟩ := gated_returns h hreply
    exact replying_returns hbody hreply ▸ hsub

theorem slhdsaPct_isPairwiseTest (ps : SlhdsaParam) :
    IsPairwiseTest SignatureCompared (slhdsaPct ps) := by
  refine pairwiseTest_isPairwiseTest SignatureCompared (fun _ _ _ _ ↦ SignatureCompared.mono) ?_
    fun _ _ _ ↦ signatureConsistent_returns ?_ ?_
  · exact signatureConsistent_only
      (fun sk ↦ gatedInd_only _ _ (gated_only _ (slhdsaInternalSign_only ps sk)))
      fun pk sig ↦ gatedInd_only _ _ (gated_only _ (engineVerify_only pk sig))
  · intro tr reply h hreply
    obtain ⟨tr₁, hsub₁, h₁⟩ := gatedInd_returns h hreply
    obtain ⟨tr₂, hsub₂, h₂⟩ := gated_returns h₁ hreply
    obtain ⟨tr₃, hsub₃, h₃⟩ := withRandom_returns (by decide) h₂ hreply
    exact perform_returns h₃ ▸ hsub₃.trans (hsub₂.trans hsub₁)
  · intro sig tr reply h hreply
    obtain ⟨tr₁, hsub₁, h₁⟩ := gatedInd_returns h hreply
    obtain ⟨tr₂, hsub₂, h₂⟩ := gated_returns h₁ hreply
    exact replying_returns h₂ hreply ▸ hsub₂.trans hsub₁

/-! ## The functions with a handle -/

/-- The comparison that the pairwise test of the function's algorithm makes. -/
def KeygenFunction.Compared : KeygenFunction → Trace → Bytes → Bytes → Prop
  | .kemKeypair _ | .kemKeypairDerand _ _ | .kemKeypairFromSeed _ _ | .kemKeypairGenerate _ =>
    KemCompared
  | .mldsaKeypair _ | .mldsaKeypairInternal _ _ | .mldsaDirectKeypair _
  | .mldsaDirectKeypairInternal _ _ | .slhdsaKeypair _ | .slhdsaKeypairInternal _ _
  | .slhdsaDirectKeypair _ => SignatureCompared

theorem KeygenFunction.Compared.mono {function : KeygenFunction} {tr tr' : Trace} {pk sk : Bytes}
    (h : function.Compared tr pk sk) (hsub : tr.Sublist tr') : function.Compared tr' pk sk := by
  cases function <;> first
    | exact KemCompared.mono hsub h
    | exact SignatureCompared.mono hsub h

/-- The lengths of the keys of the function's parameter set. -/
def KeygenFunction.lengths : KeygenFunction → Option (ℕ × ℕ)
  | .kemKeypair kem | .kemKeypairDerand kem _ | .kemKeypairFromSeed kem _ =>
    kem.map KemLevel.lengths
  | .mldsaKeypair sig | .mldsaKeypairInternal sig _ => sig.map MldsaLevel.lengths
  | .slhdsaKeypair sig | .slhdsaKeypairInternal sig _ => sig.map SlhdsaParam.lengths
  | .kemKeypairGenerate level => some level.lengths
  | .mldsaDirectKeypair level | .mldsaDirectKeypairInternal level _ => some level.lengths
  | .slhdsaDirectKeypair ps => some ps.lengths

/-- The call has a seed buffer that passes the argument checks, as all its other arguments do. -/
def KeygenCall.handsOutSeed (call : KeygenCall) : Bool :=
  match call.function with
  | .kemKeypairDerand (some _) (some seedOut) =>
    decide (kemSeedBytes ≤ seedOut.length) && call.publicKey.isSome && call.secretKey.isSome
  | _ => false

/-- The call returned an error before any pairwise test. -/
def Stopped (tr : Trace) (res : KeygenResult) : Prop :=
  res.status ≠ .success ∧ ∀ x ∈ tr, ServiceOp x.1

/-- The call got as far as a pairwise test, on keys and perhaps a seed in buffers of the given
lengths, having reported nothing before. -/
def ReachesTest (Compared : Trace → Bytes → Bytes → Prop) (lengths : ℕ × ℕ) (pkLength skLength : ℕ)
    (withSeed : Bool) (tr : Trace) (res : KeygenResult) : Prop :=
  ∃ pct pk sk seedOut tr₁ tr₂, IsPairwiseTest Compared pct ∧ pk.length = pkLength ∧
    sk.length = skLength ∧ seedOut.isSome = withSeed ∧ tr = tr₁ ++ tr₂ ∧
    (∀ x ∈ tr₁, ServiceOp x.1) ∧ (pairwiseTested pct lengths pk sk seedOut).Returns tr₂ res

section Paths

variable {Compared : Trace → Bytes → Bytes → Prop} {lengths : ℕ × ℕ} {pkLength skLength : ℕ}

variable {pk sk : Bytes}
  {withSeed : Bool} {tr tr' : Trace} {res : KeygenResult}

theorem Stopped.prepend (htr' : ∀ x ∈ tr', ServiceOp x.1) (h : Stopped tr res) :
    Stopped (tr' ++ tr) res :=
  ⟨h.1, List.forall_mem_append.mpr ⟨htr', h.2⟩⟩

theorem ReachesTest.prepend (htr' : ∀ x ∈ tr', ServiceOp x.1)
    (h : ReachesTest Compared lengths pkLength skLength withSeed tr res) :
    ReachesTest Compared lengths pkLength skLength withSeed (tr' ++ tr) res := by
  obtain ⟨pct, pk, sk, seedOut, tr₁, tr₂, hpct, hpk, hsk, hseed, rfl, htr₁, htest⟩ := h
  refine ⟨pct, pk, sk, seedOut, tr' ++ tr₁, tr₂, hpct, hpk, hsk, hseed, ?_, ?_, htest⟩
  · rw [List.append_assoc]
  · exact List.forall_mem_append.mpr ⟨htr', htr₁⟩

@[simp] theorem writeFront_length (buf bs : Bytes) : (writeFront buf bs).length = buf.length := by
  rw [writeFront, List.length_append, List.length_take, List.length_drop]
  omega

theorem generateTested_returns {engine : Code KeygenOut} {pct : Bytes → Bytes → Code Bool}
    {seedOut : Option Bytes} (hengine : engine.Only ServiceOp)
    (hpct : IsPairwiseTest Compared pct)
    (h : (generateTested engine pct lengths pk sk seedOut).Returns tr res) :
    Stopped tr res ∨
      ReachesTest Compared lengths pk.length sk.length seedOut.isSome tr res := by
  obtain ⟨tr₁, out, tr₂, rfl, h₁, h₂⟩ := returns_bind.mp h
  have htr₁ := hengine.of_returns h₁
  split at h₂
  next hstatus =>
    obtain ⟨rfl, rfl⟩ := returns_ret.mp h₂
    rw [List.append_nil]
    exact .inl ⟨hstatus, htr₁⟩
  next =>
    refine .inr ⟨pct, _, _, _, tr₁, tr₂, hpct, ?_, ?_, ?_, rfl, htr₁, h₂⟩
    · rw [writeFront_length]
    · rw [writeFront_length]
    · rw [Option.isSome_map]

/-- The gate and the checks of a function with a handle either return an error, or leave the rest to
the body, on pointers that are not NULL. -/
theorem handleKeygen_returns {α : Type} {handle : Option α} {argError : Status} {argsOk : Bool}
    {buffers : KeyBuffers} {body : α → Bytes → Bytes → Code KeygenResult} {lengthsOf : α → ℕ × ℕ}
    (harg : argError ≠ .success)
    (hbody : ∀ x pk sk tr, handle = some x → buffers.publicKey = some pk →
      buffers.secretKey = some sk → (body x pk sk).Returns tr res → Stopped tr res ∨
        ReachesTest Compared (lengthsOf x) pk.length sk.length withSeed tr res)
    (h : (handleKeygen handle argError argsOk buffers body).Returns tr res) :
    Stopped tr res ∨ ∃ lengths pk sk, handle.map lengthsOf = some lengths ∧
      buffers.publicKey = some pk ∧ buffers.secretKey = some sk ∧
      ReachesTest Compared lengths pk.length sk.length withSeed tr res := by
  obtain ⟨tr₁, tr₂, rfl, ⟨h₁, h₂⟩ | ⟨h₁, h₂⟩⟩ := returns_guard h
  · obtain ⟨rfl, rfl⟩ := returns_ret.mp h₂
    rw [List.append_nil]
    exact .inl ⟨by simp, isRunningOrSelftest_only.of_returns h₁⟩
  have htr₁ := isRunningOrSelftest_only.of_returns h₁
  obtain ⟨tr₃, tr₄, rfl, ⟨h₃, h₄⟩ | ⟨h₃, h₄⟩⟩ := returns_guard h₂
  all_goals have htr₃ := (fipsIndCheck_only handle.isSome).of_returns h₃
  · obtain ⟨rfl, rfl⟩ := returns_ret.mp h₄
    rw [List.append_nil]
    exact .inl ⟨by simp, List.forall_mem_append.mpr ⟨htr₁, htr₃⟩⟩
  split at h₄
  next x pk sk hpk hsk =>
    obtain hstop | htest := hbody x pk sk tr₄ rfl hpk hsk h₄
    · exact .inl ((hstop.prepend htr₃).prepend htr₁)
    · exact .inr ⟨_, pk, sk, rfl, hpk, hsk, (htest.prepend htr₃).prepend htr₁⟩
  next =>
    obtain ⟨rfl, rfl⟩ := returns_ret.mp h₄
    rw [List.append_nil]
    exact .inl ⟨harg, List.forall_mem_append.mpr ⟨htr₁, htr₃⟩⟩

/-- A direct function leaves buffers of the lengths it was given. -/
theorem directKeygen_returns {argError : Status} {argsOk : Bool}
    {engine : Code KeygenOut}
    (h : (directKeygen argError argsOk ⟨some pk, some sk, none⟩ engine).Returns tr res) :
    ∃ pk' sk', res.buffers = ⟨some pk', some sk', none⟩ ∧ pk'.length = pk.length ∧
      sk'.length = sk.length := by
  obtain ⟨tr₁, tr₂, rfl, ⟨-, h₂⟩ | ⟨-, h₂⟩⟩ := returns_guard h
  · obtain ⟨-, rfl⟩ := returns_ret.mp h₂
    exact ⟨pk, sk, rfl, rfl, rfl⟩
  cases argsOk with
  | false =>
    obtain ⟨-, rfl⟩ := returns_ret.mp h₂
    exact ⟨pk, sk, rfl, rfl, rfl⟩
  | true =>
    obtain ⟨tr₃, out, tr₄, rfl, -, h₄⟩ := returns_bind.mp h₂
    obtain ⟨-, rfl⟩ := returns_ret.mp h₄
    exact ⟨_, _, rfl, writeFront_length _ _, writeFront_length _ _⟩

/-- The body of `QUDO_MLDSA_keypair`, which generates through a function with a gate of its own. -/
theorem mldsaKeypair_body_returns
    (h : ((mldsaDirectKeypair ⟨some pk, some sk, none⟩).bind fun res ↦
      match res.status, res.buffers.publicKey, res.buffers.secretKey with
      | .success, some pk, some sk => pairwiseTested mldsaPct lengths pk sk none
      | _, _, _ => .ret res).Returns tr res) :
    Stopped tr res ∨ ReachesTest SignatureCompared lengths pk.length sk.length false tr res := by
  obtain ⟨tr₁, mid, tr₂, rfl, h₁, h₂⟩ := returns_bind.mp h
  have htr₁ := (directKeygen_only _ _ _ (engineKeypair_only (randombytes_only _) _)).of_returns h₁
  obtain ⟨pk', sk', hbuffers, hpk, hsk⟩ := directKeygen_returns h₁
  by_cases hmid : mid.status = .success
  · simp only [hmid, hbuffers] at h₂
    exact .inr ⟨mldsaPct, pk', sk', none, tr₁, tr₂, mldsaPct_isPairwiseTest, hpk, hsk, rfl, rfl,
      htr₁, h₂⟩
  · have hret : (.ret mid : Code KeygenResult).Returns tr₂ res := by
      revert h₂
      split
      next hsuccess _ _ => exact absurd hsuccess hmid
      next => exact id
    obtain ⟨rfl, rfl⟩ := returns_ret.mp hret
    rw [List.append_nil]
    exact .inl ⟨hmid, htr₁⟩

end Paths

/-- **The shape of a path.** A call of a function with a handle returns an error before any report,
or gets as far as its pairwise test. -/
theorem keygenCode_returns {call : KeygenCall} {tr : Trace} {res : KeygenResult}
    (hhandle : call.function.hasHandle = true) (h : (keygenCode call).Returns tr res) :
    Stopped tr res ∨ ∃ lengths pk sk, call.function.lengths = some lengths ∧
      call.publicKey = some pk ∧ call.secretKey = some sk ∧
      ReachesTest call.function.Compared lengths pk.length sk.length call.handsOutSeed tr res := by
  obtain ⟨function, publicKey, secretKey⟩ := call
  cases function with
  | kemKeypairGenerate | mldsaDirectKeypair | mldsaDirectKeypairInternal | slhdsaDirectKeypair =>
    cases hhandle
  | kemKeypair kem =>
    exact handleKeygen_returns (by decide) (fun _ _ _ _ _ _ _ hbody ↦ generateTested_returns
      (engineKeypair_only (randombytes_only _) _) (mlkemPct_isPairwiseTest false) hbody) h
  | kemKeypairDerand kem seedOut =>
    refine handleKeygen_returns (by decide) (fun level pk sk tr hkem hpk hsk hbody ↦ ?_) h
    subst hkem
    obtain rfl : publicKey = some pk := hpk
    obtain rfl : secretKey = some sk := hsk
    split at hbody
    next hsmall =>
      obtain ⟨rfl, rfl⟩ := returns_ret.mp hbody
      exact .inl ⟨by simp, by simp⟩
    next hfits =>
      have hseed : seedOut.isSome = KeygenCall.handsOutSeed
          ⟨.kemKeypairDerand (some level) seedOut, some pk, some sk⟩ := by
        cases seedOut with
        | none => rfl
        | some buf =>
          have hlength : kemSeedBytes ≤ buf.length := by simpa using hfits
          simp [KeygenCall.handsOutSeed, hlength]
      rw [← hseed]
      exact generateTested_returns (engineKeypair_only (randombytes_only _) _)
        (mlkemPct_isPairwiseTest false) hbody
  | kemKeypairFromSeed kem seed =>
    exact handleKeygen_returns (by decide) (fun _ _ _ _ _ _ _ hbody ↦ generateTested_returns
      engineKeygen_only (mlkemPct_isPairwiseTest false) hbody) h
  | mldsaKeypair sig =>
    exact handleKeygen_returns (by decide) (fun _ _ _ _ _ _ _ hbody ↦
      mldsaKeypair_body_returns hbody) h
  | mldsaKeypairInternal sig seed =>
    exact handleKeygen_returns (by decide) (fun _ _ _ _ _ _ _ hbody ↦ generateTested_returns
      engineKeygen_only mldsaPct_isPairwiseTest hbody) h
  | slhdsaKeypair sig =>
    exact handleKeygen_returns (by decide) (fun ps _ _ _ _ _ _ hbody ↦ generateTested_returns
      (slhdsaVariantKeypair_only ps) (slhdsaPct_isPairwiseTest ps) hbody) h
  | slhdsaKeypairInternal sig seeds =>
    exact handleKeygen_returns (by decide) (fun ps _ _ _ _ _ _ hbody ↦ generateTested_returns
      engineKeygen_only (slhdsaPct_isPairwiseTest ps) hbody) h

/-! ## After the test -/

section Tested

variable {Compared : Trace → Bytes → Bytes → Prop} {pct : Bytes → Bytes → Code Bool}
  {lengths : ℕ × ℕ} {pk sk : Bytes} {seedOut : Option Bytes} {tr : Trace} {res : KeygenResult}

/-- A success with a test that was not skipped: the keys returned are those compared. -/
theorem pairwiseTested_passed (hpct : IsPairwiseTest Compared pct)
    (h : (pairwiseTested pct lengths pk sk seedOut).Returns tr res)
    (hres : res.status = .success) (hnot : NotSelfTesting tr) :
    res.buffers.publicKey = some pk ∧ res.buffers.secretKey = some sk ∧
      ∃ tr', tr'.Sublist tr ∧ Compared tr' pk sk := by
  obtain ⟨tr₁, skipped, tr₂, rfl, h₁, h₂⟩ := returns_bind.mp h
  obtain ⟨st, rfl, rfl⟩ := isSelfTesting_returns h₁
  have hst : st ≠ .selftest := hnot st (List.mem_append_left _ List.mem_cons_self)
  rw [decide_eq_false hst] at h₂
  obtain ⟨tr₃, tr₄, rfl, ⟨-, h₄⟩ | ⟨h₃, h₄⟩⟩ := returns_guard h₂
  · obtain ⟨_, _, _, rfl, -, hret⟩ := returns_bind.mp h₄
    obtain ⟨-, rfl⟩ := returns_ret.mp hret
    cases hres
  · obtain ⟨-, rfl⟩ := returns_ret.mp h₄
    have hsub : tr₃.Sublist ([⟨.load .selfTesting, st⟩] ++ (tr₃ ++ tr₄)) :=
      (List.sublist_append_left _ _).trans (List.sublist_append_right _ _)
    exact ⟨rfl, rfl, tr₃, hsub, hpct.passed h₃ (hnot.sublist hsub)⟩

/-- A reported failure: the keys are cleansed, and setting the error state is the last thing that
happens. -/
theorem pairwiseTested_failed (hpct : IsPairwiseTest Compared pct)
    (h : (pairwiseTested pct lengths pk sk seedOut).Returns tr res)
    (hfail : ⟨.stEnd false, ()⟩ ∈ tr) :
    res = ⟨.errorCrypto, ⟨some (cleanse pk lengths.1), some (cleanse sk lengths.2), seedOut⟩⟩ ∧
      ∃ tr₁ tr₂, tr = tr₁ ++ tr₂ ∧ (setErrorState (some stTypePct)).Returns tr₂ () := by
  obtain ⟨tr₁, skipped, tr₂, rfl, h₁, h₂⟩ := returns_bind.mp h
  have hnot₁ : ⟨.stEnd false, ()⟩ ∉ tr₁ := fun hm ↦ isSelfTesting_only.of_returns h₁ _ hm
  cases skipped with
  | true =>
    obtain ⟨rfl, -⟩ := returns_ret.mp h₂
    simp [hnot₁] at hfail
  | false =>
    obtain ⟨tr₃, tr₄, rfl, ⟨-, h₄⟩ | ⟨h₃, h₄⟩⟩ := returns_guard h₂
    · obtain ⟨tr₅, _, tr₆, rfl, h₅, hret⟩ := returns_bind.mp h₄
      obtain ⟨rfl, rfl⟩ := returns_ret.mp hret
      refine ⟨rfl, tr₁ ++ tr₃, tr₅, ?_, h₅⟩
      rw [List.append_nil, List.append_assoc]
    · -- the test passed, so it has not reported a failure
      obtain ⟨rfl, rfl⟩ := returns_ret.mp h₄
      have hmem : ⟨.stEnd false, ()⟩ ∈ tr₃ := by simpa [hnot₁] using hfail
      cases hpct.failed h₃ hmem

end Tested

end QudoPqc
