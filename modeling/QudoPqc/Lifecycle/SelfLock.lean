import QudoPqc.Lifecycle.Post

/-!
# The self-test thread and its own lock

`qudo_pqc_init` and `qudo_pqc_self_test` run the self-tests while they hold `g_self_test_lock` as a
writer, and the lock is not reentrant. The functions the tests call take the same lock as readers
in two places: a gate that finds the state ERROR reports it, and a pairwise test that does not find
the state SELFTEST fetches the self-test callback. Neither happens as long as the state stays
SELFTEST, and nothing but a store from outside can change it, since a self-test that itself sets
the error state (a failed entropy health test) stops before the next gate.

## The phases

`lockDiscipline` follows one thread. Outside the lock everything is allowed. Once the lock is held,
no acquire is allowed; while the state is SELFTEST on the thread's behalf, gates are allowed and
answer SELFTEST, and when it is not, gates are not allowed. A gate that answers something else
during the tests shows that the thread does not hold the lock any more.
-/

namespace QudoPqc

open Concurrent

/-! ## The discipline -/

inductive LockPhase where
  /-- The thread does not hold the lock as a writer. -/
  | out
  /-- It took the lock, and passes no gate until it releases it. -/
  | held
  /-- It took the lock and runs the self-tests. -/
  | testing
  deriving DecidableEq, Repr

/-- The loads that may be followed by an acquire of the lock: gates, and the question whether the
module is testing itself. -/
def LoadsGate : Op → Prop
  | .load .gate | .load .selfTesting => True
  | _ => False

instance : DecidablePred LoadsGate := fun o ↦ by
  unfold LoadsGate
  split <;> infer_instance

def AcquiresLock : Op → Prop
  | .wrlock | .rdlock => True
  | _ => False

/-- The phase after an operation with its answer. -/
def LockPhase.next (φ : LockPhase) : (o : Op) → Resp o → LockPhase
  | .wrlock, r => if r then .held else φ
  | .unlock, _ => .out
  | .store _ v, _ => if φ = .out then .out else if v = .selftest then .testing else .held
  | .load site, r => if φ = .testing ∧ LoadsGate (.load site) ∧ r ≠ .selftest then .out else φ
  | _, _ => φ

/-- The answers the phase leaves possible: a thread that took the lock has seen the pointer, and
the pointer stays. -/
def LockPhase.Admits (φ : LockPhase) : (o : Op) → Resp o → Prop
  | .lockCreated, r => φ = .out ∨ r = true
  | _, _ => True

open LockPhase

def lockDiscipline : Discipline Op Resp LockPhase where
  Allowed φ o := (AcquiresLock o ∨ o = .rdunlock → φ = .out) ∧ (LoadsGate o → φ ≠ .held)
  Next φ o r φ' := φ' = φ.next o r ∧ φ.Admits o r

@[simp] theorem lockDiscipline_keeps_op {α : Type} {φ : LockPhase} {o : Op} {k : Resp o → Code α}
    {Q : LockPhase → α → Prop} : lockDiscipline.Keeps φ (.op o k) Q ↔
      ((AcquiresLock o ∨ o = .rdunlock → φ = .out) ∧ (LoadsGate o → φ ≠ .held)) ∧
        ∀ r, φ.Admits o r → lockDiscipline.Keeps (φ.next o r) (k r) Q := by
  rw [Discipline.keeps_op]
  refine and_congr_right fun _ ↦ forall_congr' fun r ↦ ?_
  constructor
  · intro h hr
    exact h _ ⟨rfl, hr⟩
  · rintro h φ' ⟨rfl, hr⟩
    exact h hr

/-- The wrappers may be called from outside the lock. -/
theorem keeps_out_of_only {α : Type} {p : Code α} (hp : p.Only WrapperOp) :
    lockDiscipline.Keeps .out p fun φ _ ↦ φ = .out := by
  have hallow (o : Op) (_ : WrapperOp o) : lockDiscipline.Allowed .out o :=
    ⟨fun _ ↦ rfl, fun _ ↦ by decide⟩
  refine Discipline.keeps_of_only hallow ?_ hp
  rintro o r φ' ho ⟨rfl, -⟩
  cases o <;> simp [next, WrapperOp] at ho ⊢

/-! ## Code that the self-tests run -/

/-- The code may be run from outside the lock and during the self-tests; if it loses the state
SELFTEST by its own doing, it does not return a value in `ok`. -/
structure TestSafe {α : Type} (ok : α → Prop) (p : Code α) : Prop where
  outside : lockDiscipline.Keeps .out p fun φ _ ↦ φ = .out
  inside : lockDiscipline.Keeps .testing p fun φ a ↦ φ = .held → ¬ok a

/-- After a failure the code returns without passing another gate. -/
def Stops {α : Type} (ok : α → Prop) (p : Code α) : Prop :=
  lockDiscipline.Keeps .held p fun φ a ↦ φ = .held → ¬ok a

variable {α β : Type} {ok : α → Prop} {ok' : β → Prop}

variable {p : Code α} {q : Code β} {o : Op} {φ : LockPhase} {r : Resp o} {t : ℕ} {w : Oracle}
  {s s' : Shared}

theorem TestSafe.ret (a : α) : TestSafe ok (.ret a) := ⟨rfl, by simp⟩

theorem TestSafe.bind {f : α → Code β} (hp : TestSafe ok p)
    (hf : ∀ a, TestSafe ok' (f a)) (hstop : ∀ a, ¬ok a → Stops ok' (f a)) :
    TestSafe ok' (p.bind f) := by
  constructor
  · rw [Discipline.keeps_bind]
    refine hp.outside.mono fun φ a hφ ↦ ?_
    rw [hφ]
    exact (hf a).outside
  · rw [Discipline.keeps_bind]
    refine hp.inside.mono fun φ a hφ ↦ ?_
    cases φ with
    | out => exact (hf a).outside.mono fun _ _ hout hheld ↦ by rw [hout] at hheld; cases hheld
    | held => exact hstop a (hφ rfl)
    | testing => exact (hf a).inside

/-- Sequencing after code that does not lose the state SELFTEST. -/
theorem TestSafe.seq {f : α → Code β} (hp : TestSafe (fun _ ↦ True) p)
    (hf : ∀ a, TestSafe ok' (f a)) : TestSafe ok' (p.bind f) :=
  hp.bind hf fun _ h ↦ absurd trivial h

theorem TestSafe.ite {c : Prop} [Decidable c] {q : Code α} (hp : TestSafe ok p)
    (hq : TestSafe ok q) : TestSafe ok (if c then p else q) := by
  split
  · exact hp
  · exact hq

/-- Operations that neither touch the lock nor load or store the module state. -/
def Plain : Op → Prop
  | .load _ | .store _ _ | .lockCreated | .wrlock | .rdlock | .rdunlock | .unlock => False
  | _ => True

theorem LockPhase.next_plain (ho : Plain o) (φ : LockPhase) (r : Resp o) :
    φ.next o r = φ := by
  cases o <;> simp [Plain, next] at ho ⊢

theorem TestSafe.op (ho : Plain o) {k : Resp o → Code α} (hk : ∀ r, TestSafe ok (k r)) :
    TestSafe ok (.op o k) := by
  have hallow (φ : LockPhase) :
      (AcquiresLock o ∨ o = .rdunlock → φ = .out) ∧ (LoadsGate o → φ ≠ .held) := by
    cases o <;> simp [Plain, AcquiresLock, LoadsGate] at ho ⊢
  constructor
  · refine lockDiscipline_keeps_op.mpr ⟨hallow _, fun r _ ↦ ?_⟩
    rw [next_plain ho]
    exact (hk r).outside
  · refine lockDiscipline_keeps_op.mpr ⟨hallow _, fun r _ ↦ ?_⟩
    rw [next_plain ho]
    exact (hk r).inside

/-- The early return of a test whose callee reports failure. -/
theorem TestSafe.guard {p : Code Bool} {x : β} (hp : TestSafe (· = true) p)
    (hx : ¬ok' x) (hq : TestSafe ok' q) :
    TestSafe ok' (p.bind fun b ↦ if (!b) = true then .ret x else q) := by
  refine hp.bind (fun b ↦ .ite (.ret x) hq) fun b hb ↦ ?_
  rw [Bool.not_eq_true] at hb
  subst hb
  exact fun _ ↦ hx

/-! ## The wrappers during the self-tests -/

theorem isRunningOrSelftest_testSafe : TestSafe (fun _ ↦ True) isRunningOrSelftest := by
  refine ⟨keeps_out_of_only (isRunningOrSelftest_only.mono ServiceOp.wrapper), ?_⟩
  simp [isRunningOrSelftest, reportErrorState, next, LoadsGate, AcquiresLock,
    ModuleState.forall_iff]

/-- The gate stands before everything else. -/
theorem TestSafe.gate {x : Code β} (hx : TestSafe ok' x) (hq : TestSafe ok' q) :
    TestSafe ok' (isRunningOrSelftest.bind fun b ↦ if (!b) = true then x else q) :=
  isRunningOrSelftest_testSafe.seq fun _ ↦ .ite hx hq

/-- What is done when the module is not testing itself is never done during the self-tests. -/
theorem TestSafe.unlessSelfTesting {x : Code β} (hx : TestSafe ok' x)
    (hq : lockDiscipline.Keeps .out q fun φ _ ↦ φ = .out) :
    TestSafe ok' (isSelfTesting.bind fun b ↦ if (!b) = true then q else x) := by
  have hq' : lockDiscipline.Keeps .out q fun φ a ↦ φ = .held → ¬ok' a :=
    hq.mono fun φ _ hout hheld ↦ by rw [hout] at hheld; cases hheld
  constructor
  · simp [isSelfTesting, next, LoadsGate, AcquiresLock, Admits,
      ModuleState.forall_iff, hq, hx.outside]
  · simp [isSelfTesting, next, LoadsGate, AcquiresLock, Admits,
      ModuleState.forall_iff, hq', hx.inside]

/-- A callee that sets the error state is followed by a return only. -/
theorem setErrorState_testSafe (type : Option String) :
    TestSafe (fun _ ↦ False) (setErrorState type) := by
  refine ⟨keeps_out_of_only ((setErrorState_only type).mono ServiceOp.wrapper), ?_⟩
  unfold setErrorState
  split
  · exact fun _ ↦ id
  · split <;> simp [next, LoadsGate, AcquiresLock]

theorem entropyHealthFail_testSafe : TestSafe (fun _ ↦ False) entropyHealthFail :=
  .op (by trivial) fun _ ↦ setErrorState_testSafe _

theorem platformEntropy_testSafe : TestSafe (· = true) platformEntropy := by
  have hfail : TestSafe (· = true) (entropyHealthFail.bind fun _ ↦ .ret false) :=
    entropyHealthFail_testSafe.bind (fun _ ↦ .ret false) fun _ _ ↦ by simp [Stops]
  have hread : TestSafe (· = true) (do
      if !(← arbitraryOutcome) then
        return false
      if !(← arbitraryOutcome) then
        entropyHealthFail
        return false
      return true : Code Bool) :=
    .op (by trivial) fun _ ↦ .ite (.ret _) <| .op (by trivial) fun _ ↦ .ite hfail (.ret _)
  refine .op (by trivial) fun _ ↦ .ite (.ret _) <| .op (by trivial) fun _ ↦ .ite ?_ hread
  exact .op (by trivial) fun _ ↦ .ite hfail <| .op (by trivial) fun _ ↦ hread

theorem randChunks_testSafe (chunks : ℕ) : TestSafe (· = true) (randChunks chunks) := by
  induction chunks with
  | zero => exact .ret true
  | succ chunks ih =>
    have hgenerate : TestSafe (· = true) (do
        if !(← arbitraryOutcome) then
          return false
        randChunks chunks : Code Bool) := .op (by trivial) fun _ ↦ .ite (.ret _) ih
    have hfail : TestSafe (· = true) ((setErrorState (some stTypeDrbgHealth)).bind fun _ ↦
        .ret false) :=
      (setErrorState_testSafe _).bind (fun _ ↦ .ret false) fun _ _ ↦ by simp [Stops]
    refine .op (by trivial) fun _ ↦ .ite ?_ hgenerate
    exact platformEntropy_testSafe.guard nofun <|
      .op (by trivial) fun _ ↦ .ite hfail hgenerate

theorem fipsRandBytes_testSafe (outLen : ℕ) : TestSafe (· = true) (fipsRandBytes outLen) := by
  refine .gate (.ret _) <| .op (by trivial) fun _ ↦ .ite (.ret _) <| .ite (.ret _) ?_
  exact .op (by trivial) fun _ ↦ .ite (.ret _) (randChunks_testSafe _)

theorem randombytesTest_testSafe : TestSafe (· = true) randombytesTest := by
  have hrandom : TestSafe (· = true) (randombytes 32) :=
    .op (by trivial) fun _ ↦ .ite (.ret _) (fipsRandBytes_testSafe 32)
  exact hrandom.guard nofun <| .op (by trivial) fun _ ↦ .ret _

theorem wrapperInit_testSafe (flag : Flag) : TestSafe (· = true) (wrapperInit flag) := by
  refine .op (by trivial) fun _ ↦ .ite (.ret _) <| .op (by trivial) fun _ ↦ .ite (.ret _) ?_
  exact randombytesTest_testSafe.guard nofun <| .op (by trivial) fun _ ↦ .ret _

theorem kemNew_testSafe : TestSafe (· = true) (kemNew true) := by
  have halloc : TestSafe (· = true) arbitraryOutcome := .op (by trivial) fun _ ↦ .ret _
  refine .gate (.ret _) <| .op (by trivial) fun _ ↦ .ite ?_ halloc
  exact (wrapperInit_testSafe .mlkemInit).guard nofun halloc

theorem mldsaNew_testSafe : TestSafe (· = true) (mldsaNew true) := by
  have halloc : TestSafe (· = true) (do
      if !(← arbitraryOutcome) then
        return false
      return true : Code Bool) := .op (by trivial) fun _ ↦ .ite (.ret _) (.ret _)
  refine .gate (.ret _) <| .op (by trivial) fun _ ↦ .ite ?_ halloc
  exact (wrapperInit_testSafe .mldsaInit).guard nofun halloc

theorem slhdsaNew_testSafe : TestSafe (· = true) (slhdsaNew true) :=
  .gate (.ret _) <| .op (by trivial) fun _ ↦ .ret _

theorem fipsIndCheck_testSafe (handle : Bool) : TestSafe (fun _ ↦ True) (fipsIndCheck handle) :=
  .ite (.ret _) <| .op (by trivial) fun _ ↦ .ite (.ret _) <| .op (by trivial) fun _ ↦ .ret _

theorem gated_testSafe {query : Bool} {body : Code Reply} {ok : Reply → Prop}
    (h : TestSafe ok body) : TestSafe ok (gated (.ok : Args query) body) :=
  .gate (.ret _) h

theorem gatedInd_testSafe {query : Bool} (handle : Bool) {body : Code Reply} {ok : Reply → Prop}
    (h : TestSafe ok body) : TestSafe ok (gatedInd handle (.ok : Args query) body) :=
  .gate (.ret _) <| (fipsIndCheck_testSafe handle).seq fun _ ↦ .ite (.ret _) h

/-- Key generation from a seed, the only kind the self-tests use. -/
theorem handleKeygen_testSafe {α : Type} (handle : α) (argError : Status) (lengths : ℕ × ℕ)
    (pct : α → Bytes → Bytes → Code Bool) (hpct : ∀ pk sk, (pct handle pk sk).Only WrapperOp)
    (size : α → ℕ × ℕ) {ok : KeygenResult → Prop} :
    TestSafe ok (handleKeygen (some handle) argError true (allocated lengths) fun h pk sk ↦
      generateTested engineKeygen (pct h) (size h) pk sk none) := by
  refine .gate (.ret _) <| (fipsIndCheck_testSafe true).seq fun _ ↦ .ite (.ret _) ?_
  refine .op (by trivial) fun out ↦ .ite (.ret _) <| .unlessSelfTesting (.ret _) ?_
  refine keeps_out_of_only ((hpct _ _).guard ?_ trivial)
  exact ((setErrorState_only _).mono ServiceOp.wrapper).bind fun _ ↦ trivial

/-! ## The self-tests -/

theorem forVectors_testSafe {γ : Type} (vectors : List γ) {test : γ → Code Bool}
    (h : ∀ v, TestSafe (· = true) (test v)) : TestSafe (· = true) (forVectors vectors test) := by
  induction vectors with
  | nil => exact .ret true
  | cons v vs ih => exact (h v).guard nofun ih

theorem postKeygen_testSafe {new : Code Bool} (hn : TestSafe (· = true) new) (lengths : ℕ × ℕ)
    {keygen : KeyBuffers → Code KeygenResult}
    (hk : TestSafe (fun _ ↦ True) (keygen (allocated lengths))) :
    TestSafe (· = true) (postKeygen new lengths keygen) := by
  refine hn.guard nofun <| .op (by trivial) fun _ ↦ .ite (.ret _) ?_
  exact hk.seq fun _ ↦ .ite (.ret _) <| .op (by trivial) fun _ ↦ .ret _

theorem postKem_testSafe (pk sk : Bytes) : TestSafe (· = true) (postKem pk sk) := by
  have hencaps : TestSafe (fun _ ↦ True) (kemEncapsDerand true .ok pk) :=
    gatedInd_testSafe _ <| .op (by trivial) fun _ ↦ .ret _
  have hdecaps (ct : Bytes) : TestSafe (fun _ ↦ True) (kemDecaps true .ok sk ct) :=
    gatedInd_testSafe _ <| .op (by trivial) fun _ ↦ .ret _
  refine kemNew_testSafe.guard nofun <| .op (by trivial) fun _ ↦ .ite (.ret _) ?_
  refine hencaps.seq fun _ ↦ .ite (.ret _) <| .op (by trivial) fun _ ↦ .ite (.ret _) ?_
  refine (hdecaps _).seq fun _ ↦ .ite (.ret _) <| .op (by trivial) fun _ ↦ .ite (.ret _) ?_
  exact (hdecaps _).seq fun _ ↦ .ite (.ret _) <| .op (by trivial) fun _ ↦ .ret _

theorem postSignature_testSafe {new : Code Bool} (hn : TestSafe (· = true) new)
    (lengths : ℕ × ℕ) {keygen : KeyBuffers → Code KeygenResult}
    (hk : TestSafe (fun _ ↦ True) (keygen (allocated lengths)))
    {sign : Bytes → Code Reply} (hs : ∀ sk, TestSafe (fun _ ↦ True) (sign sk))
    {verify : Bytes → Bytes → Code Reply} (hv : ∀ pk sig, TestSafe (fun _ ↦ True) (verify pk sig)) :
    TestSafe (· = true) (postSignature new lengths keygen sign verify) := by
  refine hn.guard nofun <| .op (by trivial) fun _ ↦ .ite (.ret _) ?_
  refine hk.seq fun _ ↦ .ite (.ret _) <| (hs _).seq fun _ ↦ .ite (.ret _) ?_
  refine .op (by trivial) fun _ ↦ .ite (.ret _) <| .op (by trivial) fun _ ↦ ?_
  exact (hv _ _).seq fun _ ↦ .ret _

theorem runPostPrimitives_testSafe : TestSafe (· = true) runPostPrimitives :=
  .op (by trivial) fun _ ↦ .ite (.ret _) <| .op (by trivial) fun _ ↦ .ite (.ret _) <|
    .op (by trivial) fun _ ↦ .ret _

theorem runPostAlgorithms_testSafe : TestSafe (· = true) runPostAlgorithms := by
  have hmlkem (level : KemLevel) : TestSafe (· = true) (postKeygenMlkem level) :=
    postKeygen_testSafe kemNew_testSafe _ <|
      handleKeygen_testSafe level _ _ (fun _ pk sk ↦ mlkemPct pk sk false)
        (fun pk sk ↦ mlkemPct_only pk sk false) KemLevel.lengths
  have hmldsa (level : MldsaLevel) (buffers : ℕ × ℕ) : TestSafe (fun _ ↦ True)
      (mldsaKeypairInternal (some level) true (allocated buffers)) :=
    handleKeygen_testSafe level _ _ (fun _ ↦ mldsaPct) mldsaPct_only MldsaLevel.lengths
  have hslhdsa (ps : SlhdsaParam) (buffers : ℕ × ℕ) : TestSafe (fun _ ↦ True)
      (slhdsaKeypairInternal (some ps) true (allocated buffers)) :=
    handleKeygen_testSafe ps _ _ slhdsaPct (slhdsaPct_only ps) SlhdsaParam.lengths
  have hsign (query : Bool) (sk : Bytes) :
      TestSafe (fun _ ↦ True) (gated (.ok : Args query) (engineSign sk)) :=
    gated_testSafe <| .op (by trivial) fun _ ↦ .ret _
  have hverify (pk sig : Bytes) :
      TestSafe (fun _ ↦ True) (gated (.ok : Args false) (replying (engineVerify pk sig))) :=
    gated_testSafe <| .op (by trivial) fun _ ↦ .ret _
  refine (forVectors_testSafe _ hmlkem).guard nofun ?_
  refine (forVectors_testSafe _ fun level ↦
    postKeygen_testSafe mldsaNew_testSafe _ (hmldsa level _)).guard nofun ?_
  refine (forVectors_testSafe _ fun ps ↦
    postKeygen_testSafe slhdsaNew_testSafe _ (hslhdsa ps _)).guard nofun ?_
  refine (forVectors_testSafe _ fun _ ↦ postKem_testSafe _ _).guard nofun ?_
  refine (forVectors_testSafe _ fun level ↦
    postSignature_testSafe mldsaNew_testSafe _ (hmldsa level _) (hsign _) hverify).guard nofun
      ?_
  exact forVectors_testSafe _ fun ps ↦ postSignature_testSafe slhdsaNew_testSafe _
    (hslhdsa ps _) (hsign _) fun pk sig ↦ gatedInd_testSafe _ (hverify pk sig)

theorem selfTestsAtInit_testSafe (config : PqcConfig) :
    TestSafe (· = true) (selfTestsAtInit config) := by
  have hintegrity : TestSafe (· = true) (verifyIntegrity config) := by
    unfold verifyIntegrity
    split
    · refine .op (by trivial) fun _ ↦ .ite (.ret _) <| .ite ?_ (.ret _)
      exact .op (by trivial) fun _ ↦ .ret _
    · exact .op (by trivial) fun _ ↦ .ret _
  have hseed : TestSafe (· = true) fipsRandSeedFromPlatform :=
    platformEntropy_testSafe.guard nofun <| .op (by trivial) fun _ ↦ .ite (.ret _) <|
      .op (by trivial) fun _ ↦ .ret _
  exact hintegrity.guard nofun <| runPostPrimitives_testSafe.guard nofun <|
    hseed.guard nofun runPostAlgorithms_testSafe

theorem selfTestsOnDemand_testSafe : TestSafe (· = true) selfTestsOnDemand := by
  refine .op (by trivial) fun _ ↦ .op (by trivial) fun _ ↦ .ite (.ret _) ?_
  exact runPostPrimitives_testSafe.guard nofun runPostAlgorithms_testSafe

/-! ## The life cycle functions -/

/-- The end of both self-test functions: the verdict is stored and the lock released, in whichever
phase the tests have ended. -/
theorem verdict_keeps {body : Code Bool} (h : TestSafe (· = true) body) (site : StoreSite) :
    lockDiscipline.Keeps .testing (body.bind fun ok ↦
      .op (.store site (if ok = true then .running else .error)) fun _ ↦
        .op .unlock fun _ ↦ .ret ok) fun φ _ ↦ φ = .out := by
  rw [Discipline.keeps_bind]
  refine h.inside.mono fun φ ok _ ↦ ?_
  simp [AcquiresLock, LoadsGate, next]

theorem qudoPqcInit_keeps (config : Option PqcConfig) :
    lockDiscipline.Keeps .out (qudoPqcInit fipsSelfTests config) fun φ _ ↦ φ = .out := by
  have htests := verdict_keeps (selfTestsAtInit_testSafe (config.getD .default)) .initVerdict
  simp [qudoPqcInit, runSelfTests, fipsSelfTests, next, Admits, LoadsGate,
    AcquiresLock, ModuleState.forall_iff, Prog.bind_assoc, htests]

theorem qudoPqcSelfTest_keeps :
    lockDiscipline.Keeps .out (qudoPqcSelfTest fipsSelfTests) fun φ _ ↦ φ = .out := by
  have htests := verdict_keeps selfTestsOnDemand_testSafe .selfTestVerdict
  simp [qudoPqcSelfTest, fipsSelfTests, next, Admits, LoadsGate,
    AcquiresLock, ModuleState.forall_iff, htests]

theorem qudoPqcFini_keeps : lockDiscipline.Keeps .out qudoPqcFini fun φ _ ↦ φ = .out := by
  simp [qudoPqcFini, qudoFipsRandCleanup, next, Admits, LoadsGate,
    AcquiresLock, ModuleState.forall_iff]

/-- Every call of the module follows the discipline, and ends outside the lock. -/
theorem moduleCode_keeps (call : ModuleCall) :
    lockDiscipline.Keeps .out (moduleCode call) fun φ _ ↦ φ = .out := by
  have hret {γ : Type} {p : Code γ} (f : γ → ModuleResult)
      (h : lockDiscipline.Keeps .out p fun φ _ ↦ φ = .out) :
      lockDiscipline.Keeps .out (p.bind fun a ↦ .ret (f a)) fun φ _ ↦ φ = .out :=
    Discipline.keeps_bind.mpr h
  cases call with
  | lifecycle call =>
    refine hret _ ?_
    cases call with
    | init config => exact Discipline.keeps_bind.mpr (qudoPqcInit_keeps config)
    | selfTest => exact Discipline.keeps_bind.mpr qudoPqcSelfTest_keeps
    | fini => exact Discipline.keeps_bind.mpr qudoPqcFini_keeps
    | setErrorState type =>
      exact Discipline.keeps_bind.mpr (keeps_out_of_only
        ((setErrorState_only type).mono ServiceOp.wrapper))
  | service call =>
    exact hret _ (keeps_out_of_only ((serviceCode_only call).mono ServiceOp.wrapper))
  | keygen call => exact hret _ (keeps_out_of_only (keygenCode_only call))

/-! ## Interference -/

/-- The operations by which a thread gives up the state SELFTEST that it tests under. -/
def EndsTests : Op → Prop
  | .store _ _ | .unlock => True
  | _ => False

theorem LockPhase.next_eq_self (hends : ¬EndsTests o)
    (hlock : o ≠ .wrlock) (hgate : φ = .testing → ¬LoadsGate o) : φ.next o r = φ := by
  cases o <;> simp_all [EndsTests, next]

theorem LockPhase.next_endsTests (hends : EndsTests o) :
    LockPhase.held.next o r = LockPhase.testing.next o r := by
  cases o <;> simp [EndsTests, next] at hends ⊢

/-- A gate or a pairwise test is still ahead before the thread stores its verdict. -/
def AwaitsGate {α : Type} (p : Code α) : Prop :=
  p.CanReach LoadsGate (fun o _ ↦ EndsTests o) fun _ ↦ False

/-- A self-test with no gate ahead does not depend on the state any more. -/
theorem keeps_held_of_testing :
    lockDiscipline.Keeps .testing p (fun φ _ ↦ φ = .out) → ¬AwaitsGate p →
      lockDiscipline.Keeps .held p fun φ _ ↦ φ = .out := by
  induction p with
  | ret a =>
    intro h
    cases h
  | op o k ih =>
    rw [lockDiscipline_keeps_op, lockDiscipline_keeps_op]
    rintro ⟨⟨hlock, -⟩, hk⟩ hgate
    have hnogate : ¬LoadsGate o := fun ho ↦ hgate (.inl ho)
    have hnolock : ¬(AcquiresLock o ∨ o = .rdunlock) := fun ho ↦ by cases hlock ho
    refine ⟨⟨fun ho ↦ absurd ho hnolock, fun ho ↦ absurd ho hnogate⟩, fun r hr ↦ ?_⟩
    have hr' : LockPhase.testing.Admits o r := by
      cases o <;> simp_all [Admits]
    have hwr : o ≠ .wrlock := by
      rintro rfl
      exact hnolock (.inl trivial)
    by_cases hends : EndsTests o
    · rw [next_endsTests hends]
      exact hk r hr'
    · have hkeep := hk r hr'
      rw [next_eq_self hends hwr fun _ ↦ hnogate] at hkeep ⊢
      exact ih r hkeep (Prog.not_canReach_of_op r hends hgate)

/-- The condition on a move: no thread takes the state SELFTEST away from another thread that
holds the lock as a writer and has a gate ahead. -/
def NoStoreDuringTests (c : ModuleConfig) (m : Move Oracle ModuleCall) : Prop :=
  ∀ t w thr site v k, m = .exec t w → c.threads t = some thr → thr.prog = .op (.store site v) k →
    v ≠ .selftest → ∀ u thr', u ≠ t → c.threads u = some thr' → c.shared.writer = some u →
      ¬AwaitsGate thr'.prog

/-- What the phase of thread `t` says about the shared state. -/
def LockPhase.Holds (s : Shared) (t : ℕ) : LockPhase → Prop
  | .out => s.writer ≠ some t
  | .held => s.lockCreated = true
  | .testing => s.lockCreated = true ∧ (s.writer = some t → s.state = .selftest)

/-- The writer is the thread that made itself the writer. -/
theorem not_writer_of_sem {u : ℕ}
    (hs : sem o t w s = some (r, s')) (h : s.writer ≠ some u) (ho : o = .wrlock → u ≠ t) :
    s'.writer ≠ some u := by
  intro hw
  rcases (sem_frame hs).writer u hw with hold | ⟨hlock, hut⟩
  · exact h hold
  · exact ho hlock hut

theorem not_writer_of_unlock {r : Unit}
    (hs : sem .unlock t w s = some (r, s')) : s'.writer ≠ some t := by
  cases hs
  split <;> simp_all

theorem eq_of_wrlock_failed
    (hs : sem .wrlock t w s = some (false, s')) : s' = s := by
  simp only [sem] at hs
  split at hs
  · exact (Prod.mk.inj (Option.some.inj hs)).2.symm
  · split at hs <;> simp at hs

theorem lockCreated_of_wrlock
    (hs : sem .wrlock t w s = some (true, s')) : s.lockCreated = true := by
  simp only [sem] at hs
  split at hs
  · cases hs
  next h => simp_all

/-- Storing the state, or releasing the lock, settles the phase of a thread that took it. -/
theorem LockPhase.Holds.endsTests
    (hends : EndsTests o) (hcreated : s'.lockCreated = true)
    (hs : sem o t w s = some (r, s')) : (LockPhase.testing.next o r).Holds s' t := by
  cases o with
  | unlock => exact not_writer_of_unlock hs
  | store site v =>
    have hstate : s'.state = v := by rw [(sem_frame hs).store site v rfl]; rfl
    by_cases hv : v = .selftest
    · simp only [next, hv]
      exact ⟨hcreated, fun _ ↦ hstate.trans hv⟩
    · simp only [next, hv]
      exact hcreated
  | _ => cases hends

/-- A thread's own operation takes it to the next phase. -/
theorem LockPhase.Holds.own (h : φ.Holds s t) (hG : s.lockCreated = true → s.onceDone = true)
    (hallow : lockDiscipline.Allowed φ o) (hs : sem o t w s = some (r, s')) :
    (φ.next o r).Holds s' t := by
  have hkeep : s.lockCreated = true → s'.lockCreated = true := ((sem_frame hs).created hG).2
  have hlock (hφ : φ ≠ .out) : o ≠ .wrlock := by
    rintro rfl
    exact hφ (hallow.1 (.inl trivial))
  cases φ with
  | out =>
    by_cases hwr : o = .wrlock
    · subst hwr
      cases r with
      | false =>
        rw [eq_of_wrlock_failed hs]
        exact h
      | true => exact hkeep (lockCreated_of_wrlock hs)
    · have hnext : LockPhase.out.next o r = .out := by
        cases o <;> simp_all [next]
      rw [hnext]
      exact not_writer_of_sem hs h fun ho ↦ absurd ho hwr
  | held =>
    by_cases hends : EndsTests o
    · rw [next_endsTests hends]
      exact .endsTests hends (hkeep h) hs
    · rw [next_eq_self hends (hlock (by decide)) (by simp)]
      exact hkeep h
  | testing =>
    by_cases hends : EndsTests o
    · exact .endsTests hends (hkeep h.1) hs
    · have hstate : s'.state = s.state := by
        refine (sem_frame hs).state fun site v ho ↦ ?_
        subst ho
        exact hends trivial
      have hwriter : s'.writer = some t → s.state = .selftest := by
        intro hw
        by_contra hne
        exact not_writer_of_sem hs (fun hw' ↦ hne (h.2 hw'))
          (fun ho ↦ absurd ho (hlock (by decide))) hw
      by_cases hgate : LoadsGate o
      · obtain ⟨site, rfl⟩ : ∃ site, o = .load site := by
          cases o <;> simp [LoadsGate] at hgate ⊢
        by_cases hr : r = .selftest
        · have hnext : LockPhase.testing.next (.load site) r = .testing := by
            simp [next, hr]
          rw [hnext]
          exact ⟨hkeep h.1, fun hw ↦ hstate.trans (hwriter hw)⟩
        · -- the answer is the state, so the lock has been lost
          have hnext : LockPhase.testing.next (.load site) r = .out := by
            simp [next, hgate, hr]
          rw [hnext]
          exact fun hw ↦ hr ((sem_load hs).trans (hwriter hw))
      · rw [next_eq_self hends (hlock (by decide)) fun _ ↦ hgate]
        exact ⟨hkeep h.1, fun hw ↦ hstate.trans (hwriter hw)⟩

theorem LockPhase.Holds.admits (h : φ.Holds s t) (hs : sem o t w s = some (r, s')) :
    φ.Admits o r := by
  cases o with
  | lockCreated =>
    cases hs
    cases φ with
    | out => exact .inl rfl
    | held => exact .inr h
    | testing => exact .inr h.1
  | _ => trivial

/-- Another thread's operation leaves the phase right, unless it takes the state SELFTEST away;
then there is no gate ahead, and the phase is `held`. -/
theorem LockPhase.Holds.other {u : ℕ} (h : φ.Holds s u)
    (hG : s.lockCreated = true → s.onceDone = true) (hut : u ≠ t)
    (hs : sem o t w s = some (r, s'))
    (hp : lockDiscipline.Keeps φ p fun φ _ ↦ φ = .out)
    (hP : ∀ site v, o = .store site v → v ≠ .selftest → s.writer = some u → ¬AwaitsGate p) :
    ∃ φ', φ'.Holds s' u ∧ lockDiscipline.Keeps φ' p fun φ _ ↦ φ = .out := by
  have hkeep : s.lockCreated = true → s'.lockCreated = true := ((sem_frame hs).created hG).2
  cases φ with
  | out => exact ⟨.out, not_writer_of_sem hs h fun _ ↦ hut, hp⟩
  | held => exact ⟨.held, hkeep h, hp⟩
  | testing =>
    have hwriter : s'.writer = some u → s.writer = some u := by
      intro hw
      by_contra hne
      exact not_writer_of_sem hs hne (fun _ ↦ hut) hw
    rcases sem_store_or hs with ⟨site, v, rfl, hv⟩ | ⟨-, hstate⟩
    · by_cases hlost : v ≠ .selftest ∧ s.writer = some u
      · exact ⟨.held, hkeep h.1, keeps_held_of_testing hp (hP site v rfl hlost.1 hlost.2)⟩
      · refine ⟨.testing, ⟨hkeep h.1, fun hw ↦ ?_⟩, hp⟩
        by_contra hne
        refine hlost ⟨fun hvs ↦ hne ?_, hwriter hw⟩
        rw [hv]
        exact hvs
    · exact ⟨.testing, ⟨hkeep h.1, fun hw ↦ hstate.trans (h.2 (hwriter hw))⟩, hp⟩

/-! ## The result -/

/-- The outline of every run: each thread is in a phase of the discipline. -/
abbrev LockOutline : ModuleConfig → Prop :=
  Machine.Outline (fun _ ↦ lockDiscipline) (fun s ↦ s.lockCreated = true → s.onceDone = true)
    (fun s t ↦ s.writer ≠ some t) (fun s t _ φ ↦ φ.Holds s t) fun _ φ _ ↦ φ = .out

theorem lockOutline_next {c c' : ModuleConfig} {m : Move Oracle ModuleCall} (hc : LockOutline c)
    (hP : NoStoreDuringTests c m) (h : pqcModule.next c m = some c') : LockOutline c' := by
  refine Machine.outline_next ?_ ?_ ?_ ?_ ?_ hc h
  · intro t call _ hidle
    exact ⟨.out, hidle, moduleCode_keeps call⟩
  · rintro t call entry a tr φ hφ rfl
    exact hφ
  · intro t w o r s' u hs hut hidle
    exact not_writer_of_sem hs hidle fun _ ↦ hut
  · intro t w call entry o k tr r s' φ _ _ hs hG hφ hallow
    refine ⟨((sem_frame hs).created hG).1, φ.next o r, ⟨rfl, hφ.admits hs⟩, ?_⟩
    exact hφ.own hG hallow hs
  · intro t w call entry o k tr r s' φ u thr ψ hm ht hs _ _ hut hu hψ hkeep
    refine hψ.other hc.good hut hs hkeep fun site v ho hv hw ↦ ?_
    subst ho
    exact hP t w _ site v k hm ht rfl hv u thr hut hu hw

/-- **No self-deadlock.** In every run from module load in which no thread takes the state SELFTEST
away from a self-test with a gate ahead, no thread that holds the self-test lock as a writer is
about to acquire it again. -/
theorem no_self_acquire {c : ModuleConfig}
    (h : pqcModule.Reaches NoStoreDuringTests pqcModule.loaded c) {t : ℕ}
    (hw : c.shared.writer = some t) : c.nextOp t ≠ some .wrlock ∧ c.nextOp t ≠ some .rdlock := by
  have hc : LockOutline c := by
    refine h.invariant (I := LockOutline) ⟨?_, ?_, ?_⟩ fun _ _ _ hI hP hn ↦
      lockOutline_next hI hP hn
    · exact nofun
    · intro t _ ht
      cases ht
    · intro t thr ht
      cases ht
  have hlock (o : Op) (ho : AcquiresLock o) : c.nextOp t ≠ some o := by
    intro hnext
    obtain ⟨thr, k, ht, hp⟩ := Config.nextOp_eq_some hnext
    obtain ⟨φ, hφ, hkeep⟩ := hc.running t thr ht
    rw [hp] at hkeep
    have hout : φ = .out := hkeep.1.1 (.inl ho)
    rw [hout] at hφ
    exact hφ hw
  exact ⟨hlock _ trivial, hlock _ trivial⟩

theorem noStoreDuringTests_of_alone {c : ModuleConfig} {m : Move Oracle ModuleCall}
    (hc : Machine.Alone t c) (hm : m.thread = t) : NoStoreDuringTests c m := by
  intro t' w thr site v k hexec _ _ _ u thr' hu hthr'
  subst hexec
  obtain rfl : t' = t := hm
  rw [hc u hu] at hthr'
  cases hthr'

/-- Thread 0 initialises the module up to the first gate of its self-tests. -/
def firstGateSchedule : List (Move Oracle ModuleCall) :=
  .start 0 (.lifecycle (.init none)) :: List.replicate 22 (.exec 0 { bit := true })

/-- The thread that initialises the module arrives at the first gate with the lock in its hands,
and does not acquire it. -/
theorem no_self_acquire_at_first_gate :
    ∃ c, pqcModule.Reaches NoStoreDuringTests pqcModule.loaded c ∧ c.shared.writer = some 0 ∧
      c.nextOp 0 = some (.load .gate) ∧ c.nextOp 0 ≠ some .wrlock ∧ c.nextOp 0 ≠ some .rdlock := by
  have hmeets : pqcModule.Meets NoStoreDuringTests pqcModule.loaded firstGateSchedule :=
    Machine.meets_of_alone (fun _ _ ↦ noStoreDuringTests_of_alone) (by decide)
      (Machine.alone_idle 0 _)
  obtain ⟨c, hreach, hc⟩ := Machine.exists_reaches
    (f := fun c ↦ (c.shared.writer, c.nextOp 0)) (v := (some 0, some (.load .gate))) hmeets rfl
  rw [Prod.mk.injEq] at hc
  exact ⟨c, hreach, hc.1, hc.2, no_self_acquire hreach hc.1⟩

/-- The error state set by another thread just before the first gate: the gate reports it, and the
report acquires the lock that the thread holds. -/
theorem self_acquire_possible :
    ¬∀ c, pqcModule.Reaches (fun _ _ ↦ True) pqcModule.loaded c → ∀ t, c.shared.writer = some t →
      c.nextOp t ≠ some .wrlock ∧ c.nextOp t ≠ some .rdlock := by
  intro hall
  obtain ⟨c, hreach, hc⟩ := Machine.exists_reaches (M := pqcModule) (c := pqcModule.loaded)
    (f := fun c ↦ (c.shared.writer, c.nextOp 0)) (v := (some 0, some .rdlock))
    (Machine.meets_of_forall (fun _ _ ↦ trivial) (firstGateSchedule ++
      [.start 1 (.lifecycle (.setErrorState none)), .exec 1 {}] ++
        List.replicate 4 (.exec 0 {})) _) rfl
  rw [Prod.mk.injEq] at hc
  exact (hall c hreach 0 hc.1).2 hc.2

end QudoPqc
