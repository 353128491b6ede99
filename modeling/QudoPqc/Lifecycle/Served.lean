import QudoPqc.Lifecycle.Post

/-!
# Services and the power-on self-tests

The gate of the services accepts SELFTEST as well as RUNNING, because the self-tests call the same
functions. RUNNING is only ever stored after a self-test run, so a gate that answers RUNNING is a
proof that the tests of `qudo_pqc_init` have passed. SELFTEST is not: it is also the state of a
module that was loaded and never initialised, and of a module inside its first self-test.

## What a thread relies on

`postDiscipline` follows whether a thread may rely on the tests having passed. It may after a load
that answers RUNNING, a service may after any gate it passes, and it may not after tearing the
module down. To return success, or to store RUNNING after an on-demand self-test, it must. The two
ways in which another thread can disappoint it are a teardown while it relies on the tests, and a
gate that answers SELFTEST before they have passed; they are excluded by `ServesTested`.
-/

namespace QudoPqc

open Concurrent
open Discipline (keeps_bind)

/-! ## The discipline -/

inductive PostPhase where
  | unknown
  /-- The self-tests of `qudo_pqc_init` have passed since load or the last teardown. -/
  | passed
  deriving DecidableEq, Repr

/-- The call is made by an application, not by the life cycle functions. -/
def ModuleCall.serves : ModuleCall → Bool
  | .lifecycle _ => false
  | .service _ | .keygen _ => true

/-- The answers that show that the self-tests have passed. -/
def ShowsPassed (serves : Bool) : (o : Op) → Resp o → Prop
  | .load .fini, _ => False
  | .load site, r => r = .running ∨ (serves = true ∧ site = .gate ∧ r = .selftest)
  | _, _ => False

/-- The operations with which `qudo_pqc_fini` takes effect, depending on the state. -/
def TearsDown (state : ModuleState) : Op → Prop
  | .store .fini _ => True
  | .load .fini => state = .error
  | _ => False

/-- A store of RUNNING other than the verdict of `qudo_pqc_init`. -/
def NeedsPassed : Op → Prop
  | .store site v => v = .running ∧ site ≠ .initVerdict
  | _ => False

/-- The phase after an operation with its answer. -/
def PostPhase.next (serves : Bool) (φ : PostPhase) : (o : Op) → Resp o → PostPhase
  | .load .fini, _ => .unknown
  | .load site, r =>
    if r = .running ∨ (serves = true ∧ site = .gate ∧ r = .selftest) then .passed else φ
  | .store .initVerdict v, _ => if v = .running then .passed else φ
  | .store .fini _, _ => .unknown
  | _, _ => φ

def postDiscipline (serves : Bool) : Discipline Op Resp PostPhase where
  Allowed φ o := NeedsPassed o → φ = .passed ∧ ∀ v, o ≠ .store .fini v
  Next φ o r φ' := φ' = φ.next serves o r

@[simp] theorem postDiscipline_keeps_op {α : Type} {serves : Bool} {φ : PostPhase} {o : Op}
    {k : Resp o → Code α} {Q : PostPhase → α → Prop} :
    (postDiscipline serves).Keeps φ (.op o k) Q ↔
      (NeedsPassed o → φ = .passed ∧ ∀ v, o ≠ .store .fini v) ∧
        ∀ r, (postDiscipline serves).Keeps (φ.next serves o r) (k r) Q := by
  rw [Discipline.keeps_op]
  refine and_congr_right fun _ ↦ forall_congr' fun r ↦ ?_
  constructor
  · intro h
    exact h _ rfl
  · rintro h φ' rfl
    exact h

/-- The call returned success to an application. -/
def Succeeds : ModuleResult → Prop
  | .lifecycle _ => False
  | .service reply => reply.status = .success
  | .keygen res => res.status = .success

variable {α : Type} {serves : Bool}

variable {p : Code α} {o : Op} {t : ℕ} {w : Oracle} {s s' : Shared} {r : Resp o} {φ : PostPhase}

/-- The wrappers do not lose what is known. -/
theorem keeps_passed_of_only (hp : p.Only WrapperOp) :
    (postDiscipline serves).Keeps .passed p fun φ _ ↦ φ = .passed := by
  have hallow (o : Op) (ho : WrapperOp o) : (postDiscipline serves).Allowed .passed o := by
    refine fun _ ↦ ⟨rfl, fun v hv ↦ ?_⟩
    subst hv
    cases ho.1
  refine Discipline.keeps_of_only hallow ?_ hp
  rintro o r φ' ho rfl
  cases o with
  | load site => cases site <;> simp [WrapperOp, PostPhase.next] at ho ⊢
  | store site v => cases site <;> simp [WrapperOp, PostPhase.next] at ho ⊢
  | _ => rfl

/-- The wrappers do nothing that needs the tests to have passed, except returning success. -/
theorem keeps_of_wrapper (hp : p.Only WrapperOp) :
    ∀ φ, (postDiscipline serves).Keeps φ p fun _ _ ↦ True := by
  induction p with
  | ret a => exact fun _ ↦ trivial
  | op o k ih =>
    intro φ
    refine postDiscipline_keeps_op.mpr ⟨fun hneeds ↦ ?_, fun r ↦ ih r (hp.2 r) _⟩
    cases o with
    | store site v =>
      have hv : v = .error := hp.1.2
      rw [hneeds.1] at hv
      cases hv
    | _ => cases hneeds

/-- A service that has passed its gate may rely on the self-tests. -/
theorem isRunningOrSelftest_shows (φ : PostPhase) :
    (postDiscipline true).Keeps φ isRunningOrSelftest fun φ' b ↦ b = true → φ' = .passed := by
  simp [isRunningOrSelftest, reportErrorState, PostPhase.next, NeedsPassed,
    ModuleState.forall_iff]

/-! ## The services -/

/-- Whatever is known at the beginning, a result in `good` is returned only when the self-tests are
known to have passed. -/
def ServesPassed (good : α → Prop) (p : Code α) : Prop :=
  ∀ φ, (postDiscipline true).Keeps φ p fun φ' a ↦ good a → φ' = .passed

theorem isRunningOrSelftest_returns :
    isRunningOrSelftest.Returns [⟨.load .gate, .running⟩] true := by
  refine Prog.returns_op.mpr ⟨ModuleState.running, [], rfl, ?_⟩
  exact .ret _

/-- What begins with a gate and stays within the wrapper operations. -/
theorem servesPassed_of_gateFirst {good : α → Prop} (hgate : GateFirst good p)
    (honly : p.Only WrapperOp) : ServesPassed good p := by
  obtain ⟨a, ha, rfl⟩ | ⟨f, a, ha, hf, rfl⟩ := hgate
  · exact fun _ hgood ↦ absurd hgood ha
  · have hrest : (postDiscipline true).Keeps .passed (f true) fun φ' a ↦ good a → φ' = .passed := by
      refine (keeps_passed_of_only (Prog.Only.of_bind isRunningOrSelftest_returns honly)).mono ?_
      intro _ _ hpassed _
      exact hpassed
    intro φ
    rw [keeps_bind]
    refine (isRunningOrSelftest_shows φ).mono fun φ' b hb ↦ ?_
    cases b with
    | false =>
      rw [hf]
      exact fun hgood ↦ absurd hgood ha
    | true =>
      rw [hb rfl]
      exact hrest

/-! ## The life cycle functions -/

theorem qudoPqcInit_serves (config : Option PqcConfig) (φ : PostPhase) :
    (postDiscipline false).Keeps φ (qudoPqcInit fipsSelfTests config) fun _ _ ↦ True := by
  have htests (φ : PostPhase) : (postDiscipline false).Keeps φ
      ((selfTestsAtInit (config.getD .default)).bind fun ok ↦
        .op (.store .initVerdict (if ok = true then .running else .error)) fun _ ↦
          .op .unlock fun _ ↦ .ret ok) fun _ _ ↦ True := by
    refine keeps_bind.mpr ((keeps_of_wrapper (selfTestsAtInit_only _) φ).mono ?_)
    intro φ' ok _
    simp [NeedsPassed]
  simp [qudoPqcInit, runSelfTests, fipsSelfTests, NeedsPassed, ModuleState.forall_iff,
    Prog.bind_assoc, htests]

/-- The on-demand self-test begins only after it has found the state RUNNING. -/
theorem qudoPqcSelfTest_serves (φ : PostPhase) :
    (postDiscipline false).Keeps φ (qudoPqcSelfTest fipsSelfTests) fun _ _ ↦ True := by
  have htests : (postDiscipline false).Keeps .passed (selfTestsOnDemand.bind fun ok ↦
      .op (.store .selfTestVerdict (if ok = true then .running else .error)) fun _ ↦
        .op .unlock fun _ ↦ .ret ok) fun _ _ ↦ True := by
    refine keeps_bind.mpr ((keeps_passed_of_only selfTestsOnDemand_only).mono ?_)
    rintro φ' ok rfl
    simp [NeedsPassed]
  simp [qudoPqcSelfTest, fipsSelfTests, NeedsPassed, PostPhase.next, ModuleState.forall_iff, htests]

theorem qudoPqcFini_serves (φ : PostPhase) :
    (postDiscipline false).Keeps φ qudoPqcFini fun _ _ ↦ True := by
  simp [qudoPqcFini, qudoFipsRandCleanup, NeedsPassed, ModuleState.forall_iff]

/-- What a call may rely on when it starts: an ungated service relies on the tests from the
beginning. -/
def ModuleCall.startPhase : ModuleCall → PostPhase
  | .service call => if call.ungated then .passed else .unknown
  | _ => .unknown

/-- Every call of the module follows the discipline. -/
theorem moduleCode_serves (call : ModuleCall) :
    (postDiscipline call.serves).Keeps call.startPhase (moduleCode call) fun φ res ↦
      Succeeds res → φ = .passed := by
  cases call with
  | lifecycle call =>
    have hcall : (postDiscipline false).Keeps .unknown (lifecycleCode fipsSelfTests call)
        fun _ _ ↦ True := by
      cases call with
      | init config => exact keeps_bind.mpr (qudoPqcInit_serves config _)
      | selfTest => exact keeps_bind.mpr (qudoPqcSelfTest_serves _)
      | fini => exact keeps_bind.mpr (qudoPqcFini_serves _)
      | setErrorState type =>
        exact keeps_bind.mpr (keeps_of_wrapper
          ((setErrorState_only type).mono ServiceOp.wrapper) _)
    exact keeps_bind.mpr (hcall.mono fun _ _ _ hres ↦ hres.elim)
  | service call =>
    refine keeps_bind.mpr ?_
    cases hcall : call.ungated with
    | false =>
      exact servesPassed_of_gateFirst (serviceCode_gateFirst hcall)
        ((serviceCode_only call).mono ServiceOp.wrapper) _
    | true =>
      simp only [ModuleCall.startPhase, hcall]
      refine (keeps_passed_of_only ((serviceCode_only call).mono ServiceOp.wrapper)).mono ?_
      intro _ _ hpassed _
      exact hpassed
  | keygen call =>
    exact keeps_bind.mpr
      (servesPassed_of_gateFirst (keygenCode_gateFirst call) (keygenCode_only call) _)

/-! ## Interference -/

/-- An operation either settles the phase, or leaves it as it is and does not show that the tests
have passed. -/
theorem PostPhase.next_cases (serves : Bool) (o : Op) (r : Resp o) :
    (∃ ψ, ∀ φ : PostPhase, φ.next serves o r = ψ) ∨
      (¬ShowsPassed serves o r ∧ ∀ φ : PostPhase, φ.next serves o r = φ) := by
  cases o with
  | load site =>
    by_cases hfini : site = .fini
    · subst hfini
      exact .inl ⟨.unknown, fun _ ↦ rfl⟩
    · by_cases hshows : r = .running ∨ (serves = true ∧ site = .gate ∧ r = .selftest)
      · refine .inl ⟨.passed, fun φ ↦ ?_⟩
        cases site <;> simp_all [PostPhase.next]
      · refine .inr ⟨?_, fun φ ↦ ?_⟩
        · cases site <;> simp_all [ShowsPassed]
        · cases site <;> simp_all [PostPhase.next]
  | store site v =>
    cases site with
    | fini => exact .inl ⟨.unknown, fun _ ↦ rfl⟩
    | initVerdict =>
      by_cases hv : v = .running
      · exact .inl ⟨.passed, fun _ ↦ by simp [PostPhase.next, hv]⟩
      · exact .inr ⟨id, fun _ ↦ by simp [PostPhase.next, hv]⟩
    | _ => exact .inr ⟨id, fun _ ↦ rfl⟩
  | _ => exact .inr ⟨id, fun _ ↦ rfl⟩

/-- The rest of the call can return success, or store RUNNING after an on-demand self-test, without
finding out again that the tests have passed. -/
def ReliesOnPost (serves : Bool) (p : Code ModuleResult) : Prop :=
  p.CanReach NeedsPassed (ShowsPassed serves) Succeeds

/-- A call that does not rely on the tests may forget that they have passed. -/
theorem keeps_unknown_of_passed {p : Code ModuleResult} :
    (postDiscipline serves).Keeps .passed p (fun φ res ↦ Succeeds res → φ = .passed) →
      ¬ReliesOnPost serves p →
      (postDiscipline serves).Keeps .unknown p fun φ res ↦ Succeeds res → φ = .passed := by
  induction p with
  | ret a => exact fun _ hrel hsucc ↦ absurd hsucc hrel
  | op o k ih =>
    rw [postDiscipline_keeps_op, postDiscipline_keeps_op]
    rintro ⟨-, hk⟩ hrel
    refine ⟨fun hneeds ↦ absurd (.inl hneeds) hrel, fun r ↦ ?_⟩
    have hkr := hk r
    rcases PostPhase.next_cases serves o r with ⟨ψ, hψ⟩ | ⟨hshows, hself⟩
    · rw [hψ] at hkr ⊢
      exact hkr
    · rw [hself] at hkr ⊢
      exact ih r hkr (Prog.not_canReach_of_op r hshows hrel)

/-- The condition on a move. -/
structure ServesTested (c : ModuleConfig) (m : Move Oracle ModuleCall) : Prop where
  /-- A service does not pass a gate in state SELFTEST before the tests have passed. -/
  gate : ∀ t w thr k, m = .exec t w → c.threads t = some thr → thr.call.serves = true →
    thr.prog = .op (.load .gate) k → c.shared.state = .selftest → c.shared.postPassed = true
  /-- A service without a gate is not called before the tests have passed. -/
  ungated : ∀ t call, m = .start t (.service call) → call.ungated = true →
    c.shared.postPassed = true
  /-- The module is not torn down while another call relies on the tests. -/
  teardown : ∀ t w thr o k, m = .exec t w → c.threads t = some thr → thr.prog = .op o k →
    TearsDown c.shared.state o → ∀ u thr', u ≠ t → c.threads u = some thr' →
      ¬ReliesOnPost thr'.call.serves thr'.prog

def PostPhase.Holds (s : Shared) : PostPhase → Prop
  | .unknown => True
  | .passed => s.postPassed = true

/-- Only a teardown makes the tests count as not passed. -/
theorem postPassed_of_sem
    (hs : sem o t w s = some (r, s')) (hdown : ¬TearsDown s.state o)
    (h : s.postPassed = true) : s'.postPassed = true := by
  by_cases hstore : ∃ site v, o = .store site v
  · obtain ⟨site, v, rfl⟩ := hstore
    rw [(sem_frame hs).store site v rfl]
    cases site with
    | fini => exact absurd trivial hdown
    | initVerdict => simp [Shared.storeState, h]
    | _ => exact h
  · by_cases hfini : o = .load .fini
    · subst hfini
      cases hs
      have hne : s.state ≠ .error := hdown
      simp [hne, h]
    · rw [(sem_frame hs).postPassed (fun site v ho ↦ hstore ⟨site, v, ho⟩) hfini]
      exact h

theorem PostPhase.of_next_eq_passed
    (h : φ.next serves o r = .passed) : ShowsPassed serves o r ∨ o = .store .initVerdict .running ∨
      (φ = .passed ∧ ∀ state, ¬TearsDown state o) := by
  by_cases hshows : ShowsPassed serves o r
  · exact .inl hshows
  · refine .inr ?_
    cases o with
    | load site => cases site <;> simp_all [PostPhase.next, ShowsPassed, TearsDown]
    | store site v =>
      cases site with
      | fini => cases h
      | initVerdict => by_cases hv : v = .running <;> simp_all [PostPhase.next, TearsDown]
      | _ => exact .inr ⟨h, fun _ ↦ id⟩
    | _ => exact .inr ⟨h, fun _ ↦ id⟩

/-- RUNNING keeps meaning that the self-tests of `qudo_pqc_init` have passed. -/
theorem running_postPassed_of_sem (hG : s.state = .running → s.postPassed = true) (hφ : φ.Holds s)
    (hallow : (postDiscipline serves).Allowed φ o) (hs : sem o t w s = some (r, s')) :
    s'.state = .running → s'.postPassed = true := by
  intro hrunning
  rcases sem_store_or hs with ⟨site, v, rfl, hs'⟩ | ⟨hne, hstate⟩
  · rw [hs'] at hrunning
    replace hrunning : v = .running := hrunning
    by_cases hsite : site = .initVerdict
    · rw [hs', hsite, hrunning]
      simp [Shared.storeState]
    · obtain ⟨rfl, hfini⟩ := hallow ⟨hrunning, hsite⟩
      refine postPassed_of_sem hs ?_ hφ
      cases site with
      | fini => exact absurd rfl (hfini v)
      | _ => exact id
  · rw [hstate] at hrunning
    refine postPassed_of_sem hs ?_ (hG hrunning)
    cases o with
    | load site =>
      cases site with
      | fini =>
        intro (herror : s.state = .error)
        rw [hrunning] at herror
        cases herror
      | _ => exact id
    | store site v => exact absurd rfl (hne site v)
    | _ => exact id

/-- A thread's own operation takes it to the next phase, if a gate it passes in state SELFTEST
comes after the tests. -/
theorem PostPhase.Holds.own (h : φ.Holds s) (hG : s.state = .running → s.postPassed = true)
    (hgate : serves = true → o = .load .gate → s.state = .selftest → s.postPassed = true)
    (hs : sem o t w s = some (r, s')) : (φ.next serves o r).Holds s' := by
  cases hnext : φ.next serves o r with
  | unknown => trivial
  | passed =>
    rcases PostPhase.of_next_eq_passed hnext with hshows | rfl | ⟨rfl, hdown⟩
    · cases o with
      | load site =>
        have hr : r = s.state := sem_load hs
        have hpassed : s.postPassed = true ∧ site ≠ .fini := by
          cases site with
          | fini => exact hshows.elim
          | _ =>
            refine ⟨?_, by decide⟩
            rcases hshows with hrun | ⟨hserves, hsite, hself⟩
            · exact hG (hr.symm.trans hrun)
            · exact hgate hserves (by rw [hsite]) (hr.symm.trans hself)
        refine postPassed_of_sem hs ?_ hpassed.1
        cases site with
        | fini => exact absurd rfl hpassed.2
        | _ => exact id
      | _ => exact hshows.elim
    · rw [PostPhase.Holds, (sem_frame hs).store _ _ rfl]
      simp [Shared.storeState]
    · exact postPassed_of_sem hs (hdown _) h

/-! ## The result -/

/-- The outline of every run. -/
abbrev PostOutline : ModuleConfig → Prop :=
  Machine.Outline (fun call : ModuleCall ↦ postDiscipline call.serves)
    (fun s ↦ s.state = .running → s.postPassed = true) (fun _ _ ↦ True)
    (fun s _ _ φ ↦ φ.Holds s) fun _ φ res ↦ Succeeds res → φ = .passed

theorem postOutline_next {c c' : ModuleConfig} {m : Move Oracle ModuleCall} (hc : PostOutline c)
    (hP : ServesTested c m) (h : pqcModule.next c m = some c') : PostOutline c' := by
  refine Machine.outline_next ?_ ?_ ?_ ?_ ?_ hc h
  · intro t call hm _
    refine ⟨call.startPhase, ?_, moduleCode_serves call⟩
    cases call with
    | service call =>
      cases hcall : call.ungated with
      | false => simp [ModuleCall.startPhase, hcall, PostPhase.Holds]
      | true =>
        simp only [ModuleCall.startPhase, hcall]
        exact hP.ungated t call hm hcall
    | _ => trivial
  · intros
    trivial
  · intros
    trivial
  · intro t w call entry o k tr r s' φ hm ht hs hG hφ hallow
    refine ⟨running_postPassed_of_sem hG hφ hallow hs, φ.next call.serves o r, rfl, ?_⟩
    refine hφ.own hG (fun hserves ho hstate ↦ ?_) hs
    subst ho
    exact hP.gate t w _ k hm ht hserves rfl hstate
  · intro t w call entry o k tr r s' φ u thr ψ hm ht hs _ _ hut hu hψ hkeep
    cases ψ with
    | unknown => exact ⟨.unknown, trivial, hkeep⟩
    | passed =>
      by_cases hdown : TearsDown c.shared.state o
      · refine ⟨.unknown, trivial, keeps_unknown_of_passed hkeep ?_⟩
        exact hP.teardown t w _ o k hm ht rfl hdown u thr hut hu
      · exact ⟨.passed, postPassed_of_sem hs hdown hψ, hkeep⟩

/-- **No service before the self-tests.** In every run from module load whose moves meet the
condition, an application is returned success only when a self-test run of `qudo_pqc_init` has
passed since load or the last teardown. -/
theorem served_after_post {c : ModuleConfig}
    (h : pqcModule.Reaches ServesTested pqcModule.loaded c) {t : ℕ} {res : ModuleResult}
    (hret : c.returned t = some res) (hres : Succeeds res) : c.shared.postPassed = true := by
  have hc : PostOutline c := by
    refine h.invariant (I := PostOutline) ⟨?_, ?_, ?_⟩ fun _ _ _ hI hP hn ↦
      postOutline_next hI hP hn
    · exact nofun
    · intros
      trivial
    · intro t thr ht
      cases ht
  obtain ⟨thr, ht, hprog⟩ := Config.returned_eq_some hret
  obtain ⟨φ, hφ, hkeep⟩ := hc.running t thr ht
  rw [hprog] at hkeep
  rw [hkeep hres] at hφ
  exact hφ

/-- What has to be checked of a run of one thread: the state it passes gates in. -/
def checkServes (c : ModuleConfig) : Move Oracle ModuleCall → Bool
  | .start _ (.service call) => !call.ungated
  | .exec t _ => (c.threads t).all fun thr ↦
      !(thr.call.serves && decide (thr.prog.head? = some (.load .gate)) &&
        decide (c.shared.state = .selftest))
  | _ => true

theorem servesTested_of_alone {c : ModuleConfig} {m : Move Oracle ModuleCall}
    (hc : Machine.Alone t c) (hm : m.thread = t) (hcheck : checkServes c m = true) :
    ServesTested c m := by
  refine ⟨?_, ?_, ?_⟩
  · rintro t w thr k rfl ht hserves hp hstate
    simp [checkServes, ht, hserves, hp, hstate, Prog.head?] at hcheck
  · rintro t call rfl hungated
    simp [checkServes, hungated] at hcheck
  · rintro t' w thr o k rfl _ _ _ u thr' hu hthr'
    obtain rfl : t' = t := hm
    rw [hc u hu] at hthr'
    cases hthr'

/-- Thread 0 initialises the module, all tests passing, and then decapsulates. -/
def initThenDecapsulate : List (Move Oracle ModuleCall) :=
  .start 0 (.lifecycle (.init none)) :: List.replicate 180 (.exec 0 { bit := true }) ++
    [.finish 0, .start 0 (.service (.kemDecapsulate .mlkem512 .ok [] [])), .exec 0 {}, .exec 0 {}]

/-- After initialisation a service succeeds, and the tests have passed. -/
theorem served_after_init :
    ∃ c res, pqcModule.Reaches ServesTested pqcModule.loaded c ∧ c.returned 0 = some res ∧
      Succeeds res ∧ c.shared.postPassed = true := by
  have hmeets : pqcModule.Meets ServesTested pqcModule.loaded initThenDecapsulate :=
    Machine.meets_of_checks (fun _ _ ↦ servesTested_of_alone) (by decide +kernel)
      (Machine.alone_idle 0 _) (by decide +kernel)
  obtain ⟨c, hreach, hc⟩ := Machine.exists_reaches (f := fun c ↦ c.returned 0)
    (v := some (.service ⟨.success, [], []⟩)) hmeets (by decide +kernel)
  exact ⟨c, _, hreach, hc, rfl, served_after_post hreach hc rfl⟩

/-- The state after loading is SELFTEST, so a service of the direct interface succeeds without any
initialisation. -/
theorem served_before_post :
    ¬∀ c, pqcModule.Reaches (fun _ _ ↦ True) pqcModule.loaded c → ∀ t res, c.returned t = some res →
      Succeeds res → c.shared.postPassed = true := by
  intro hall
  obtain ⟨c, hreach, hc⟩ := Machine.exists_reaches (M := pqcModule) (c := pqcModule.loaded)
    (f := fun c ↦ (c.returned 0, c.shared.postPassed))
    (v := (some (.service ⟨.success, [], []⟩), false))
    (Machine.meets_of_forall (fun _ _ ↦ trivial)
      [.start 0 (.service (.kemDecapsulate .mlkem512 .ok [] [])), .exec 0 {}, .exec 0 {}] _) rfl
  rw [Prod.mk.injEq] at hc
  have hpassed := hall c hreach 0 _ hc.1 rfl
  rw [hc.2] at hpassed
  cases hpassed

end QudoPqc
