import Mathlib.Data.List.Permutation
import QudoPqc.Lifecycle.Served
import QudoPqc.Wrapper.Pairwise

/-!
# Keys and their pairwise tests

Two properties of the key pair functions that take a handle. A key pair is handed out only after a
pairwise comparison of exactly that pair, unless the module was found testing itself. When the
comparison fails, no key leaves the function, and with the conditional-error check on the module
stops: from then on every gated call fails.

The functions of the direct interface make no comparison, by design. The state is read by the
caller and again by the test, so an on-demand self-test of another thread can make either of them
skip it. And a seed that `QUDO_KEM_keypair_derand` has handed out is not taken back, although it
determines the key.

## The error state without interference

`errorDiscipline` is the discipline of a call all of whose loads answer ERROR: it never stores
another value. No condition on the interleaving is needed here, in contrast to
`Lifecycle.Latch`, because every call in question is started in state ERROR.
-/

namespace QudoPqc

open Concurrent

/-! ## The initialised module -/

/-- The variables after a successful `qudo_pqc_init(NULL)` of a freshly loaded module. -/
def Shared.initialised : Shared where
  state := .running
  onceDone := true
  lockCreated := true
  writer := none
  readers := 0
  flag f := decide (f ≠ .storedUsedCnf ∧ f ≠ .healthFailed)
  errorReportCount := 0
  postPassed := true

def Flag.all : List Flag :=
  [.configSet, .conditionalErrorCheck, .storedUsedCnf, .fipsRandReady, .healthFailed,
    .startupTested, .mlkemInit, .mldsaInit]

theorem Flag.mem_all (f : Flag) : f ∈ Flag.all := by
  cases f <;> decide

/-- Two values of the shared variables are compared by comparing their fields. -/
def Shared.agree (s s' : Shared) : Bool :=
  decide (s.state = s'.state) && decide (s.onceDone = s'.onceDone) &&
    decide (s.lockCreated = s'.lockCreated) && decide (s.writer = s'.writer) &&
    decide (s.readers = s'.readers) && Flag.all.all (fun f ↦ decide (s.flag f = s'.flag f)) &&
    decide (s.errorReportCount = s'.errorReportCount) && decide (s.postPassed = s'.postPassed)

theorem Shared.eq_of_agree {s s' : Shared} (h : s.agree s' = true) : s = s' := by
  obtain ⟨state, onceDone, lockCreated, writer, readers, flag, errorReportCount, postPassed⟩ := s
  simp only [agree, Bool.and_eq_true, decide_eq_true_eq, List.all_eq_true] at h
  obtain ⟨⟨⟨⟨⟨⟨⟨rfl, rfl⟩, rfl⟩, rfl⟩, rfl⟩, hflag⟩, rfl⟩, rfl⟩ := h
  obtain rfl : flag = s'.flag := funext fun f ↦ hflag f f.mem_all
  rfl

/-- Thread 0 can initialise the module, all tests passing. -/
theorem reaches_initialised :
    pqcModule.Reaches (fun _ m ↦ m.thread = 0) pqcModule.loaded (Config.idle .initialised) := by
  have hmeets : pqcModule.Meets (fun _ m ↦ m.thread = 0) pqcModule.loaded
      (.start 0 (.lifecycle (.init none)) :: List.replicate 180 (.exec 0 { bit := true }) ++
        [.finish 0]) :=
    Machine.meets_of_alone (fun _ _ _ hm ↦ hm) (by decide +kernel) (Machine.alone_idle 0 _)
  obtain ⟨c, hreach, hc⟩ := Machine.exists_reaches
    (f := fun c ↦ c.shared.agree .initialised && (c.threads 0).isNone) (v := true) hmeets
    (by decide +kernel)
  rw [Bool.and_eq_true] at hc
  have hthreads : c.threads = fun _ ↦ none := by
    funext t
    by_cases ht : t = 0
    · rw [ht]
      exact Option.isNone_iff_eq_none.mp hc.2
    · exact hreach.follows.1 t ht
  have hshared : c.shared = .initialised := Shared.eq_of_agree hc.1
  obtain ⟨shared, threads⟩ := c
  subst hshared hthreads
  exact hreach

/-- A schedule of an initialised module is the rest of a run. -/
theorem exists_reaches_of_initialised {P : ModuleConfig → Move Oracle ModuleCall → Prop}
    (hP : ∀ c m, m.thread = 0 → P c m) {β : Type} {ms : List (Move Oracle ModuleCall)}
    {f : ModuleConfig → β} {v : β} (hms : pqcModule.Meets P (Config.idle .initialised) ms)
    (h : (pqcModule.run (Config.idle .initialised) ms).map f = some v) :
    ∃ c, pqcModule.Reaches P pqcModule.loaded c ∧ f c = v := by
  obtain ⟨c, hreach, hc⟩ := Machine.exists_reaches hms h
  exact ⟨c, (reaches_initialised.mono hP).trans hreach, hc⟩

theorem run_start {s : Shared} {t : ℕ} {call : ModuleCall} {ms : List (Move Oracle ModuleCall)} :
    pqcModule.run (Config.idle s) (.start t call :: ms) =
      pqcModule.run ⟨s, Function.update (fun _ ↦ none) t
      (some ⟨call, s, moduleCode call, []⟩)⟩ ms :=
  rfl

/-! ## Success means tested -/

/-- A key pair call that has returned has followed a path of its function. -/
theorem keygen_returns_of_reaches {P : ModuleConfig → Move Oracle ModuleCall → Prop}
    {c : ModuleConfig} (h : pqcModule.Reaches P pqcModule.loaded c) {t : ℕ} {thr : ModuleThread}
    (ht : c.threads t = some thr) {call : KeygenCall} (hcall : thr.call = .keygen call)
    {res : KeygenResult} (hret : thr.prog = .ret (.keygen res)) :
    (keygenCode call).Returns thr.trace res := by
  have hpath := h.returns ht hret
  rw [hcall] at hpath
  obtain ⟨tr, res', tr', htr, hcode, hend⟩ := Prog.returns_bind.mp hpath
  obtain ⟨rfl, hres⟩ := Prog.returns_ret.mp hend
  cases hres
  rw [htr, List.append_nil]
  exact hcode

/-- **Keys are released after their test.** In every run, if a call of a key pair function with a
handle returned success and never found the module testing itself, the returned keys have passed
the comparison during the call. -/
theorem released_after_comparison {c : ModuleConfig}
    (h : pqcModule.Reaches (fun _ _ ↦ True) pqcModule.loaded c) {t : ℕ} {thr : ModuleThread}
    (ht : c.threads t = some thr) {call : KeygenCall} (hcall : thr.call = .keygen call)
    (hhandle : call.function.hasHandle = true) {res : KeygenResult}
    (hret : thr.prog = .ret (.keygen res)) (hres : res.status = .success)
    (hnot : NotSelfTesting thr.trace) :
    ∃ pk sk, res.buffers.publicKey = some pk ∧ res.buffers.secretKey = some sk ∧
      call.function.Compared thr.trace pk sk := by
  have hpath : (keygenCode call).Returns thr.trace res := keygen_returns_of_reaches h ht hcall hret
  obtain ⟨hstop, -⟩ | ⟨lengths, _, _, -, -, -, htest⟩ := keygenCode_returns hhandle hpath
  · exact absurd hres hstop
  obtain ⟨pct, pk, sk, seedOut, tr₁, tr₂, hpct, -, -, -, htr, -, hrest⟩ := htest
  have hsub : tr₂.Sublist thr.trace := by
    rw [htr]
    exact List.sublist_append_right _ _
  obtain ⟨hpk, hsk, tr', hsub', hcompared⟩ :=
    pairwiseTested_passed hpct hrest hres (hnot.sublist hsub)
  exact ⟨pk, sk, hpk, hsk, hcompared.mono (hsub'.trans hsub)⟩

/-- Thread 0 generates a key pair in the initialised module; every computation succeeds. -/
def keypairSchedule (call : KeygenCall) (n : ℕ) : List (Move Oracle ModuleCall) :=
  .start 0 (.keygen call) ::
    List.replicate n (.exec 0 { bit := true, keygen := ⟨.success, [7], [8], [9]⟩ })

/-- The answer with which a pairwise test is skipped. -/
def foundSelfTesting : Action Op Resp → Bool
  | ⟨.load .selfTesting, st⟩ => decide (st = .selftest)
  | _ => false

theorem notSelfTesting_of_all {tr : Trace} (h : tr.all (!foundSelfTesting ·) = true) :
    NotSelfTesting tr := by
  rintro st hst rfl
  have hfound := List.all_eq_true.mp h _ hst
  simp [foundSelfTesting] at hfound

/-- A key pair of `QUDO_KEM_keypair`, with the comparison it has passed. -/
theorem released_after_kem_comparison :
    ∃ c thr res, pqcModule.Reaches (fun _ _ ↦ True) pqcModule.loaded c ∧ c.threads 0 = some thr ∧
      thr.prog = .ret (.keygen res) ∧ res.status = .success ∧ NotSelfTesting thr.trace ∧
      ∃ pk sk, res.buffers.publicKey = some pk ∧ res.buffers.secretKey = some sk ∧
        KemCompared thr.trace pk sk := by
  obtain ⟨c, hreach, hc⟩ := exists_reaches_of_initialised (fun _ _ _ ↦ trivial)
    (f := fun c ↦ (c.threads 0).map fun thr ↦
      (thr.call, thr.prog.value?, thr.trace.all (!foundSelfTesting ·)))
    (v := some (.keygen ⟨.kemKeypair (some .mlkem512), some [0], some [0]⟩,
      some (.keygen ⟨.success, ⟨some [7], some [8], none⟩⟩), true))
    (Machine.meets_of_forall (fun _ _ ↦ trivial)
      (keypairSchedule ⟨.kemKeypair (some .mlkem512), some [0], some [0]⟩ 31) _) rfl
  obtain ⟨thr, ht, hthr⟩ := Option.map_eq_some_iff.mp hc
  rw [Prod.mk.injEq, Prod.mk.injEq] at hthr
  obtain ⟨hcall, hval, hall⟩ := hthr
  have hret := Prog.value?_eq_some hval
  have hnot := notSelfTesting_of_all hall
  exact ⟨c, thr, _, hreach, ht, hret, rfl, hnot,
    released_after_comparison hreach ht hcall rfl hret rfl hnot⟩

/-- A key pair call as far as it matters here: the call, the state it was entered in, what it has
returned, and whether the public key `[7]` was encapsulated to. -/
def keygenView (t : ℕ) (c : ModuleConfig) :
    Option (ModuleCall × ModuleState × Option ModuleResult × Bool) :=
  (c.threads t).map fun thr ↦ (thr.call, thr.entry.state, thr.prog.value?,
    thr.trace.any fun x ↦ decide (x.1 = .encaps [7]))

/-- Thread 1 generates a key pair; when it comes to the pairwise test, thread 0 has begun an
on-demand self-test. -/
def skippedSchedule : List (Move Oracle ModuleCall) :=
  .start 1 (.keygen ⟨.kemKeypair (some .mlkem512), some [0], some [0]⟩) ::
    List.replicate 15 (.exec 1 { bit := true, keygen := ⟨.success, [7], [8], [9]⟩ }) ++
    .start 0 (.lifecycle .selfTest) :: List.replicate 6 (.exec 0 {}) ++ [.exec 1 {}]

/-- In every run, a call of a function with a handle, or of one without, that was entered in state
RUNNING and returned success has compared the keys it returned. -/
def ReleasesCompared (handle : Bool) : Prop :=
  ∀ c, pqcModule.Reaches (fun _ _ ↦ True) pqcModule.loaded c →
    ∀ t thr call res pk sk, c.threads t = some thr → thr.call = .keygen call →
      call.function.hasHandle = handle → thr.entry.state = .running →
      thr.prog = .ret (.keygen res) → res.status = .success →
      res.buffers.publicKey = some pk → res.buffers.secretKey = some sk →
      call.function.Compared thr.trace pk sk

/-- A schedule that ends with keys to which nothing was encapsulated. -/
theorem not_releasesCompared_of_run (t : ℕ) (function : KeygenFunction)
    (ms : List (Move Oracle ModuleCall)) (hkem : function.Compared = KemCompared)
    (hrun : (pqcModule.run (Config.idle .initialised) ms).map (keygenView t) =
      some (some (.keygen ⟨function, some [0], some [0]⟩, .running,
        some (.keygen ⟨.success, ⟨some [7], some [8], none⟩⟩), false))) :
    ¬ReleasesCompared function.hasHandle := by
  intro hall
  obtain ⟨c, hreach, hc⟩ := exists_reaches_of_initialised (fun _ _ _ ↦ trivial)
    (Machine.meets_of_forall (fun _ _ ↦ trivial) ms _) hrun
  obtain ⟨thr, ht, hthr⟩ := Option.map_eq_some_iff.mp hc
  rw [Prod.mk.injEq, Prod.mk.injEq, Prod.mk.injEq] at hthr
  obtain ⟨hcall, hentry, hval, hno⟩ := hthr
  have hcompared := hall c hreach t thr _ _ [7] [8] ht hcall rfl hentry
    (Prog.value?_eq_some hval) rfl rfl rfl
  rw [hkem] at hcompared
  obtain ⟨enc, _, _, -, -, -, hsub⟩ := hcompared
  have hmem : (⟨.encaps [7], enc⟩ : Action Op Resp) ∈ thr.trace :=
    hsub.subset List.mem_cons_self
  have hfound := List.any_eq_false.mp hno _ hmem
  simp at hfound

/-- Neither the functions of the direct interface nor those with a handle compare in every
interleaving: the former have no test, the latter skip it when another thread has begun a
self-test. -/
theorem released_without_comparison : ¬ReleasesCompared false ∧ ¬ReleasesCompared true := by
  constructor
  · exact not_releasesCompared_of_run 0 (.kemKeypairGenerate .mlkem512)
      (keypairSchedule ⟨.kemKeypairGenerate .mlkem512, some [0], some [0]⟩ 13) rfl rfl
  · exact not_releasesCompared_of_run 1 (.kemKeypair (some .mlkem512)) skippedSchedule rfl rfl

/-! ## In the error state -/

/-- A load answers ERROR. -/
def AnswersError : (o : Op) → Resp o → Prop
  | .load _, r => r = .error
  | _, _ => True

def errorDiscipline : Discipline Op Resp Unit where
  Allowed _ o := ¬StoresNonError o
  Next _ o r _ := AnswersError o r

variable {α : Type}

@[simp] theorem errorDiscipline_keeps_op {φ : Unit} {o : Op} {k : Resp o → Code α}
    {Q : Unit → α → Prop} : errorDiscipline.Keeps φ (.op o k) Q ↔
      ¬StoresNonError o ∧ ∀ r, AnswersError o r → errorDiscipline.Keeps () (k r) Q := by
  rw [Discipline.keeps_op]
  refine and_congr_right fun _ ↦ forall_congr' fun r ↦ ?_
  constructor
  · intro h hr
    exact h () hr
  · intro h _ hr
    exact h hr

/-- The gate is closed. -/
theorem isRunningOrSelftest_inError :
    errorDiscipline.Keeps () isRunningOrSelftest fun _ b ↦ b = false := by
  simp [isRunningOrSelftest, reportErrorState, StoresNonError, AnswersError]

theorem keeps_error_of_gateFirst {good : α → Prop} {p : Code α} (h : GateFirst good p) :
    errorDiscipline.Keeps () p fun _ a ↦ ¬good a := by
  obtain ⟨a, ha, rfl⟩ | ⟨f, a, ha, hf, rfl⟩ := h
  · exact ha
  · rw [Discipline.keeps_bind]
    refine isRunningOrSelftest_inError.mono fun _ b hb ↦ ?_
    rw [hb, hf]
    exact ha

theorem keeps_error_of_only {p : Code α} (hp : p.Only WrapperOp) :
    errorDiscipline.Keeps () p fun _ _ ↦ True := by
  refine (Discipline.keeps_of_only (S := WrapperOp) ?_ ?_ hp).mono fun _ _ _ ↦ trivial
  · intro o ho hstore
    cases o with
    | store site v => exact hstore ho.2
    | _ => exact hstore
  · intros
    rfl

theorem lifecycleCode_inError (call : LifecycleCall) :
    errorDiscipline.Keeps () (lifecycleCode fipsSelfTests call) fun _ _ ↦ True := by
  cases call with
  | init config =>
    simp [lifecycleCode, qudoPqcInit, StoresNonError, AnswersError]
  | selfTest => simp [lifecycleCode, qudoPqcSelfTest, StoresNonError, AnswersError]
  | fini => simp [lifecycleCode, qudoPqcFini, qudoFipsRandCleanup, StoresNonError, AnswersError]
  | setErrorState type =>
    rw [lifecycleCode]
    exact Discipline.keeps_bind.mpr
      (keeps_error_of_only ((setErrorState_only type).mono ServiceOp.wrapper))

/-- The call is of a service without a gate. -/
def ModuleCall.ungated : ModuleCall → Bool
  | .service call => call.ungated
  | .lifecycle _ | .keygen _ => false

/-- A call started in the error state leaves it alone, and does not succeed if it has a gate. -/
theorem moduleCode_inError (call : ModuleCall) :
    errorDiscipline.Keeps () (moduleCode call) fun _ res ↦
      call.ungated = false → ¬Succeeds res := by
  cases call with
  | lifecycle call =>
    refine Discipline.keeps_bind.mpr ((lifecycleCode_inError call).mono ?_)
    intro _ _ _ _
    exact id
  | service call =>
    rw [moduleCode]
    refine Discipline.keeps_bind.mpr ?_
    cases hcall : call.ungated with
    | true =>
      refine (keeps_error_of_only ((serviceCode_only call).mono ServiceOp.wrapper)).mono ?_
      intro _ _ _ hgated
      exact absurd (hcall.symm.trans hgated) (by decide)
    | false =>
      refine (keeps_error_of_gateFirst (serviceCode_gateFirst hcall)).mono ?_
      intro _ _ hfail _
      exact hfail
  | keygen call =>
    refine Discipline.keeps_bind.mpr ((keeps_error_of_gateFirst
      (keygenCode_gateFirst call)).mono ?_)
    intro _ _ hfail _
    exact hfail

/-- The module is in the error state, and so is every call in it. -/
abbrev ErrorOutline : ModuleConfig → Prop :=
  Machine.Outline (fun _ : ModuleCall ↦ errorDiscipline) (fun s ↦ s.state = .error)
    (fun _ _ ↦ True) (fun _ _ _ _ ↦ True) fun call _ res ↦ call.ungated = false → ¬Succeeds res

theorem errorOutline_next {c c' : ModuleConfig} {m : Move Oracle ModuleCall} (hc : ErrorOutline c)
    (h : pqcModule.next c m = some c') : ErrorOutline c' := by
  refine Machine.outline_next ?_ ?_ ?_ ?_ ?_ hc h
  · intro t call _ _
    exact ⟨(), trivial, moduleCode_inError call⟩
  · intros
    trivial
  · intros
    trivial
  · intro t w call entry o k tr r s' φ _ _ hs hG _ hallow
    rcases sem_store_or hs with ⟨site, v, rfl, rfl⟩ | ⟨hne, hstate⟩
    · refine ⟨?_, (), trivial, trivial⟩
      by_contra hv
      exact hallow hv
    · refine ⟨hstate.trans hG, (), ?_, trivial⟩
      cases o with
      | load site => exact (sem_load (t := t) (w := w) hs).trans hG
      | _ => trivial
  · intro t w call entry o k tr r s' φ u thr ψ _ _ _ _ _ _ _ _ hkeep
    exact ⟨ψ, trivial, hkeep⟩

/-! ## Failure closes the module -/

/-- The buffers have the lengths of the handle's parameter set. -/
def KeygenCall.Fits (call : KeygenCall) : Prop :=
  ∀ lengths, call.function.lengths = some lengths →
    (∀ pk, call.publicKey = some pk → pk.length = lengths.1) ∧
      ∀ sk, call.secretKey = some sk → sk.length = lengths.2

/-- What has to hold when a call that was entered with the variables `entry` returns `res` after a
failed pairwise test. -/
structure FailsClosed (c : ModuleConfig) (entry : Shared) (res : KeygenResult) : Prop where
  status : res.status ≠ .success
  publicKey : ∀ pk, res.buffers.publicKey = some pk → ∀ b ∈ pk, b = 0
  secretKey : ∀ sk, res.buffers.secretKey = some sk → ∀ b ∈ sk, b = 0
  seedOut : ∀ seed, res.buffers.seedOut = some seed → ∀ b ∈ seed, b = 0
  state : entry.flag .conditionalErrorCheck = true → c.shared.state = .error
  /-- Every later call with a gate fails, whichever thread makes it. -/
  closed : entry.flag .conditionalErrorCheck = true →
    ∀ c', pqcModule.Reaches (fun _ _ ↦ True) c c' → ∀ u thr res', c'.threads u = some thr →
      thr.prog = .ret res' → thr.call.ungated = false → ¬Succeeds res'

/-- The function, called by the only thread of the module with these arguments, closes the module
whenever its pairwise test fails. -/
def ClosesOnFailure (call : KeygenCall) : Prop :=
  ∀ t c thr res, pqcModule.Reaches (fun _ m ↦ m.thread = t) pqcModule.loaded c →
    c.threads t = some thr → thr.call = .keygen call → thr.prog = .ret (.keygen res) →
    ⟨.stEnd false, ()⟩ ∈ thr.trace → FailsClosed c thr.entry res

theorem cleanse_eq_zero {buf : Bytes} {n : ℕ} (hn : buf.length = n) : ∀ b ∈ cleanse buf n,
    b = 0 := by
  intro b hb
  rw [cleanse, writeFront, List.length_replicate, ← hn, List.drop_length, List.append_nil,
    List.take_replicate] at hb
  exact List.eq_of_mem_replicate hb

/-- With the conditional-error check on, reporting a failed pairwise test stores ERROR. -/
theorem setErrorState_follows {t : ℕ} {tr : Trace} {s s' : Shared}
    (h : (setErrorState (some stTypePct)).Returns tr ()) (hs : pqcModule.Follows t s tr s')
    (hflag : s.flag .conditionalErrorCheck = true) : s'.state = .error := by
  obtain ⟨b, tr₁, rfl, h₁⟩ := Prog.returns_op.mp h
  obtain ⟨w, s₁, hget, hrest⟩ := hs
  cases hget
  replace h₁ : (Prog.op (Op.store .setErrorState .error) fun _ ↦ .ret () : Code Unit).Returns
      tr₁ () := by
    simpa [hflag] using h₁
  obtain ⟨_, tr₂, rfl, h₂⟩ := Prog.returns_op.mp h₁
  obtain ⟨rfl, -⟩ := Prog.returns_ret.mp h₂
  obtain ⟨w', s₂, hstore, rfl⟩ := hrest
  cases hstore
  rfl

/-- The wrappers do not switch the conditional-error check. -/
theorem conditionalErrorCheck_of_follows {t : ℕ} {tr : Trace} {s s' : Shared}
    (htr : ∀ x ∈ tr, WrapperOp x.1) (hs : pqcModule.Follows t s tr s')
    (hflag : s.flag .conditionalErrorCheck = true) : s'.flag .conditionalErrorCheck = true := by
  refine hs.preserves (I := fun s ↦ s.flag .conditionalErrorCheck = true) ?_ htr hflag
  intro o w s r s' ho hsem hflag
  by_cases hset : ∃ f b, o = .set f b
  · obtain ⟨f, b, rfl⟩ := hset
    cases hsem
    exact (Function.update_of_ne (Ne.symm ho.2) _ _).trans hflag
  · rw [(sem_frame (w := w) hsem).flag fun f b ho ↦ hset ⟨f, b, ho⟩]
    exact hflag

/-- Everything but the seed. -/
theorem closesOnFailure_of_not_handsOutSeed {call : KeygenCall}
    (hhandle : call.function.hasHandle = true) (hfits : call.Fits)
    (hseed : call.handsOutSeed = false) : ClosesOnFailure call := by
  intro t c thr res h ht hcall hret hfail
  have hpath : (keygenCode call).Returns thr.trace res := keygen_returns_of_reaches h ht hcall hret
  obtain ⟨-, hquiet⟩ | ⟨lengths, pk₀, sk₀, hlengths, hpk₀, hsk₀, htest⟩ :=
    keygenCode_returns hhandle hpath
  · exact absurd (hquiet _ hfail) id
  obtain ⟨pct, pk, sk, seedOut, tr₁, tr₂, hpct, hpk, hsk, hsome, htr, hquiet, hrest⟩ := htest
  have hfail₂ : ⟨.stEnd false, ()⟩ ∈ tr₂ := by
    rw [htr, List.mem_append] at hfail
    exact hfail.resolve_left fun hmem ↦ hquiet _ hmem
  obtain ⟨rfl, tr₃, tr₄, rfl, herror⟩ := pairwiseTested_failed hpct hrest hfail₂
  obtain ⟨halone, hfollows⟩ := h.follows
  have hstate : thr.entry.flag .conditionalErrorCheck = true → c.shared.state = .error := by
    intro hflag
    have hrun := hfollows thr ht
    have hwrapper := (keygenCode_only call).of_returns hpath
    rw [htr, ← List.append_assoc] at hrun hwrapper
    obtain ⟨s₁, hrun₁, hrun₂⟩ := Machine.follows_append.mp hrun
    refine setErrorState_follows herror hrun₂ (conditionalErrorCheck_of_follows ?_ hrun₁ hflag)
    exact (List.forall_mem_append.mp hwrapper).1
  refine ⟨by simp, ?_, ?_, ?_, hstate, ?_⟩
  · rintro _ ⟨⟩
    exact cleanse_eq_zero (hpk.trans ((hfits lengths hlengths).1 pk₀ hpk₀))
  · rintro _ ⟨⟩
    exact cleanse_eq_zero (hsk.trans ((hfits lengths hlengths).2 sk₀ hsk₀))
  · rintro seed rfl
    rw [hseed] at hsome
    cases hsome
  · intro hflag c' hreach u thr' res' hu hprog hgated
    have hoc : ErrorOutline c := by
      refine ⟨hstate hflag, fun _ _ ↦ trivial, fun u thr' hu ↦ ⟨(), trivial, ?_⟩⟩
      by_cases hut : u = t
      · rw [hut, ht] at hu
        cases hu
        rw [hret]
        simp [Succeeds]
      · rw [halone u hut] at hu
        cases hu
    have hoc' : ErrorOutline c' := hreach.invariant hoc fun _ _ _ hI _ hn ↦ errorOutline_next hI hn
    obtain ⟨_, -, hkeep⟩ := hoc'.running u thr' hu
    rw [hprog] at hkeep
    exact hkeep hgated

/-- Thread 0 generates a key pair in the initialised module, and the pairwise test fails because it
gets no memory. -/
def failingSchedule : List (Move Oracle ModuleCall) :=
  let yes : Move Oracle ModuleCall :=
    .exec 0 { bit := true, keygen := ⟨.success, [7], [8], [9]⟩ }
  let no : Move Oracle ModuleCall := .exec 0 {}
  -- the answers "no" are to the reseed interval and to `qudo_malloc`
  List.replicate 7 yes ++ no :: List.replicate 7 yes ++ no :: List.replicate 3 yes

/-- What can be seen of a key pair call whose pairwise test may have failed. -/
def failureView (c : ModuleConfig) : Option (ModuleCall × Option ModuleResult × Bool) :=
  (c.threads 0).map fun thr ↦ (thr.call, thr.prog.value?,
    thr.trace.any fun x ↦ decide (x.1 = .stEnd false))

/-- A seed buffer that was written keeps its contents when the pairwise test fails. -/
theorem not_closesOnFailure (level : KemLevel) (seedOut pk sk : Bytes)
    (hlength : kemSeedBytes ≤ seedOut.length) :
    ¬ClosesOnFailure ⟨.kemKeypairDerand (some level) (some seedOut), some pk, some sk⟩ := by
  intro hcloses
  have hcode : keygenCode ⟨.kemKeypairDerand (some level) (some seedOut), some pk, some sk⟩ =
      handleKeygen (some level) .errorInvalidArg true ⟨some pk, some sk, some seedOut⟩
        fun level pk sk ↦ generateTested (engineKeypair (randombytes kemSeedBytes) .errorRng)
          (fun pk sk ↦ mlkemPct pk sk false) level.lengths pk sk (some seedOut) := by
    simp [keygenCode, kemKeypairDerand, Nat.not_lt.mpr hlength]
  have hrun : (pqcModule.run (Config.idle .initialised) (.start 0 (.keygen
      ⟨.kemKeypairDerand (some level) (some seedOut), some pk, some sk⟩) :: failingSchedule)).map
      failureView =
      some (some (.keygen ⟨.kemKeypairDerand (some level) (some seedOut), some pk, some sk⟩,
        some (.keygen ⟨.errorCrypto, ⟨some (cleanse (writeFront pk [7]) level.lengths.1),
          some (cleanse (writeFront sk [8]) level.lengths.2),
          some (writeFront seedOut [9])⟩⟩), true)) := by
    rw [run_start, moduleCode, hcode]
    cbv
  obtain ⟨c, hreach, hc⟩ := exists_reaches_of_initialised (fun _ _ hm ↦ hm)
    (Machine.meets_of_alone (t := 0) (fun _ _ _ hm ↦ hm)
      (List.forall_mem_cons.mpr ⟨rfl, by decide⟩) (Machine.alone_idle 0 _)) hrun
  obtain ⟨thr, ht, hthr⟩ := Option.map_eq_some_iff.mp hc
  rw [Prod.mk.injEq, Prod.mk.injEq] at hthr
  obtain ⟨hcall, hval, hany⟩ := hthr
  obtain ⟨⟨o, r⟩, hmem, ho⟩ := List.any_eq_true.mp hany
  obtain rfl : o = .stEnd false := of_decide_eq_true ho
  have hclosed := hcloses 0 c thr _ hreach ht hcall (Prog.value?_eq_some hval) hmem
  have hnine : 9 ∈ writeFront seedOut [9] := by
    obtain ⟨b, bs, rfl⟩ : ∃ b bs, seedOut = b :: bs := by
      cases seedOut with
      | nil => cases hlength
      | cons b bs => exact ⟨b, bs, rfl⟩
    exact List.mem_cons_self
  have hzero := hclosed.seedOut _ rfl 9 hnine
  cases hzero

/-- **Failure closes the module, except for the seed.** For a function with a handle, called with
buffers of the right lengths: a failed pairwise test leaves no key material and, with the
conditional-error check on, stops the module, exactly when the call has no seed buffer to write. -/
theorem closes_on_failure_iff {call : KeygenCall} (hhandle : call.function.hasHandle = true)
    (hfits : call.Fits) : ClosesOnFailure call ↔ call.handsOutSeed = false := by
  refine ⟨fun hcloses ↦ ?_, closesOnFailure_of_not_handsOutSeed hhandle hfits⟩
  rw [← Bool.not_eq_true]
  intro hseed
  obtain ⟨function, publicKey, secretKey⟩ := call
  simp only [KeygenCall.handsOutSeed] at hseed
  split at hseed
  next level seedOut =>
    simp only [Bool.and_eq_true, decide_eq_true_eq, Option.isSome_iff_exists] at hseed
    obtain ⟨⟨hlength, pk, rfl⟩, sk, rfl⟩ := hseed
    exact not_closesOnFailure level seedOut pk sk hlength hcloses
  next => cases hseed

/-- Zeroed buffers of the right lengths. -/
theorem fits_replicate {function : KeygenFunction} {m n : ℕ}
    (h : function.lengths = some (m, n)) :
    KeygenCall.Fits ⟨function, some (List.replicate m 0), some (List.replicate n 0)⟩ := by
  intro lengths h'
  obtain rfl : (m, n) = lengths := Option.some.inj (h.symm.trans h')
  constructor
  · rintro _ ⟨⟩
    exact List.length_replicate
  · rintro _ ⟨⟩
    exact List.length_replicate

/-- `QUDO_KEM_keypair` closes the module, `QUDO_KEM_keypair_derand` with a seed buffer does not. -/
theorem closes_on_failure_kem :
    ClosesOnFailure ⟨.kemKeypair (some .mlkem512), some (List.replicate 800 0),
      some (List.replicate 1632 0)⟩ ∧
    ¬ClosesOnFailure ⟨.kemKeypairDerand (some .mlkem512) (some (List.replicate 64 0)),
      some (List.replicate 800 0), some (List.replicate 1632 0)⟩ := by
  constructor
  · exact (closes_on_failure_iff rfl (fits_replicate rfl)).mpr rfl
  · rw [closes_on_failure_iff rfl (fits_replicate rfl)]
    decide

/-- Not every function with a handle closes the module: the seed stays behind. -/
theorem seed_survives_failure :
    ¬∀ call : KeygenCall, call.function.hasHandle = true → call.Fits → ClosesOnFailure call := by
  intro hall
  refine not_closesOnFailure .mlkem512 (List.replicate 64 0) (List.replicate 800 0)
    (List.replicate 1632 0) ?_ (hall _ rfl (fits_replicate rfl))
  rw [List.length_replicate]
  exact Nat.le_refl 64

end QudoPqc
