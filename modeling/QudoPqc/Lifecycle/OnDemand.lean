import QudoPqc.Lifecycle.Latch

/-!
# What a passing on-demand self-test says

`qudo_pqc_self_test` returns `1` in three places: after its own run has passed, and at two early
returns, where it has loaded a state other than RUNNING and ERROR. While `qudo_pqc_init` is still
running the self-tests the state is SELFTEST, and an on-demand self-test of another thread reports
success for tests that have not finished. After its own run it is right.
-/

namespace QudoPqc

open Concurrent

/-- In the schedule from `c`, some thread's self-tests pass, and after that the module is RUNNING.
-/
def PassesTests (c : Config Op Resp Shared LifecycleCall (Option Bool))
    (ms : List (Move Oracle LifecycleCall)) : Prop :=
  ∃ ms₁ u w ms₂ ms₃ c₁ c₂ c₃,
    ms = ms₁ ++ .exec u w :: (ms₂ ++ ms₃) ∧
    stateMachine.run c ms₁ = some c₁ ∧ c₁.nextOp u = some .outcome ∧ w.bit = true ∧
    stateMachine.next c₁ (.exec u w) = some c₂ ∧
    stateMachine.run c₂ ms₂ = some c₃ ∧ c₃.shared.state = .running

/-- Thread `t`'s life cycle function finds the state RUNNING or ERROR when it loads it. -/
def LoadsSettled (t : ℕ) (c : Config Op Resp Shared LifecycleCall (Option Bool))
    (m : Move Oracle LifecycleCall) : Prop :=
  ∀ w, m = .exec t w → c.nextOp t = some (.load .lifecycle) →
    c.shared.state = .running ∨ c.shared.state = .error

/-- The rest of `qudo_pqc_self_test` once the lock is held and the state was found RUNNING. -/
theorem ownRun_returns {tr : List (Action Op Resp)}
    (h : Prog.Returns (do
      storeState .selfTestBegin .selftest
      let ok ← arbitraryTests.onDemand
      storeState .selfTestVerdict (if ok then .running else .error)
      rwlockUnlock
      return ok : Code Bool) tr true) :
    ∃ tr₁ tr₂, tr = tr₁ ++ ⟨.outcome, true⟩ :: ⟨.store .selfTestVerdict .running, ()⟩ :: tr₂ := by
  obtain ⟨u, tr₁, rfl, h₁⟩ := Prog.returns_op.mp h
  obtain ⟨ok, tr₂, rfl, h₂⟩ := Prog.returns_op.mp h₁
  obtain ⟨u', tr₃, rfl, h₃⟩ := Prog.returns_op.mp h₂
  obtain ⟨u'', tr₄, rfl, h₄⟩ := Prog.returns_op.mp h₃
  obtain ⟨rfl, rfl⟩ := Prog.returns_ret.mp h₄
  exact ⟨[⟨.store .selfTestBegin .selftest, u⟩], [⟨.unlock, u''⟩], rfl⟩

/-- A path of `qudo_pqc_self_test` that returns `1` with no early return. -/
theorem qudoPqcSelfTest_returns {tr : List (Action Op Resp)}
    (h : (qudoPqcSelfTest arbitraryTests).Returns tr true)
    (hloads : ∀ v : ModuleState, ⟨.load .lifecycle, v⟩ ∈ tr → v = .running ∨ v = .error) :
    ∃ tr₁ tr₂, tr = tr₁ ++ ⟨.outcome, true⟩ :: ⟨.store .selfTestVerdict .running, ()⟩ :: tr₂ := by
  obtain ⟨p₁, tr₁, rfl, ⟨-, hfail⟩ | ⟨-, h₁⟩⟩ := Prog.returns_guard h
  · cases (Prog.returns_ret.mp hfail).2
  obtain ⟨p₂, tr₂, rfl, ⟨-, hfail⟩ | ⟨-, h₂⟩⟩ := Prog.returns_guard h₁
  · cases (Prog.returns_ret.mp hfail).2
  obtain ⟨v, tr₃, rfl, h₃⟩ := Prog.returns_op.mp h₂
  rcases hloads v (by simp) with rfl | rfl
  · obtain ⟨p₄, tr₄, rfl, ⟨-, hfail⟩ | ⟨-, h₄⟩⟩ := Prog.returns_guard h₃
    · cases (Prog.returns_ret.mp hfail).2
    obtain ⟨v', tr₅, rfl, h₅⟩ := Prog.returns_op.mp h₄
    rcases hloads v' (by simp) with rfl | rfl
    · obtain ⟨q₁, q₂, rfl⟩ := ownRun_returns h₅
      refine ⟨p₁ ++ (p₂ ++ ⟨.load .lifecycle, .running⟩ ::
        (p₄ ++ ⟨.load .lifecycle, .running⟩ :: q₁)), q₂, ?_⟩
      simp
    · obtain ⟨u, tr₆, rfl, h₆⟩ := Prog.returns_op.mp h₅
      cases (Prog.returns_ret.mp h₆).2
  · cases (Prog.returns_ret.mp h₃).2

theorem threads_of_start {t : ℕ} {call : LifecycleCall}
    {pre : List (Move Oracle LifecycleCall)}
    {c c₀ : Config Op Resp Shared LifecycleCall (Option Bool)}
    (h : stateMachine.run c (pre ++ [.start t call]) = some c₀) :
    ∃ thr, c₀.threads t = some thr ∧ thr.call = call ∧ thr.trace = [] := by
  rw [Machine.run_append, Option.bind_eq_some_iff] at h
  obtain ⟨d, -, hd⟩ := h
  rw [Machine.run, Option.bind_eq_some_iff] at hd
  obtain ⟨e, he, hrun⟩ := hd
  rw [Machine.run, Option.some.injEq] at hrun
  subst hrun
  obtain ⟨u, call', hm, -, rfl⟩ | ⟨u, w, call', entry, o, k, tr, r, s', hm, -⟩ |
    ⟨u, call', entry, a, tr, hm, -⟩ := Machine.next_cases he
  · cases hm
    exact ⟨_, Function.update_self _ _ _, rfl, rfl⟩
  · cases hm
  · cases hm

/-- **A passing on-demand self-test.** If no load of the state by this call of `qudo_pqc_self_test`
finds INIT or SELFTEST and the call has returned `1`, then between its start and now self-tests have
passed, and after that the module was RUNNING. -/
theorem self_test_passed {t : ℕ} {pre post : List (Move Oracle LifecycleCall)}
    {c₀ c : Config Op Resp Shared LifecycleCall (Option Bool)}
    (hstart : stateMachine.run stateMachine.loaded (pre ++ [.start t .selfTest]) = some c₀)
    (hrun : stateMachine.run c₀ post = some c) (hinside : .finish t ∉ post)
    (hloads : stateMachine.Meets (LoadsSettled t) c₀ post)
    (hone : c.returned t = some (some true)) : PassesTests c₀ post := by
  obtain ⟨thr₀, ht₀, hcall₀, htrace₀⟩ := threads_of_start hstart
  obtain ⟨thr, ht, hret⟩ := Config.returned_eq_some hone
  obtain ⟨thr', ht', hcall, -⟩ := Machine.trace_run hinside hrun ht₀
  cases ht.symm.trans ht'
  -- the trace of the call is a path of its text
  have hreaches : stateMachine.Reaches (fun _ _ ↦ True) stateMachine.loaded c := by
    have hall := Machine.meets_of_forall (M := stateMachine) (fun _ _ ↦ trivial)
    exact (Machine.reaches_of_run (hall _ _) hstart).trans (Machine.reaches_of_run (hall _ _) hrun)
  have hpath := hreaches.returns ht hret
  rw [hcall, hcall₀] at hpath
  obtain ⟨tr', ok, tr'', htrace, hpath, hsome⟩ := Prog.returns_bind.mp hpath
  obtain ⟨rfl, heq⟩ := Prog.returns_ret.mp hsome
  cases heq
  rw [List.append_nil] at htrace
  have hsettled (v : ModuleState) (hv : ⟨.load .lifecycle, v⟩ ∈ tr') :
      v = .running ∨ v = .error := by
    obtain ⟨q₁, q₂, hq⟩ := List.append_of_mem hv
    obtain ⟨ms₁, w, ms₂, d, d', -, hperf, -⟩ := Machine.performs_of_trace hinside hrun ht₀ ht
      (by rw [htrace₀, List.nil_append, htrace, hq])
    have hanswer : v = d.shared.state := sem_load (t := t) (w := w) hperf.sem
    rw [hanswer]
    exact hperf.meets hloads w rfl hperf.nextOp
  obtain ⟨q₁, q₂, hq⟩ := qudoPqcSelfTest_returns hpath hsettled
  obtain ⟨ms₁, w, ms₂, d, d', thr₁, houtcome, hrun₁, ht₁, htrace₁⟩ :=
    Machine.performs_of_trace hinside hrun ht₀ ht (by rw [htrace₀, List.nil_append, htrace, hq])
  have hinside₂ : .finish t ∉ ms₂ := fun hmem ↦ hinside (by simp [houtcome.schedule, hmem])
  obtain ⟨ms₁', w', ms₂', e, e', -, hstore, -⟩ := Machine.performs_first hinside₂ hrun₁ ht₁ ht
    (by rw [htrace₁, htrace₀, List.nil_append, htrace, hq, List.append_assoc,
      List.singleton_append])
  refine ⟨ms₁, t, w, ms₁' ++ [.exec t w'], ms₂', d, d', e', ?_, houtcome.before, houtcome.nextOp,
    (Prod.mk.inj (Option.some.inj houtcome.sem)).1, houtcome.next, ?_, ?_⟩
  · rw [houtcome.schedule, hstore.schedule, List.append_assoc, List.singleton_append]
  · rw [Machine.run_append, hstore.before, Option.bind_some, Machine.run, hstore.next]
    rfl
  · rw [← (Prod.mk.inj (Option.some.inj hstore.sem)).2]
    rfl

/-- Thread 0 initialises the module. -/
def wholeInit : List (Move Oracle LifecycleCall) :=
  .start 0 (.init none) :: List.replicate 13 (.exec 0 { bit := true }) ++ [.finish 0]

/-- Thread 0 initialises the module, up to the store of SELFTEST. -/
def partOfInit : List (Move Oracle LifecycleCall) :=
  .start 0 (.init none) :: List.replicate 10 (.exec 0 { bit := true })

/-- One thread initialises the module and then runs an on-demand self-test. -/
theorem self_test_passed_after_init :
    ∃ c₀ c, stateMachine.run stateMachine.loaded (wholeInit ++ [.start 0 .selfTest]) = some c₀ ∧
      stateMachine.run c₀ (List.replicate 9 (.exec 0 { bit := true })) = some c ∧
      c.returned 0 = some (some true) ∧
      PassesTests c₀ (List.replicate 9 (.exec 0 { bit := true })) := by
  let settled (c : Config Op Resp Shared LifecycleCall (Option Bool))
      (_ : Move Oracle LifecycleCall) : Bool :=
    decide (c.shared.state = .running ∨ c.nextOp 0 ≠ some (.load .lifecycle))
  have hsettled : (stateMachine.run stateMachine.loaded (wholeInit ++ [.start 0 .selfTest])).map
      (fun c₀ ↦ (stateMachine.Checks settled c₀ (List.replicate 9 (.exec 0 { bit := true })),
        (stateMachine.run c₀ (List.replicate 9 (.exec 0 { bit := true }))).map (·.returned 0))) =
      some (true, some (some (some true))) := rfl
  obtain ⟨c₀, hstart, hpair⟩ := Option.map_eq_some_iff.mp hsettled
  obtain ⟨hchecks, hreturned⟩ := Prod.mk.inj hpair
  obtain ⟨c, hrun, hone⟩ := Option.map_eq_some_iff.mp hreturned
  have halone : Machine.Alone 0 c₀ := by
    refine (Machine.Reaches.follows (Machine.reaches_of_run ?_ hstart)).1
    exact Machine.meets_of_alone (fun _ _ _ hm ↦ hm) (by decide) (Machine.alone_idle 0 _)
  have hloads :
      stateMachine.Meets (LoadsSettled 0) c₀ (List.replicate 9 (.exec 0 { bit := true })) := by
    refine Machine.meets_of_checks (fun d m _ _ (hd : settled d m = true) w _ hload ↦ ?_)
      (by decide) halone hchecks
    rcases of_decide_eq_true hd with hstate | hother
    · exact .inl hstate
    · exact absurd hload hother
  exact ⟨c₀, c, hstart, hrun, hone, self_test_passed hstart hrun (by simp) hloads hone⟩

/-- While thread 0 is still running the self-tests of `qudo_pqc_init`, an on-demand self-test of
thread 1 returns `1`. -/
theorem self_test_passed_unfinished :
    ∃ c₀ c, stateMachine.run stateMachine.loaded (partOfInit ++ [.start 1 .selfTest]) = some c₀ ∧
      stateMachine.run c₀ (List.replicate 3 (.exec 1 {})) = some c ∧
      c.returned 1 = some (some true) ∧ ¬PassesTests c₀ (List.replicate 3 (.exec 1 {})) := by
  have hcompute : (stateMachine.run stateMachine.loaded (partOfInit ++ [.start 1 .selfTest])).map
      (fun c₀ ↦ (stateMachine.run c₀ (List.replicate 3 (.exec 1 {}))).map (·.returned 1)) =
      some (some (some (some true))) := rfl
  obtain ⟨c₀, hstart, hreturned⟩ := Option.map_eq_some_iff.mp hcompute
  obtain ⟨c, hrun, hone⟩ := Option.map_eq_some_iff.mp hreturned
  refine ⟨c₀, c, hstart, hrun, hone, ?_⟩
  rintro ⟨ms₁, u, w, ms₂, ms₃, -, -, -, hms, -, -, hbit, -⟩
  -- no move of the call is the outcome of a test that passes
  have hmem : (.exec u w : Move Oracle LifecycleCall) ∈ List.replicate 3 (.exec 1 {}) := by
    rw [hms]
    simp
  cases List.eq_of_mem_replicate hmem
  cases hbit

end QudoPqc
