import QudoPqc.Lifecycle.Init

/-!
# When ERROR is a latch

`qudo_pqc_fini` says of the error state that it "persists until the module is reloaded". Whether it
does is decided by windows: `qudo_pqc_init`, `qudo_pqc_self_test` and `qudo_pqc_fini` load the
state, find it different from ERROR, and store another value some steps later, while
`qudo_pqc_set_error_state` stores ERROR without the lock. A store of ERROR which falls into such a
window is lost.

## The window

Being inside a window is a property of what the thread still has to do: it can reach a store of
another value than ERROR without loading the state again (`Overwrites`). The invariant is that in
state ERROR no thread is inside a window. Reading ERROR never opens one, which is a property of the
text of the four functions (`Respects`), and so the only way to break the invariant is to store
ERROR while another thread's window is open.

The self-tests themselves are reduced to an arbitrary verdict.
-/

namespace QudoPqc

open Concurrent

/-- A call of one of the four functions that write the module state. -/
inductive LifecycleCall where
  | init (config : Option PqcConfig)
  | selfTest
  | fini
  | setErrorState (type : Option String)

/-- The code behind a life cycle call; `none` is the result of a `void` function. -/
def lifecycleCode (tests : SelfTests) : LifecycleCall → Code (Option Bool)
  | .init config => do
    let ok ← qudoPqcInit tests config
    return some ok
  | .selfTest => do
    let ok ← qudoPqcSelfTest tests
    return some ok
  | .fini => do
    qudoPqcFini
    return none
  | .setErrorState type => do
    setErrorState type
    return none

/-- Self-tests with an arbitrary verdict. -/
def arbitraryTests : SelfTests := ⟨fun _ ↦ arbitraryOutcome, arbitraryOutcome⟩

/-- The module state machine: threads running the four functions in any order. -/
def stateMachine : Machine Op Resp Shared Oracle LifecycleCall (Option Bool) :=
  ⟨sem, lifecycleCode arbitraryTests⟩

/-- The module just after it was loaded, no thread inside a call. -/
def stateMachine.loaded : Config Op Resp Shared LifecycleCall (Option Bool) :=
  Config.idle Shared.loaded

/-! ## Windows -/

/-- A store of a value other than ERROR. -/
def StoresNonError : Op → Prop
  | .store _ v => v ≠ .error
  | _ => False

def LoadsState : Op → Prop
  | .load _ => True
  | _ => False

/-- The code can store a value other than ERROR without loading the state before. -/
def Overwrites {α : Type} (p : Code α) : Prop :=
  p.CanReach StoresNonError (fun o _ ↦ LoadsState o) fun _ ↦ False

/-- The first operation of the code does not open a window in state ERROR: neither reading ERROR
nor storing it is followed by an overwriting store. -/
def RespectsHere {α : Type} : Code α → Prop
  | .op (.load _) k => ¬Overwrites (k .error)
  | .op (.store _ v) k => v = .error → ¬Overwrites (k ())
  | _ => True

/-- The code never opens a window in state ERROR. -/
def Respects {α : Type} (p : Code α) : Prop := p.Throughout RespectsHere

@[simp] theorem overwrites_ret {α : Type} (a : α) : ¬Overwrites (.ret a) := id

@[simp] theorem overwrites_op {α : Type} {o : Op} {k : Resp o → Code α} :
    Overwrites (.op o k) ↔ StoresNonError o ∨ (¬LoadsState o ∧ ∃ r, Overwrites (k r)) := by
  rw [Overwrites, Prog.canReach_op, exists_and_left]
  rfl

@[simp] theorem respects_ret {α : Type} (a : α) : Respects (.ret a) := trivial

@[simp] theorem respects_op {α : Type} {o : Op} {k : Resp o → Code α} :
    Respects (.op o k) ↔ RespectsHere (.op o k) ∧ ∀ r, Respects (k r) := Iff.rfl

/-- None of the four functions opens a window in state ERROR, and none begins inside one. -/
theorem lifecycleCode_respects (call : LifecycleCall) :
    Respects (lifecycleCode arbitraryTests call) ∧
      ¬Overwrites (lifecycleCode arbitraryTests call) := by
  cases call with
  | init config =>
    simp [lifecycleCode, qudoPqcInit, runSelfTests, arbitraryTests, RespectsHere, StoresNonError,
      LoadsState, ModuleState.forall_iff, ModuleState.exists_iff]
  | selfTest =>
    simp [lifecycleCode, qudoPqcSelfTest, arbitraryTests, RespectsHere, StoresNonError, LoadsState,
      ModuleState.forall_iff, ModuleState.exists_iff]
  | fini =>
    simp [lifecycleCode, qudoPqcFini, qudoFipsRandCleanup, RespectsHere, StoresNonError, LoadsState,
      ModuleState.forall_iff, ModuleState.exists_iff]
  | setErrorState type =>
    -- only the comparison of the type decides whether, and under which flag, ERROR is stored
    by_cases himport : type = some stTypePctImport
    · simp [lifecycleCode, setErrorState, himport]
    · by_cases hpct : type = some stTypePct
      · simp [lifecycleCode, setErrorState, hpct, stTypePct, stTypePctImport, RespectsHere,
          StoresNonError, LoadsState]
      · simp [lifecycleCode, setErrorState, himport, hpct, RespectsHere, StoresNonError, LoadsState]

/-! ## The invariant -/

/-- The condition on a move: ERROR is not stored while another thread is inside a window. -/
def NoErrorStoreInWindow (c : Config Op Resp Shared LifecycleCall (Option Bool))
    (m : Move Oracle LifecycleCall) : Prop :=
  ∀ t w thr site k, m = .exec t w → c.threads t = some thr →
    thr.prog = .op (.store site .error) k →
    ∀ u thr', u ≠ t → c.threads u = some thr' → ¬Overwrites thr'.prog

/-- In state ERROR no thread is inside a window, and no thread will open one there. -/
def NoWindowInError (c : Config Op Resp Shared LifecycleCall (Option Bool)) : Prop :=
  ∀ t thr, c.threads t = some thr →
    Respects thr.prog ∧ (c.shared.state = .error → ¬Overwrites thr.prog)

/-- One operation keeps the invariant, and does not leave ERROR. -/
theorem noWindowInError_exec {c : Config Op Resp Shared LifecycleCall (Option Bool)} {t : ℕ}
    {w : Oracle} {call : LifecycleCall} {entry : Shared} {o : Op}
    {k : Resp o → Code (Option Bool)} {tr : List (Action Op Resp)} {r : Resp o} {s' : Shared}
    (hc : NoWindowInError c) (hP : NoErrorStoreInWindow c (.exec t w))
    (ht : c.threads t = some ⟨call, entry, .op o k, tr⟩)
    (hs : sem o t w c.shared = some (r, s')) :
    (c.shared.state = .error → s'.state = .error) ∧
      NoWindowInError
        ⟨s', Function.update c.threads t (some ⟨call, entry, k r, tr ++ [⟨o, r⟩]⟩)⟩ := by
  obtain ⟨hresp, hwin⟩ := hc t _ ht
  rcases sem_store_or hs with ⟨site, v, rfl, rfl⟩ | ⟨-, hstate⟩
  · -- a store: the state is `v` afterwards, so only a store of ERROR has anything to show
    refine ⟨fun he ↦ ?_, fun u thr hu ↦ ?_⟩
    · by_contra hv
      exact hwin he (.inl hv)
    · rcases update_eq_some hu with ⟨rfl, hnew⟩ | ⟨hut, hold⟩
      · cases hnew
        exact ⟨hresp.2 r, fun hv ↦ hresp.1 hv⟩
      · refine ⟨(hc u thr hold).1, fun hv ↦ ?_⟩
        obtain rfl : v = .error := hv
        exact hP t w _ site k rfl ht rfl u thr hut hold
  · refine ⟨fun he ↦ hstate.trans he, fun u thr hu ↦ ?_⟩
    rcases update_eq_some hu with ⟨rfl, hnew⟩ | ⟨-, hold⟩
    · cases hnew
      refine ⟨hresp.2 r, fun he ↦ ?_⟩
      replace he : c.shared.state = .error := hstate.symm.trans he
      by_cases hload : LoadsState o
      · -- the load answers ERROR, and reading ERROR opens no window
        obtain ⟨site, rfl⟩ : ∃ site, o = .load site := by
          cases o <;> simp [LoadsState] at hload
          exact ⟨_, rfl⟩
        rw [sem_load hs, he]
        exact hresp.1
      · exact Prog.not_canReach_of_op r hload (hwin he)
    · exact ⟨(hc u thr hold).1, fun he ↦ (hc u thr hold).2 (hstate.symm.trans he)⟩

/-- One move keeps the invariant, and does not leave ERROR. -/
theorem noWindowInError_next {c c' : Config Op Resp Shared LifecycleCall (Option Bool)}
    {m : Move Oracle LifecycleCall} (hc : NoWindowInError c) (hP : NoErrorStoreInWindow c m)
    (h : stateMachine.next c m = some c') :
    (c.shared.state = .error → c'.shared.state = .error) ∧ NoWindowInError c' := by
  obtain ⟨t, call, -, -, rfl⟩ | ⟨t, w, call, entry, o, k, tr, r, s', rfl, ht, hs, rfl⟩ |
    ⟨t, call, entry, a, tr, -, -, rfl⟩ := Machine.next_cases h
  · refine ⟨id, fun u thr hu ↦ ?_⟩
    rcases update_eq_some hu with ⟨-, hnew⟩ | ⟨-, hold⟩
    · cases hnew
      exact ⟨(lifecycleCode_respects call).1, fun _ ↦ (lifecycleCode_respects call).2⟩
    · exact hc u thr hold
  · exact noWindowInError_exec hc hP ht hs
  · refine ⟨id, fun u thr hu ↦ ?_⟩
    rcases update_eq_some hu with ⟨-, hnew⟩ | ⟨-, hold⟩
    · cases hnew
    · exact hc u thr hold

theorem noWindowInError_of_reaches {c : Config Op Resp Shared LifecycleCall (Option Bool)}
    (h : stateMachine.Reaches NoErrorStoreInWindow stateMachine.loaded c) : NoWindowInError c :=
  h.invariant nofun fun _ _ _ hI hP hn ↦ (noWindowInError_next hI hP hn).2

/-- **The latch.** In every run from module load in which ERROR is never stored while another
thread is inside a window, a state ERROR is followed by ERROR only. -/
theorem error_latched {c c' : Config Op Resp Shared LifecycleCall (Option Bool)}
    (h : stateMachine.Reaches NoErrorStoreInWindow stateMachine.loaded c)
    (he : c.shared.state = .error)
    (h' : stateMachine.Reaches NoErrorStoreInWindow c c') : c'.shared.state = .error := by
  have hinv : c'.shared.state = .error ∧ NoWindowInError c' := by
    refine h'.invariant (I := fun d ↦ d.shared.state = .error ∧ NoWindowInError d)
      ⟨he, noWindowInError_of_reaches h⟩ fun d m d' hI hP hn ↦ ?_
    obtain ⟨hkeep, hinv⟩ := noWindowInError_next hI.2 hP hn
    exact ⟨hkeep hI.1, hinv⟩
  exact hinv.1

/-- A thread that moves alone meets the condition. -/
theorem noErrorStoreInWindow_of_alone {t : ℕ}
    {c : Config Op Resp Shared LifecycleCall (Option Bool)} {m : Move Oracle LifecycleCall}
    (hc : Machine.Alone t c) (hm : m.thread = t) : NoErrorStoreInWindow c m := by
  intro t' w thr site k hexec _ _ u thr' hu hthr'
  subst hexec
  obtain rfl : t' = t := hm
  rw [hc u hu] at hthr'
  cases hthr'

/-- One thread sets the error state and then tears the module down; the state is still ERROR. -/
theorem error_latched_through_fini :
    ∃ c c', stateMachine.Reaches NoErrorStoreInWindow stateMachine.loaded c ∧
      c.shared.state = .error ∧ stateMachine.Reaches NoErrorStoreInWindow c c' ∧
      c'.shared.state = .error := by
  have hmeets : stateMachine.Meets NoErrorStoreInWindow stateMachine.loaded
      ([.start 0 (.setErrorState none), .exec 0 {}, .finish 0] ++
        .start 0 .fini :: List.replicate 5 (.exec 0 {})) :=
    Machine.meets_of_alone (fun _ _ ↦ noErrorStoreInWindow_of_alone) (by decide)
      (Machine.alone_idle 0 _)
  obtain ⟨c, c', hreach, he, hreach', -⟩ := Machine.exists_reaches_of_run
    (f := fun c ↦ c.shared.state) hmeets rfl rfl
  exact ⟨c, c', hreach, he, hreach', error_latched hreach he hreach'⟩

/-- The beginning of the schedule that loses an error: thread 0 initialises the module up to the
store of SELFTEST, and thread 1 sets the error state just before it. -/
def lostErrorSchedule : List (Move Oracle LifecycleCall) :=
  .start 0 (.init none) :: List.replicate 9 (.exec 0 { bit := true }) ++
    [.start 1 (.setErrorState none), .exec 1 {}]

/-- ERROR is not a latch in every interleaving: an error set inside the window of `qudo_pqc_init`
is followed by RUNNING. -/
theorem error_not_latched :
    ¬∀ c c', stateMachine.Reaches (fun _ _ ↦ True) stateMachine.loaded c →
      c.shared.state = .error → stateMachine.Reaches (fun _ _ ↦ True) c c' →
      c'.shared.state = .error := by
  intro hlatch
  obtain ⟨c, c', hreach, he, hreach', hrunning⟩ := Machine.exists_reaches_of_run
    (M := stateMachine) (f := fun c ↦ c.shared.state) (v := .error) (y := .running)
    (Machine.meets_of_forall (fun _ _ ↦ trivial)
      (lostErrorSchedule ++ List.replicate 3 (.exec 0 { bit := true })) stateMachine.loaded)
    rfl rfl
  have hbad := hlatch c c' hreach he hreach'
  rw [hrunning] at hbad
  cases hbad

end QudoPqc
