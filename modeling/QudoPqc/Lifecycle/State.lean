import QudoPqc.Codec.Packing
import QudoPqc.Concurrent.Machine

/-!
# The shared state of the module

The global variables of `qudo_pqc_init.c` and `qudo_fips_rand.c` that more than one thread touches,
and the atomic operations on them. Every operation is one step of an interleaving: a load or a
store of `g_module_state`, an acquire or a release of `g_self_test_lock`, a look at the lock
pointer, an access to one of the atomic flags. Cryptographic computations are operations too; they
touch no shared state and their results are arbitrary.

## The lock

`g_self_test_lock` is a `pthread_rwlock_t` or an `SRWLOCK`, created once. A writer excludes
everyone, an acquire by the thread that already holds the lock as a writer does not succeed
(`EDEADLK`, or it never returns), and releasing a lock one does not hold is undefined, so the oracle
decides whether the holder loses it.

## The ghost flag

`postPassed` is not a variable of the program. It records whether a self-test run of
`qudo_pqc_init` has succeeded since the module was loaded or since the last `qudo_pqc_fini`. A
teardown takes effect when it stores INIT, or when it finds the state ERROR and leaves it.
-/

namespace QudoPqc

open Concurrent
open Prog (perform)

/-- `QUDO_PQC_STATE_*`, the values of `g_module_state`. -/
inductive ModuleState where
  | init
  | selftest
  | running
  | error
  deriving DecidableEq, Repr

theorem ModuleState.forall_iff {P : ModuleState → Prop} :
    (∀ v, P v) ↔ P .init ∧ P .selftest ∧ P .running ∧ P .error := by
  constructor
  · intro h
    exact ⟨h _, h _, h _, h _⟩
  · rintro ⟨hi, hs, hr, he⟩ v
    cases v <;> assumption

theorem ModuleState.exists_iff {P : ModuleState → Prop} :
    (∃ v, P v) ↔ P .init ∨ P .selftest ∨ P .running ∨ P .error := by
  constructor
  · rintro ⟨v, hv⟩
    cases v <;> simp [hv]
  · rintro (h | h | h | h) <;> exact ⟨_, h⟩

/-- The source function that loads `g_module_state`: the gate `qudo_pqc_is_running_or_selftest`, the
test `qudo_pqc_is_self_testing`, `qudo_pqc_init` and `qudo_pqc_self_test`, or `qudo_pqc_fini`. -/
inductive LoadSite where
  | gate
  | selfTesting
  | lifecycle
  | fini
  deriving DecidableEq, Repr

/-- The source line that stores `g_module_state`. -/
inductive StoreSite where
  | initBegin
  | initVerdict
  | selfTestBegin
  | selfTestVerdict
  | fini
  | setErrorState
  deriving DecidableEq, Repr

/-- The atomic flags: `g_config_set`, `g_conditional_error_check`, `g_stored_used_cnf`,
`g_fips_rand_ready`, `g_health_failed`, `g_startup_tested`, and whether `g_mlkem_init_state` and
`g_mldsa_init_state` are 2. -/
inductive Flag where
  | configSet
  | conditionalErrorCheck
  | storedUsedCnf
  | fipsRandReady
  | healthFailed
  | startupTested
  | mlkemInit
  | mldsaInit
  deriving DecidableEq, Repr

/-- The status codes `QUDO_KEM_*`, `QUDO_MLDSA_*` and `QUDO_SLHDSA_*` that the wrappers return. -/
inductive Status where
  | success
  | error
  | errorInvalidArg
  | errorNullPtr
  | errorAlloc
  | errorRng
  | errorVerify
  | errorCrypto
  | errorBufferTooSmall
  | errorInvalidSignature
  deriving DecidableEq, Repr

/-- What an engine's key generation leaves in its output buffers. -/
structure KeygenOut where
  status : Status
  publicKey : Bytes
  secretKey : Bytes
  seed : Bytes
  deriving DecidableEq, Repr

/-- A status together with what an operation leaves in its output buffers: a ciphertext or a
signature, and a shared secret. -/
structure Reply where
  status : Status
  out : Bytes := []
  sharedSecret : Bytes := []
  deriving DecidableEq, Repr

/-- The atomic operations. -/
inductive Op where
  | load (site : LoadSite)
  | store (site : StoreSite) (v : ModuleState)
  /-- `qudo_once(&g_self_test_once, do_self_test_lock_init)`. -/
  | once
  /-- The comparison `g_self_test_lock != NULL`. -/
  | lockCreated
  | wrlock
  | rdlock
  | rdunlock
  | unlock
  | get (f : Flag)
  | set (f : Flag) (b : Bool)
  /-- The load of `g_error_report_count`, compared with `QUDO_ERROR_REPORT_LIMIT`. -/
  | reportsLeft
  | incReportCount
  /-- `qudo_st_end`, which reports the result of a pairwise test to the self-test callback. -/
  | stEnd (result : Bool)
  /-- `qudo_st_corrupt`, which lets the self-test callback change a buffer. -/
  | stCorrupt (buf : Bytes)
  /-- The outcome of a computation whose details do not matter here. -/
  | outcome
  /-- An engine computation that only returns a status. -/
  | engine
  | keygen
  | encaps (pk : Bytes)
  | decaps (sk ct : Bytes)
  | sign (sk : Bytes)
  | verify (pk sig : Bytes)
  deriving DecidableEq

/-- The type of the answer to an operation. -/
abbrev Resp : Op → Type
  | .load _ => ModuleState
  | .once | .lockCreated | .wrlock | .rdlock | .get _ | .reportsLeft | .outcome => Bool
  | .store _ _ | .rdunlock | .unlock | .set _ _ | .incReportCount | .stEnd _ => Unit
  | .engine => Status
  | .keygen => KeygenOut
  | .stCorrupt _ => Bytes
  | .encaps _ | .decaps _ _ | .sign _ => Reply
  | .verify _ _ => Status

/-- A piece of module code. -/
abbrev Code := Prog Op Resp

/-! ## The operations as code -/

@[simp] def loadState (site : LoadSite) : Code ModuleState := perform (Op.load site)

@[simp] def storeState (site : StoreSite) (v : ModuleState) : Code Unit :=
    perform (Op.store site v)

@[simp] def qudoOnce : Code Bool := perform Op.once

@[simp] def lockNotNull : Code Bool := perform Op.lockCreated

@[simp] def rwlockWrlock : Code Bool := perform Op.wrlock

@[simp] def rwlockRdlock : Code Bool := perform Op.rdlock

@[simp] def rwlockRdunlock : Code Unit := perform Op.rdunlock

@[simp] def rwlockUnlock : Code Unit := perform Op.unlock

@[simp] def loadFlag (f : Flag) : Code Bool := perform (Op.get f)

@[simp] def storeFlag (f : Flag) (b : Bool) : Code Unit := perform (Op.set f b)

@[simp] def reportCountBelowLimit : Code Bool := perform Op.reportsLeft

@[simp] def atomicIncReportCount : Code Unit := perform Op.incReportCount

@[simp] def stEnd (result : Bool) : Code Unit := perform (Op.stEnd result)

@[simp] def stCorrupt (buf : Bytes) : Code Bytes := perform (Op.stCorrupt buf)

@[simp] def arbitraryOutcome : Code Bool := perform Op.outcome

@[simp] def engineCall : Code Status := perform Op.engine

@[simp] def engineKeygen : Code KeygenOut := perform Op.keygen

@[simp] def engineEncaps (pk : Bytes) : Code Reply := perform (Op.encaps pk)

@[simp] def engineDecaps (sk ct : Bytes) : Code Reply := perform (Op.decaps sk ct)

@[simp] def engineSign (sk : Bytes) : Code Reply := perform (Op.sign sk)

@[simp] def engineVerify (pk sig : Bytes) : Code Status := perform (Op.verify pk sig)

/-! ## Their meaning -/

/-- The variables shared by all threads. -/
structure Shared where
  /-- `g_module_state`. -/
  state : ModuleState
  /-- `g_self_test_once` has fired. -/
  onceDone : Bool
  /-- `g_self_test_lock != NULL`. -/
  lockCreated : Bool
  /-- The thread that holds the lock as a writer. -/
  writer : Option ℕ
  /-- How many times the lock is held as a reader. -/
  readers : ℕ
  flag : Flag → Bool
  /-- `g_error_report_count`. -/
  errorReportCount : ℕ
  /-- Ghost: a self-test run of `qudo_pqc_init` has passed since load or the last teardown. -/
  postPassed : Bool

/-- Just after the module is loaded: the constructor `qudo_dep_init` has stored SELFTEST, the
conditional-error check is on, and there is no lock yet. -/
def Shared.loaded : Shared where
  state := .selftest
  onceDone := false
  lockCreated := false
  writer := none
  readers := 0
  flag f := decide (f = .conditionalErrorCheck)
  errorReportCount := 0
  postPassed := false

/-- `QUDO_ERROR_REPORT_LIMIT`. -/
def errorReportLimit : ℕ := 10

/-- What the modelled code does not determine. -/
structure Oracle where
  bit : Bool := false
  status : Status := .success
  keygen : KeygenOut := ⟨.success, [], [], []⟩
  out : Bytes := []
  sharedSecret : Bytes := []

/-- A store of the module state, with its effect on the ghost flag. -/
def Shared.storeState (s : Shared) (site : StoreSite) (v : ModuleState) : Shared :=
  { s with
    state := v
    postPassed := match site with
      | .initVerdict => s.postPassed || decide (v = .running)
      | .fini => false
      | _ => s.postPassed }

/-- Thread `t` performs one atomic operation. `none` means that it has to wait. -/
def sem : (o : Op) → ℕ → Oracle → Shared → Option (Resp o × Shared)
  | .load site, _, _, s =>
    some (s.state, if site = .fini ∧ s.state = .error then { s with postPassed := false } else s)
  | .store site v, _, _, s => some ((), s.storeState site v)
  | .once, _, w, s =>
    some (true, if s.onceDone then s else { s with onceDone := true, lockCreated := w.bit })
  | .lockCreated, _, _, s => some (s.lockCreated, s)
  | .wrlock, t, _, s =>
    if s.lockCreated = false ∨ s.writer = some t then some (false, s)
    else if s.writer = none ∧ s.readers = 0 then some (true, { s with writer := some t })
    else none
  | .rdlock, t, _, s =>
    if s.lockCreated = false ∨ s.writer = some t then some (false, s)
    else if s.writer = none then some (true, { s with readers := s.readers + 1 })
    else none
  | .rdunlock, t, _, s =>
    some ((), if s.writer = some t then { s with writer := none }
      else { s with readers := s.readers - 1 })
  | .unlock, t, w, s =>
    some ((), if s.writer = some t ∨ w.bit = true then { s with writer := none } else s)
  | .get f, _, _, s => some (s.flag f, s)
  | .set f b, _, _, s => some ((), { s with flag := Function.update s.flag f b })
  | .reportsLeft, _, _, s => some (decide (s.errorReportCount < errorReportLimit), s)
  | .incReportCount, _, _, s => some ((), { s with errorReportCount := s.errorReportCount + 1 })
  | .stEnd _, _, _, s => some ((), s)
  | .outcome, _, w, s => some (w.bit, s)
  | .engine, _, w, s => some (w.status, s)
  | .keygen, _, w, s => some (w.keygen, s)
  | .stCorrupt buf, _, w, s => some (if w.bit then w.out else buf, s)
  | .encaps _, _, w, s => some (⟨w.status, w.out, w.sharedSecret⟩, s)
  | .decaps _ _, _, w, s => some (⟨w.status, [], w.sharedSecret⟩, s)
  | .sign _, _, w, s => some (⟨w.status, w.out, []⟩, s)
  | .verify _ _, _, w, s => some (w.status, s)

/-- What an operation of thread `t` leaves alone. -/
structure Frame (o : Op) (t : ℕ) (s s' : Shared) : Prop where
  state : (∀ site v, o ≠ .store site v) → s'.state = s.state
  store : ∀ site v, o = .store site v → s' = s.storeState site v
  postPassed : (∀ site v, o ≠ .store site v) → o ≠ .load .fini → s'.postPassed = s.postPassed
  flag : (∀ f b, o ≠ .set f b) → s'.flag = s.flag
  /-- A thread becomes the writer by `wrlock` only, and nobody else is pushed aside by that. -/
  writer : ∀ u, s'.writer = some u → s.writer = some u ∨ (o = .wrlock ∧ u = t)
  /-- The lock pointer is set by the once function, at most once. -/
  created : (s.lockCreated = true → s.onceDone = true) →
    (s'.lockCreated = true → s'.onceDone = true) ∧ (s.lockCreated = true → s'.lockCreated = true)

theorem Frame.refl {o : Op} (t : ℕ) (s : Shared) (ho : ∀ site v, o ≠ .store site v) :
    Frame o t s s where
  state _ := rfl
  store site v h := absurd h (ho site v)
  postPassed _ _ := rfl
  flag _ := rfl
  writer _ h := .inl h
  created h := ⟨h, id⟩

theorem sem_frame {o : Op} {t : ℕ} {w : Oracle} {s s' : Shared} {r : Resp o}
    (h : sem o t w s = some (r, s')) : Frame o t s s' := by
  cases o with
  | load site =>
    cases h
    split
    next hfini => constructor <;> simp [hfini.1]
    next => exact Frame.refl t s (by simp)
  | store site v =>
    cases h
    constructor <;> simp [Shared.storeState]
  | once =>
    cases h
    split
    · exact Frame.refl t s (by simp)
    next hdone =>
      constructor <;> simp
      exact fun hc hl ↦ absurd (hc hl) hdone
  | wrlock =>
    simp only [sem] at h
    split at h
    · cases h
      exact Frame.refl t s (by simp)
    · split at h
      · cases h
        constructor <;> simp
      · cases h
  | rdlock =>
    simp only [sem] at h
    split at h
    · cases h
      exact Frame.refl t s (by simp)
    · split at h
      · cases h
        constructor <;> simp
      · cases h
  | rdunlock =>
    cases h
    split <;> constructor <;> simp
  | unlock =>
    cases h
    split
    · constructor <;> simp
    · exact Frame.refl t s (by simp)
  | set f b =>
    cases h
    constructor <;> simp
  | incReportCount =>
    cases h
    constructor <;> simp
  | _ =>
    cases h
    exact Frame.refl t s (by simp)

/-- Only a store changes the module state. -/
theorem sem_store_or {o : Op} {t : ℕ} {w : Oracle} {s s' : Shared} {r : Resp o}
    (h : sem o t w s = some (r, s')) :
    (∃ site v, o = .store site v ∧ s' = s.storeState site v) ∨
      ((∀ site v, o ≠ .store site v) ∧ s'.state = s.state) := by
  have hframe := sem_frame h
  by_cases ho : ∃ site v, o = .store site v
  · obtain ⟨site, v, rfl⟩ := ho
    exact .inl ⟨site, v, rfl, hframe.store site v rfl⟩
  · have hne : ∀ site v, o ≠ .store site v := fun site v hv ↦ ho ⟨site, v, hv⟩
    exact .inr ⟨hne, hframe.state hne⟩

/-- A load answers with the module state. -/
theorem sem_load {site : LoadSite} {t : ℕ} {w : Oracle} {s s' : Shared} {r : ModuleState}
    (h : sem (.load site) t w s = some (r, s')) : r = s.state :=
  (Prod.mk.inj (Option.some.inj h)).1.symm

end QudoPqc
