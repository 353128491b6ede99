import QudoPqc.Lifecycle.State

/-!
# The life cycle functions

`qudo_pqc_init.c`, function by function: the gates, the error report, the error state, and
initialisation, the on-demand self-test and teardown. Callbacks and the audit log are left out, as
they neither read nor write anything the functions branch on.

The two self-test bodies are parameters here. What they run is the subject of `Lifecycle.Post`;
for the state machine alone only their verdict matters.
-/

namespace QudoPqc

open Concurrent

/-- `qudo_pqc_config_t`, the fields that are branched on. -/
structure PqcConfig where
  modulePath : Option String
  moduleChecksumHex : Option String
  conditionalErrors : Bool
  deriving DecidableEq, Repr

/-- The configuration `qudo_pqc_init` uses when it is given none. -/
def PqcConfig.default : PqcConfig := ⟨none, none, true⟩

/-- The self-test bodies of `qudo_pqc_run_self_tests` and of `qudo_pqc_self_test`. -/
structure SelfTests where
  atInit : PqcConfig → Code Bool
  onDemand : Code Bool

/-! ## Gates and the error report -/

/-- `report_error_state`. Its result is a message; what matters is that it takes the lock. -/
def reportErrorState : Code Unit := do
  if ← reportCountBelowLimit then
    atomicIncReportCount
    if ← lockNotNull then
      let _ ← rwlockRdlock
      rwlockRdunlock

/-- `qudo_pqc_is_running_or_selftest`. -/
def isRunningOrSelftest : Code Bool := do
  let state ← loadState .gate
  if state = .error then
    reportErrorState
  return decide (state = .running ∨ state = .selftest)

/-- `qudo_pqc_is_self_testing`. -/
def isSelfTesting : Code Bool := do
  let state ← loadState .selfTesting
  return decide (state = .selftest)

/-- `qudo_pqc_get_st_ctx`, on a context that is not NULL. -/
def getStCtx : Code Unit := do
  if ← lockNotNull then
    let _ ← rwlockRdlock
    rwlockRdunlock

/-! ## The error state -/

/-- `QUDO_ST_TYPE_PCT`. -/
def stTypePct : String := "PCT"

/-- `QUDO_ST_TYPE_PCT_IMPORT`. -/
def stTypePctImport : String := "Import_PCT"

/-- `QUDO_ST_TYPE_DRBG_HEALTH`. -/
def stTypeDrbgHealth : String := "DRBG_Health"

/-- `qudo_pqc_set_error_state`; `none` is the NULL type. Takes no lock. -/
def setErrorState (type : Option String) : Code Unit := do
  if type = some stTypePctImport then
    return ()
  if type = some stTypePct then
    -- `!cond_test || load`: the flag is only read for a pairwise test
    if ← loadFlag .conditionalErrorCheck then
      storeState .setErrorState .error
  else
    storeState .setErrorState .error

/-! ## Initialisation, on-demand self-test, teardown -/

/-- `qudo_pqc_run_self_tests`: the body, then the verdict. -/
def runSelfTests (body : Code Bool) : Code Bool := do
  let ok ← body
  storeState .initVerdict (if ok then .running else .error)
  return ok

/-- `qudo_pqc_init`. -/
def qudoPqcInit (tests : SelfTests) (config : Option PqcConfig) : Code Bool := do
  let config := config.getD .default
  if !(← qudoOnce) then
    return false
  if !(← lockNotNull) then
    return false
  if (← loadState .lifecycle) = .running then
    if !(← rwlockWrlock) then
      return false
    rwlockUnlock
    return true
  if (← loadState .lifecycle) = .error then
    return false
  if !(← rwlockWrlock) then
    return false
  if (← loadState .lifecycle) = .running then
    rwlockUnlock
    return true
  if (← loadState .lifecycle) = .error then
    rwlockUnlock
    return false
  storeFlag .conditionalErrorCheck config.conditionalErrors
  storeFlag .configSet true
  storeState .initBegin .selftest
  let ok ← runSelfTests (tests.atInit config)
  rwlockUnlock
  return ok

/-- `qudo_pqc_self_test`. -/
def qudoPqcSelfTest (tests : SelfTests) : Code Bool := do
  if !(← loadFlag .configSet) then
    return false
  if !(← lockNotNull) then
    return false
  let state ← loadState .lifecycle
  if state ≠ .running then
    return decide (state ≠ .error)
  if !(← rwlockWrlock) then
    return false
  let state ← loadState .lifecycle
  if state ≠ .running then
    rwlockUnlock
    return decide (state ≠ .error)
  storeState .selfTestBegin .selftest
  let ok ← tests.onDemand
  storeState .selfTestVerdict (if ok then .running else .error)
  rwlockUnlock
  return ok

/-- `qudo_fips_rand_cleanup`. -/
def qudoFipsRandCleanup : Code Unit := do
  if ← loadFlag .fipsRandReady then
    storeFlag .fipsRandReady false
    storeFlag .healthFailed false
    storeFlag .startupTested false

/-- `qudo_pqc_fini`. The lock pointer is looked at twice, and the result of the acquire is not. -/
def qudoPqcFini : Code Unit := do
  if ← lockNotNull then
    let _ ← rwlockWrlock
  storeFlag .configSet false
  if (← loadState .fini) ≠ .error then
    storeState .fini .init
  if ← lockNotNull then
    rwlockUnlock
  qudoFipsRandCleanup

end QudoPqc
