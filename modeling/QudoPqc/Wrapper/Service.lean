import QudoPqc.Lifecycle.Init

/-!
# Random bytes and the service functions

The wrappers `mlkem_wrapper.c`, `mldsa_wrapper.c` and `slhdsa_wrapper.c` as far as they touch the
module: the gate `QUDO_FIPS_GATE`, the indicator check `QUDO_FIPS_IND_CHECK`, the random bytes of
`qudo_fips_rand.c` which they draw, and the call of the engine. What an engine computes is an
operation with an arbitrary answer.

## Arguments

A pointer argument matters here only by being NULL or not, a length only by being accepted or not.
`Args` is what a function's argument checks come to; the indicator check looks at the handle before
they do.

## Left out

The lock of the random bit generator and the locks of the `*_init` functions protect data that is
not modelled. The number of requests since the last reseed, and with it the decision to reseed, is
arbitrary.
-/

namespace QudoPqc

open Concurrent

/-! ## Parameter sets -/

/-- `QUDO_KEM_security_level_t`. -/
inductive KemLevel where
  | mlkem512
  | mlkem768
  | mlkem1024
  deriving DecidableEq, Repr

/-- `length_public_key` and `length_secret_key` of the three templates. -/
def KemLevel.lengths : KemLevel → ℕ × ℕ
  | .mlkem512 => (800, 1632)
  | .mlkem768 => (1184, 2400)
  | .mlkem1024 => (1568, 3168)

/-- `QUDO_MLDSA_security_level_t`. -/
inductive MldsaLevel where
  | mldsa44
  | mldsa65
  | mldsa87
  deriving DecidableEq, Repr

def MldsaLevel.lengths : MldsaLevel → ℕ × ℕ
  | .mldsa44 => (1312, 2560)
  | .mldsa65 => (1952, 4032)
  | .mldsa87 => (2592, 4896)

/-- `QUDO_SLHDSA_parameter_set_t`. -/
inductive SlhdsaParam where
  | sha2_128s
  | sha2_128f
  | sha2_192s
  | sha2_192f
  | sha2_256s
  | sha2_256f
  | shake_128s
  | shake_128f
  | shake_192s
  | shake_192f
  | shake_256s
  | shake_256f
  deriving DecidableEq, Repr

/-- The security parameter `n` of the parameter set, in bytes. -/
def SlhdsaParam.n : SlhdsaParam → ℕ
  | .sha2_128s | .sha2_128f | .shake_128s | .shake_128f => 16
  | .sha2_192s | .sha2_192f | .shake_192s | .shake_192f => 24
  | .sha2_256s | .sha2_256f | .shake_256s | .shake_256f => 32

def SlhdsaParam.lengths (ps : SlhdsaParam) : ℕ × ℕ := (2 * ps.n, 4 * ps.n)

/-! ## Random bytes -/

/-- `entropy_health_fail`. -/
def entropyHealthFail : Code Unit := do
  storeFlag .healthFailed true
  setErrorState (some stTypeDrbgHealth)

/-- `platform_entropy`, with the verdicts of the entropy source and of the health tests left open.
-/
def platformEntropy : Code Bool := do
  if ← loadFlag .healthFailed then
    return false
  if !(← loadFlag .startupTested) then
    if !(← arbitraryOutcome) then -- `startup_health_test`
      entropyHealthFail
      return false
    storeFlag .startupTested true
  if !(← arbitraryOutcome) then -- `raw_platform_entropy`
    return false
  if !(← arbitraryOutcome) then -- `continuous_health_test`
    entropyHealthFail
    return false
  return true

/-- `QUDO_CTRDRBG_MAX_REQUEST`. -/
def ctrdrbgMaxRequest : ℕ := 65536

/-- The loop of `qudo_fips_rand_bytes`, over that many requests to the generator. -/
def randChunks : ℕ → Code Bool
  | 0 => return true
  | chunks + 1 => do
    if ← arbitraryOutcome then -- the reseed interval is over
      if !(← platformEntropy) then
        return false
      if !(← arbitraryOutcome) then -- `qudo_ctrdrbg_reseed`
        setErrorState (some stTypeDrbgHealth)
        return false
    if !(← arbitraryOutcome) then -- `qudo_ctrdrbg_generate`
      return false
    randChunks chunks

/-- `qudo_fips_rand_bytes`. -/
def fipsRandBytes (outLen : ℕ) : Code Bool := do
  if !(← isRunningOrSelftest) then
    return false
  if !(← loadFlag .fipsRandReady) then
    return false
  if outLen = 0 then
    return true
  if ← loadFlag .healthFailed then
    return false
  randChunks ((outLen + ctrdrbgMaxRequest - 1) / ctrdrbgMaxRequest)

/-- `qudo_fips_rand_seed_from_platform`, with `qudo_fips_rand_init` inlined. -/
def fipsRandSeedFromPlatform : Code Bool := do
  if !(← platformEntropy) then
    return false
  if !(← arbitraryOutcome) then -- `qudo_ctrdrbg_init`
    return false
  storeFlag .fipsRandReady true
  return true

/-- `QUDO_KEM_randombytes` and `QUDO_MLDSA_randombytes`. -/
def randombytes (outLen : ℕ) : Code Bool := do
  if !(← loadFlag .fipsRandReady) then
    return false
  fipsRandBytes outLen

/-- `qudo_slhdsa_randombytes`. -/
def slhdsaRandombytes (outLen : ℕ) : Code Bool := fipsRandBytes outLen

/-- `QUDO_KEM_randombytes_test` and `QUDO_MLDSA_randombytes_test`: 32 bytes are drawn and must not
all be zero. -/
def randombytesTest : Code Bool := do
  if !(← randombytes 32) then
    return false
  arbitraryOutcome

/-! ## Handles -/

/-- `QUDO_KEM_init` and `QUDO_MLDSA_init`. The flag is looked at again under the lock. -/
def wrapperInit (flag : Flag) : Code Bool := do
  if ← loadFlag flag then
    return true
  if ← loadFlag flag then
    return true
  if !(← randombytesTest) then
    return false
  storeFlag flag true
  return true

/-- `QUDO_KEM_new` and `QUDO_KEM_new_by_level`: whether a handle is returned. -/
def kemNew (known : Bool) : Code Bool := do
  if !(← isRunningOrSelftest) then
    return false
  if !(← loadFlag .mlkemInit) then
    if !(← wrapperInit .mlkemInit) then
      return false
  if !known then
    return false
  arbitraryOutcome -- `calloc`

/-- `QUDO_MLDSA_new`. -/
def mldsaNew (known : Bool) : Code Bool := do
  if !(← isRunningOrSelftest) then
    return false
  if !(← loadFlag .mldsaInit) then
    if !(← wrapperInit .mldsaInit) then
      return false
  if !(← arbitraryOutcome) then -- `malloc`
    return false
  return known

/-- `QUDO_SLHDSA_new`, which initialises nothing. -/
def slhdsaNew (known : Bool) : Code Bool := do
  if !(← isRunningOrSelftest) then
    return false
  if !known then
    return false
  arbitraryOutcome -- `malloc`

/-! ## Gated functions -/

/-- What the argument checks of a function come to: the computation, an error, or, for the functions
that have it, the answer to a query for the length of the output. -/
inductive Args (query : Bool) where
  | ok
  | bad (status : Status) (h : status ≠ .success)
  | lengthQuery (h : query = true)

def Args.check {query : Bool} (args : Args query) (body : Code Reply) : Code Reply :=
  match args with
  | .ok => body
  | .bad status _ => return ⟨status, [], []⟩
  | .lengthQuery _ => return ⟨.success, [], []⟩

/-- `QUDO_FIPS_IND_CHECK`: passed over when the handle is NULL. -/
def fipsIndCheck (handle : Bool) : Code Bool := do
  if !handle then
    return true
  if !(← loadFlag .fipsRandReady) then
    return false
  arbitraryOutcome -- `qudo_pqc_check_security_level`

/-- A function that begins with `QUDO_FIPS_GATE`. -/
def gated {query : Bool} (args : Args query) (body : Code Reply) : Code Reply := do
  if !(← isRunningOrSelftest) then
    return ⟨.error, [], []⟩
  args.check body

/-- A function that begins with `QUDO_FIPS_GATE` and `QUDO_FIPS_IND_CHECK`. -/
def gatedInd {query : Bool} (handle : Bool) (args : Args query) (body : Code Reply) :
    Code Reply := do
  if !(← isRunningOrSelftest) then
    return ⟨.error, [], []⟩
  if !(← fipsIndCheck handle) then
    return ⟨.error, [], []⟩
  args.check body

/-- A computation for which the engine first draws random bytes. -/
def withRandom (random : Code Bool) (failure : Status) (body : Code Reply) : Code Reply := do
  if ← random then
    body
  else
    return ⟨failure, [], []⟩

/-- A verification, or another computation without output. -/
def replying (body : Code Status) : Code Reply := do
  return ⟨← body, [], []⟩

/-! ## ML-KEM -/

/-- `QUDO_KEM_encaps`. -/
def kemEncaps (handle : Bool) (args : Args false) (pk : Bytes) : Code Reply :=
  gatedInd handle args (withRandom (randombytes 32) .errorCrypto (engineEncaps pk))

/-- `QUDO_KEM_encaps_derand`. -/
def kemEncapsDerand (handle : Bool) (args : Args false) (pk : Bytes) : Code Reply :=
  gatedInd handle args (engineEncaps pk)

/-- `QUDO_KEM_decaps`. -/
def kemDecaps (handle : Bool) (args : Args false) (sk ct : Bytes) : Code Reply :=
  gatedInd handle args (engineDecaps sk ct)

/-- `QUDO_KEM_encapsulate`. -/
def kemEncapsulate (args : Args false) (pk : Bytes) : Code Reply :=
  gated args (withRandom (randombytes 32) .errorCrypto (engineEncaps pk))

/-- `QUDO_KEM_decapsulate`. -/
def kemDecapsulate (args : Args false) (sk ct : Bytes) : Code Reply :=
    gated args (engineDecaps sk ct)

/-- `QUDO_KEM_check_pk` and `QUDO_KEM_check_sk`. Neither has a gate. -/
def kemCheck (args : Args false) : Code Reply := args.check (replying engineCall)

/-! ## ML-DSA -/

/-- `QUDO_MLDSA_sign_with_context`. -/
def mldsaSignWithContext (handle : Bool) (args : Args true) (sk : Bytes) : Code Reply :=
  gatedInd handle args (withRandom (randombytes 32) .errorRng (engineSign sk))

/-- `QUDO_MLDSA_sign`, which passes the gate twice. -/
def mldsaSign (handle : Bool) (args : Args false) (args' : Args true) (sk : Bytes) :
    Code Reply :=
  gatedInd handle args (mldsaSignWithContext handle args' sk)

/-- `QUDO_MLDSA_verify_with_context`. -/
def mldsaVerifyWithContext (handle : Bool) (args : Args false) (pk sig : Bytes) : Code Reply :=
  gatedInd handle args (replying (engineVerify pk sig))

/-- `QUDO_MLDSA_verify`. -/
def mldsaVerify (handle : Bool) (args args' : Args false) (pk sig : Bytes) : Code Reply :=
  gatedInd handle args (mldsaVerifyWithContext handle args' pk sig)

/-- `QUDO_MLDSA_sign_internal`, `QUDO_MLDSA_sign_pre_hash_internal`, and per parameter set
`ML_DSA_nn_sign_internal` and `ML_DSA_nn_sign_pre_hash`: the caller supplies the randomness. -/
def mldsaSignInternal (args : Args false) (sk : Bytes) : Code Reply := gated args (engineSign sk)

/-- `QUDO_MLDSA_sign_extmu` and `QUDO_MLDSA_sign_concat`. -/
def mldsaSignExtmu (handle : Bool) (args : Args false) (sk : Bytes) : Code Reply :=
  gatedInd handle args (withRandom (randombytes 32) .errorRng (engineSign sk))

/-- `ML_DSA_nn_sign`, `ML_DSA_nn_sign_extmu` and `ML_DSA_nn_sign_concat`. -/
def mldsaDirectSign (args : Args false) (sk : Bytes) : Code Reply :=
  gated args (withRandom (randombytes 32) .errorRng (engineSign sk))

/-- `QUDO_MLDSA_verify_internal`, `QUDO_MLDSA_verify_extmu`, `QUDO_MLDSA_open`,
`QUDO_MLDSA_verify_pre_hash_internal`, and per parameter set `ML_DSA_nn_verify`,
`ML_DSA_nn_verify_internal`, `ML_DSA_nn_verify_extmu`, `ML_DSA_nn_open` and
`ML_DSA_nn_verify_pre_hash`. -/
def mldsaVerifyInternal (args : Args false) (pk sig : Bytes) : Code Reply :=
  gated args (replying (engineVerify pk sig))

/-- `QUDO_MLDSA_sign_pre_hash`. -/
def mldsaSignPreHash (args args' : Args false) (sk : Bytes) : Code Reply :=
  gated args (mldsaSignInternal args' sk)

/-- `QUDO_MLDSA_verify_pre_hash`: the only gate is that of the function it calls. -/
def mldsaVerifyPreHash (args args' : Args false) (pk sig : Bytes) : Code Reply :=
  args.check (mldsaVerifyInternal args' pk sig)

/-! ## SLH-DSA -/

/-- `internal_sign` and `internal_sign_with_ctx`. -/
def slhdsaInternalSign (ps : SlhdsaParam) (sk : Bytes) : Code Reply :=
  withRandom (slhdsaRandombytes ps.n) .errorRng (engineSign sk)

/-- `QUDO_SLHDSA_sign` and `QUDO_SLHDSA_sign_with_ctx_str`. The function in the handle,
`variant_sign_*` or `variant_sign_ctx_*`, has a gate of its own. -/
def slhdsaSign (ps : SlhdsaParam) (handle : Bool) (args : Args false) (args' : Args true)
    (sk : Bytes) : Code Reply :=
  gatedInd handle args (gated args' (slhdsaInternalSign ps sk))

/-- `QUDO_SLHDSA_verify` and `QUDO_SLHDSA_verify_with_ctx_str`. -/
def slhdsaVerify (handle : Bool) (args args' : Args false) (pk sig : Bytes) : Code Reply :=
  gatedInd handle args (gated args' (replying (engineVerify pk sig)))

/-- `QUDO_SLHDSA_sign_ex`, `QUDO_SLHDSA_sign_internal` and `QUDO_SLHDSA_sign_pre_hash`. -/
def slhdsaSignEx (args : Args true) (sk : Bytes) : Code Reply := gated args (engineSign sk)

/-- `QUDO_SLHDSA_verify_internal`, `QUDO_SLHDSA_verify_pre_hash`, and per parameter set
`QUDO_SLHDSA_*_verify`. -/
def slhdsaVerifyInternal (args : Args false) (pk sig : Bytes) : Code Reply :=
  gated args (replying (engineVerify pk sig))

/-- `QUDO_SLHDSA_*_sign`. -/
def slhdsaDirectSign (ps : SlhdsaParam) (args : Args false) (sk : Bytes) : Code Reply :=
  gated args (slhdsaInternalSign ps sk)

/-! ## The exported services -/

/-- A call of a service function other than key generation. -/
inductive ServiceCall where
  | kemNew (known : Bool)
  | kemEncaps (handle : Bool) (args : Args false) (pk : Bytes)
  | kemEncapsDerand (handle : Bool) (args : Args false) (pk : Bytes)
  | kemDecaps (handle : Bool) (args : Args false) (sk ct : Bytes)
  | kemEncapsulate (level : KemLevel) (args : Args false) (pk : Bytes)
  | kemDecapsulate (level : KemLevel) (args : Args false) (sk ct : Bytes)
  | kemCheck (args : Args false)
  | mldsaNew (known : Bool)
  | mldsaSign (handle : Bool) (args : Args false) (args' : Args true) (sk : Bytes)
  | mldsaSignWithContext (handle : Bool) (args : Args true) (sk : Bytes)
  | mldsaVerify (handle : Bool) (args args' : Args false) (pk sig : Bytes)
  | mldsaVerifyWithContext (handle : Bool) (args : Args false) (pk sig : Bytes)
  | mldsaSignInternal (args : Args false) (sk : Bytes)
  | mldsaSignExtmu (handle : Bool) (args : Args false) (sk : Bytes)
  | mldsaDirectSign (level : MldsaLevel) (args : Args false) (sk : Bytes)
  | mldsaVerifyInternal (args : Args false) (pk sig : Bytes)
  | mldsaSignPreHash (args args' : Args false) (sk : Bytes)
  | mldsaVerifyPreHash (args args' : Args false) (pk sig : Bytes)
  | slhdsaNew (known : Bool)
  | slhdsaSign (ps : SlhdsaParam) (handle : Bool) (args : Args false) (args' : Args true)
      (sk : Bytes)
  | slhdsaVerify (handle : Bool) (args args' : Args false) (pk sig : Bytes)
  | slhdsaSignEx (args : Args true) (sk : Bytes)
  | slhdsaVerifyInternal (args : Args false) (pk sig : Bytes)
  | slhdsaDirectSign (ps : SlhdsaParam) (args : Args false) (sk : Bytes)

/-- A constructor of handles as a service: success is a handle that is not NULL. -/
def handleReply (new : Code Bool) : Code Reply := do
  return ⟨if ← new then .success else .error, [], []⟩

def serviceCode : ServiceCall → Code Reply
  | .kemNew known => handleReply (kemNew known)
  | .kemEncaps handle args pk => kemEncaps handle args pk
  | .kemEncapsDerand handle args pk => kemEncapsDerand handle args pk
  | .kemDecaps handle args sk ct => kemDecaps handle args sk ct
  | .kemEncapsulate _ args pk => kemEncapsulate args pk
  | .kemDecapsulate _ args sk ct => kemDecapsulate args sk ct
  | .kemCheck args => kemCheck args
  | .mldsaNew known => handleReply (mldsaNew known)
  | .mldsaSign handle args args' sk => mldsaSign handle args args' sk
  | .mldsaSignWithContext handle args sk => mldsaSignWithContext handle args sk
  | .mldsaVerify handle args args' pk sig => mldsaVerify handle args args' pk sig
  | .mldsaVerifyWithContext handle args pk sig => mldsaVerifyWithContext handle args pk sig
  | .mldsaSignInternal args sk => mldsaSignInternal args sk
  | .mldsaSignExtmu handle args sk => mldsaSignExtmu handle args sk
  | .mldsaDirectSign _ args sk => mldsaDirectSign args sk
  | .mldsaVerifyInternal args pk sig => mldsaVerifyInternal args pk sig
  | .mldsaSignPreHash args args' sk => mldsaSignPreHash args args' sk
  | .mldsaVerifyPreHash args args' pk sig => mldsaVerifyPreHash args args' pk sig
  | .slhdsaNew known => handleReply (slhdsaNew known)
  | .slhdsaSign ps handle args args' sk => slhdsaSign ps handle args args' sk
  | .slhdsaVerify handle args args' pk sig => slhdsaVerify handle args args' pk sig
  | .slhdsaSignEx args sk => slhdsaSignEx args sk
  | .slhdsaVerifyInternal args pk sig => slhdsaVerifyInternal args pk sig
  | .slhdsaDirectSign ps args sk => slhdsaDirectSign ps args sk

/-- The service has no gate on any path. -/
def ServiceCall.ungated : ServiceCall → Bool
  | .kemCheck _ => true
  | _ => false

end QudoPqc
