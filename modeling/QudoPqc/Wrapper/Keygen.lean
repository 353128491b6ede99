import QudoPqc.Wrapper.Service

/-!
# Key generation and the pairwise tests

The pairwise tests of `qudo_pqc_pct.c` and the key pair functions of the three wrappers. The tests
use the gated service functions, as the source does, and report their result through
`qudo_st_end`.

## Buffers

Output buffers are lists. An engine writes into the front of a buffer and never past its end, and
`qudo_cleanse` overwrites a given number of bytes with zero.

## Two kinds of entry point

The functions that take a handle run the pairwise test unless the module is testing itself. The
functions of the direct interface, one per parameter set, do not.
-/

namespace QudoPqc

open Concurrent

/-! ## Pairwise tests -/

/-- The frame of the three pairwise tests, on a handle and keys that are not NULL: nothing is tested
while the module tests itself, and `qudo_st_end` reports the verdict. -/
def pairwiseTest (test : Code Bool) : Code Bool := do
  if ← isSelfTesting then
    return true
  getStCtx
  let passed ← test
  stEnd passed
  return passed

/-- What `qudo_pqc_mlkem_pct` tests. The self-test callback may corrupt the ciphertext. -/
def mlkemConsistent (pk sk : Bytes) (useRandom : Bool) : Code Bool := do
  if !(← arbitraryOutcome) then -- `qudo_malloc`
    return false
  let enc ← if useRandom then kemEncaps true .ok pk else kemEncapsDerand true .ok pk
  if enc.status ≠ .success then
    return false
  let ctext ← stCorrupt enc.out
  let dec ← kemDecaps true .ok sk ctext
  return decide (dec.status = .success ∧ dec.sharedSecret = enc.sharedSecret)

/-- What `qudo_pqc_mldsa_pct` and `qudo_pqc_slhdsa_pct` test, with their sign and verify
functions. -/
def signatureConsistent (sign : Bytes → Code Reply) (verify : Bytes → Bytes → Code Reply)
    (pk sk : Bytes) : Code Bool := do
  if !(← arbitraryOutcome) then -- `qudo_malloc`
    return false
  let sig ← sign sk
  if sig.status ≠ .success then
    return false
  let sigBuf ← stCorrupt sig.out
  let ver ← verify pk sigBuf
  return decide (ver.status = .success)

/-- `qudo_pqc_mlkem_pct`. -/
def mlkemPct (pk sk : Bytes) (useRandom : Bool) : Code Bool :=
  pairwiseTest (mlkemConsistent pk sk useRandom)

/-- `qudo_pqc_mldsa_pct`. -/
def mldsaPct (pk sk : Bytes) : Code Bool :=
  pairwiseTest (signatureConsistent (mldsaSignInternal .ok) (mldsaVerifyInternal .ok) pk sk)

/-- `qudo_pqc_slhdsa_pct`. -/
def slhdsaPct (ps : SlhdsaParam) (pk sk : Bytes) : Code Bool :=
  pairwiseTest (signatureConsistent (slhdsaSign ps true .ok .ok) (slhdsaVerify true .ok .ok) pk sk)

/-! ## Buffers -/

/-- `bs` written to the front of the buffer. -/
def writeFront (buf bs : Bytes) : Bytes := bs.take buf.length ++ buf.drop bs.length

/-- `qudo_cleanse` and `QUDO_KEM_secure_zero` over the first `n` bytes of the buffer. -/
def cleanse (buf : Bytes) (n : ℕ) : Bytes := writeFront buf (List.replicate n 0)

/-- The output buffers of a key pair function, `none` for NULL. Only `QUDO_KEM_keypair_derand` has
a buffer for the seed. -/
structure KeyBuffers where
  publicKey : Option Bytes
  secretKey : Option Bytes
  seedOut : Option Bytes := none
  deriving DecidableEq, Repr

/-- What a key pair function returns, with the buffers as it leaves them. -/
structure KeygenResult where
  status : Status
  buffers : KeyBuffers
  deriving DecidableEq, Repr

/-! ## The tail common to the functions with a handle -/

/-- The pairwise test after a successful generation: on a failure both keys are cleansed, over the
lengths the handle gives, and the error state is set. The seed buffer is not touched. -/
def pairwiseTested (pct : Bytes → Bytes → Code Bool) (lengths : ℕ × ℕ) (pk sk : Bytes)
    (seedOut : Option Bytes) : Code KeygenResult := do
  if !(← isSelfTesting) then
    if !(← pct pk sk) then
      setErrorState (some stTypePct)
      return ⟨.errorCrypto, ⟨some (cleanse pk lengths.1), some (cleanse sk lengths.2), seedOut⟩⟩
  return ⟨.success, ⟨some pk, some sk, seedOut⟩⟩

/-- The engine's key generation, and the pairwise test if it succeeds. A failure leaves the buffers
as the engine left them. -/
def generateTested (engine : Code KeygenOut) (pct : Bytes → Bytes → Code Bool) (lengths : ℕ × ℕ)
    (pk sk : Bytes) (seedOut : Option Bytes) : Code KeygenResult := do
  let out ← engine
  let pk := writeFront pk out.publicKey
  let sk := writeFront sk out.secretKey
  if out.status ≠ .success then
    return ⟨out.status, ⟨some pk, some sk, seedOut⟩⟩
  -- the seed is copied out only after the engine has succeeded
  pairwiseTested pct lengths pk sk (seedOut.map fun buf ↦ writeFront buf out.seed)

/-- A key pair function with a handle of type `α`: gate, indicator check, argument check, and the
rest on pointers that are not NULL. -/
def handleKeygen {α : Type} (handle : Option α) (argError : Status) (argsOk : Bool)
    (buffers : KeyBuffers) (body : α → Bytes → Bytes → Code KeygenResult) : Code KeygenResult := do
  if !(← isRunningOrSelftest) then
    return ⟨.error, buffers⟩
  if !(← fipsIndCheck handle.isSome) then
    return ⟨.error, buffers⟩
  match handle, buffers.publicKey, buffers.secretKey, argsOk with
  | some h, some pk, some sk, true => body h pk sk
  | _, _, _, _ => return ⟨argError, buffers⟩

/-- The engine's key generation from fresh randomness; without it the status is `failure`. -/
def engineKeypair (random : Code Bool) (failure : Status) : Code KeygenOut := do
  let drawn ← random
  let out ← engineKeygen
  return if drawn then out else { out with status := failure }

/-- `slh_keygen`, which does not look at the result of its random bit generator. -/
def slhKeygen (ps : SlhdsaParam) : Code KeygenOut := do
  let _ ← slhdsaRandombytes (3 * ps.n)
  engineKeygen

/-! ## ML-KEM -/

/-- `QUDO_KEM_SEED_BYTES`. -/
def kemSeedBytes : ℕ := 64

/-- `QUDO_KEM_keypair`. -/
def kemKeypair (kem : Option KemLevel) (buffers : KeyBuffers) : Code KeygenResult :=
  handleKeygen kem .errorInvalidArg true buffers fun level pk sk ↦
    generateTested (engineKeypair (randombytes kemSeedBytes) .errorCrypto)
      (fun pk sk ↦ mlkemPct pk sk false) level.lengths pk sk none

/-- `QUDO_KEM_keypair_derand`, which hands out the seed if it is given a buffer for it. -/
def kemKeypairDerand (kem : Option KemLevel) (buffers : KeyBuffers) : Code KeygenResult :=
  handleKeygen kem .errorInvalidArg true buffers fun level pk sk ↦
    if (buffers.seedOut.any fun buf ↦ decide (buf.length < kemSeedBytes)) then
      return ⟨.errorBufferTooSmall, buffers⟩
    else
      generateTested (engineKeypair (randombytes kemSeedBytes) .errorRng)
        (fun pk sk ↦ mlkemPct pk sk false) level.lengths pk sk buffers.seedOut

/-- `QUDO_KEM_keypair_from_seed`. -/
def kemKeypairFromSeed (kem : Option KemLevel) (seed : Bool) (buffers : KeyBuffers) :
    Code KeygenResult :=
  handleKeygen kem .errorInvalidArg seed buffers fun level pk sk ↦
    generateTested engineKeygen (fun pk sk ↦ mlkemPct pk sk false) level.lengths pk sk none

/-! ## The direct interface -/

/-- A key pair function of the direct interface: the gate, the argument check and the engine. -/
def directKeygen (argError : Status) (argsOk : Bool) (buffers : KeyBuffers)
    (engine : Code KeygenOut) : Code KeygenResult := do
  if !(← isRunningOrSelftest) then
    return ⟨.error, buffers⟩
  match buffers.publicKey, buffers.secretKey, argsOk with
  | some pk, some sk, true =>
    let out ← engine
    return ⟨out.status,
      ⟨some (writeFront pk out.publicKey), some (writeFront sk out.secretKey), none⟩⟩
  | _, _, _ => return ⟨argError, buffers⟩

/-- `QUDO_KEM_keypair_generate`. -/
def kemKeypairGenerate (buffers : KeyBuffers) : Code KeygenResult :=
  directKeygen .errorInvalidArg true buffers
    (engineKeypair (randombytes kemSeedBytes) .errorCrypto)

/-- `QUDO_MLDSA_ML_DSA_44_keypair`, `_65_` and `_87_`. -/
def mldsaDirectKeypair (buffers : KeyBuffers) : Code KeygenResult :=
  directKeygen .errorNullPtr true buffers (engineKeypair (randombytes 32) .errorRng)

/-- `QUDO_MLDSA_ML_DSA_44_keypair_internal`, `_65_` and `_87_`. -/
def mldsaDirectKeypairInternal (seed : Bool) (buffers : KeyBuffers) : Code KeygenResult :=
  directKeygen .errorNullPtr seed buffers engineKeygen

/-- `QUDO_SLHDSA_*_keypair`. -/
def slhdsaDirectKeypair (ps : SlhdsaParam) (buffers : KeyBuffers) : Code KeygenResult :=
  directKeygen .errorNullPtr true buffers (slhKeygen ps)

/-! ## ML-DSA and SLH-DSA with a handle -/

/-- `QUDO_MLDSA_keypair`, which generates through the direct function of its level and so passes
the gate twice. -/
def mldsaKeypair (sig : Option MldsaLevel) (buffers : KeyBuffers) : Code KeygenResult :=
  handleKeygen sig .errorNullPtr true buffers fun level pk sk ↦ do
    let res ← mldsaDirectKeypair ⟨some pk, some sk, none⟩
    match res.status, res.buffers.publicKey, res.buffers.secretKey with
    | .success, some pk, some sk => pairwiseTested mldsaPct level.lengths pk sk none
    | _, _, _ => return res

/-- `QUDO_MLDSA_keypair_internal`. -/
def mldsaKeypairInternal (sig : Option MldsaLevel) (seed : Bool) (buffers : KeyBuffers) :
    Code KeygenResult :=
  handleKeygen sig .errorNullPtr seed buffers fun level pk sk ↦
    generateTested engineKeygen mldsaPct level.lengths pk sk none

/-- `variant_keypair_*`, the function in the handle: a gate of its own before `internal_keypair`. -/
def slhdsaVariantKeypair (ps : SlhdsaParam) : Code KeygenOut := do
  if !(← isRunningOrSelftest) then
    return ⟨.error, [], [], []⟩
  slhKeygen ps

/-- `QUDO_SLHDSA_keypair`. -/
def slhdsaKeypair (sig : Option SlhdsaParam) (buffers : KeyBuffers) : Code KeygenResult :=
  handleKeygen sig .errorNullPtr true buffers fun ps pk sk ↦
    generateTested (slhdsaVariantKeypair ps) (slhdsaPct ps) ps.lengths pk sk none

/-- `QUDO_SLHDSA_keypair_internal`. -/
def slhdsaKeypairInternal (sig : Option SlhdsaParam) (seeds : Bool) (buffers : KeyBuffers) :
    Code KeygenResult :=
  handleKeygen sig .errorNullPtr seeds buffers fun ps pk sk ↦
    generateTested engineKeygen (slhdsaPct ps) ps.lengths pk sk none

/-! ## The exported key pair functions -/

/-- The key pair functions, with their arguments other than the buffers for the two keys. A seed
that is an input only matters by being NULL or not. -/
inductive KeygenFunction where
  | kemKeypair (kem : Option KemLevel)
  | kemKeypairDerand (kem : Option KemLevel) (seedOut : Option Bytes)
  | kemKeypairFromSeed (kem : Option KemLevel) (seed : Bool)
  | mldsaKeypair (sig : Option MldsaLevel)
  | mldsaKeypairInternal (sig : Option MldsaLevel) (seed : Bool)
  | slhdsaKeypair (sig : Option SlhdsaParam)
  | slhdsaKeypairInternal (sig : Option SlhdsaParam) (seeds : Bool)
  | kemKeypairGenerate (level : KemLevel)
  | mldsaDirectKeypair (level : MldsaLevel)
  | mldsaDirectKeypairInternal (level : MldsaLevel) (seed : Bool)
  | slhdsaDirectKeypair (ps : SlhdsaParam)
  deriving DecidableEq, Repr

/-- A call of a key pair function: the function with its other arguments, and the buffers for the
two keys. -/
structure KeygenCall where
  function : KeygenFunction
  publicKey : Option Bytes
  secretKey : Option Bytes
  deriving DecidableEq, Repr

def keygenCode (call : KeygenCall) : Code KeygenResult :=
  let buffers : KeyBuffers := ⟨call.publicKey, call.secretKey, none⟩
  match call.function with
  | .kemKeypair kem => kemKeypair kem buffers
  | .kemKeypairDerand kem seedOut => kemKeypairDerand kem { buffers with seedOut }
  | .kemKeypairFromSeed kem seed => kemKeypairFromSeed kem seed buffers
  | .mldsaKeypair sig => mldsaKeypair sig buffers
  | .mldsaKeypairInternal sig seed => mldsaKeypairInternal sig seed buffers
  | .slhdsaKeypair sig => slhdsaKeypair sig buffers
  | .slhdsaKeypairInternal sig seeds => slhdsaKeypairInternal sig seeds buffers
  | .kemKeypairGenerate _ => kemKeypairGenerate buffers
  | .mldsaDirectKeypair _ => mldsaDirectKeypair buffers
  | .mldsaDirectKeypairInternal _ seed => mldsaDirectKeypairInternal seed buffers
  | .slhdsaDirectKeypair ps => slhdsaDirectKeypair ps buffers

/-- The functions that take a handle, as opposed to the direct interface. -/
def KeygenFunction.hasHandle : KeygenFunction → Bool
  | .kemKeypair _ | .kemKeypairDerand _ _ | .kemKeypairFromSeed _ _ | .mldsaKeypair _
  | .mldsaKeypairInternal _ _ | .slhdsaKeypair _ | .slhdsaKeypairInternal _ _ => true
  | .kemKeypairGenerate _ | .mldsaDirectKeypair _ | .mldsaDirectKeypairInternal _ _
  | .slhdsaDirectKeypair _ => false

end QudoPqc
