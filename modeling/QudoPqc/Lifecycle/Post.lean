import QudoPqc.Lifecycle.Latch
import QudoPqc.Wrapper.Footprint

/-!
# The self-tests and the whole module

`qudo_pqc_post.c`: the known-answer tests which `qudo_pqc_init` and `qudo_pqc_self_test` run while
they hold the self-test lock. They go through the same gated wrapper functions that applications
call. Comparisons with expected values are outcomes left to the oracle, so the bytes of the vectors
do not appear; a test that fails ends the whole self-test.

`pqcModule` is the complete system: any number of threads, each calling the life cycle functions,
the services and the key pair functions in any order.
-/

namespace QudoPqc

open Concurrent

/-! ## Known-answer tests -/

/-- The test passes on every vector, stopping at the first failure. -/
def forVectors {α : Type} (vectors : List α) (test : α → Code Bool) : Code Bool :=
  match vectors with
  | [] => return true
  | v :: vs => do
    if !(← test v) then
      return false
    forVectors vs test

/-- Buffers for the two keys, as `qudo_malloc` returns them. -/
def allocated (lengths : ℕ × ℕ) : KeyBuffers :=
  ⟨some (List.replicate lengths.1 0), some (List.replicate lengths.2 0), none⟩

/-- A vector of a key generation test: a handle, two buffers, the keys from the seed, and the
comparison of the secret key. -/
def postKeygen (new : Code Bool) (lengths : ℕ × ℕ) (keygen : KeyBuffers → Code KeygenResult) :
    Code Bool := do
  if !(← new) then
    return false
  if !(← arbitraryOutcome) then -- `qudo_malloc`
    return false
  let res ← keygen (allocated lengths)
  if res.status ≠ .success then
    return false
  arbitraryOutcome

/-- `qudo_post_keygen_mlkem`. -/
def postKeygenMlkem (level : KemLevel) : Code Bool :=
  postKeygen (kemNew true) level.lengths (kemKeypairFromSeed (some level) true)

/-- `qudo_post_keygen_mldsa`. -/
def postKeygenMldsa (level : MldsaLevel) : Code Bool :=
  postKeygen (mldsaNew true) level.lengths (mldsaKeypairInternal (some level) true)

/-- `qudo_post_keygen_slhdsa`. -/
def postKeygenSlhdsa (ps : SlhdsaParam) : Code Bool :=
  postKeygen (slhdsaNew true) ps.lengths (slhdsaKeypairInternal (some ps) true)

/-- `qudo_post_kem`, on the keys of a vector: encapsulation, decapsulation, and implicit rejection
of the zero ciphertext. -/
def postKem (pk sk : Bytes) : Code Bool := do
  if !(← kemNew true) then
    return false
  if !(← arbitraryOutcome) then -- `qudo_malloc`, and the length of the secret key
    return false
  let enc ← kemEncapsDerand true .ok pk
  if enc.status ≠ .success then
    return false
  if !(← arbitraryOutcome) then
    return false
  let dec ← kemDecaps true .ok sk enc.out
  if dec.status ≠ .success then
    return false
  if !(← arbitraryOutcome) then
    return false
  let reject ← kemDecaps true .ok sk (List.replicate enc.out.length 0)
  if reject.status ≠ .success then
    return false
  arbitraryOutcome

/-- A vector of a signature test: keys from the seed, a signature, its comparison, and its
verification. -/
def postSignature (new : Code Bool) (lengths : ℕ × ℕ) (keygen : KeyBuffers → Code KeygenResult)
    (sign : Bytes → Code Reply) (verify : Bytes → Bytes → Code Reply) : Code Bool := do
  if !(← new) then
    return false
  if !(← arbitraryOutcome) then -- `qudo_malloc`
    return false
  let res ← keygen (allocated lengths)
  if res.status ≠ .success then
    return false
  let sig ← sign (res.buffers.secretKey.getD [])
  if sig.status ≠ .success then
    return false
  if !(← arbitraryOutcome) then
    return false
  let sigBuf ← stCorrupt sig.out
  let ver ← verify (res.buffers.publicKey.getD []) sigBuf
  return decide (ver.status = .success)

/-- `qudo_post_mldsa`. -/
def postMldsa (level : MldsaLevel) : Code Bool :=
  postSignature (mldsaNew true) level.lengths (mldsaKeypairInternal (some level) true)
    (mldsaSignInternal .ok) (mldsaVerifyInternal .ok)

/-- `qudo_post_slhdsa`. -/
def postSlhdsa (ps : SlhdsaParam) : Code Bool :=
  postSignature (slhdsaNew true) ps.lengths (slhdsaKeypairInternal (some ps) true)
    (slhdsaSignEx .ok) (slhdsaVerify true .ok .ok)

/-- `qudo_pqc_run_post_primitives`: the SHA-256, HMAC-SHA-256 and CTR-DRBG tests. -/
def runPostPrimitives : Code Bool := do
  if !(← arbitraryOutcome) then
    return false
  if !(← arbitraryOutcome) then
    return false
  arbitraryOutcome

/-- `qudo_pqc_run_post_algorithms`, over the vectors of `qudo_self_test_data.inc`. -/
def runPostAlgorithms : Code Bool := do
  if !(← forVectors [.mlkem512, .mlkem768, .mlkem1024] postKeygenMlkem) then
    return false
  if !(← forVectors [.mldsa65] postKeygenMldsa) then
    return false
  if !(← forVectors [.sha2_128f, .shake_128f] postKeygenSlhdsa) then
    return false
  if !(← forVectors [([], [])] fun (pk, sk) ↦ postKem pk sk) then
    return false
  if !(← forVectors [.mldsa65] postMldsa) then
    return false
  forVectors [.sha2_128f, .shake_128f] postSlhdsa

/-- `qudo_pqc_run_post`. -/
def runPost : Code Bool := do
  if !(← runPostPrimitives) then
    return false
  runPostAlgorithms

/-! ## The two self-test bodies -/

/-- The sizes of `g_stored_module_path` and `g_stored_module_mac`. -/
def storedSizes : ℕ × ℕ := (1024, 256)

/-- The integrity check of `qudo_pqc_run_self_tests`: by the configuration if it names a file and
its checksum, which are then kept if they fit, and by the embedded checksum otherwise. -/
def verifyIntegrity (config : PqcConfig) : Code Bool :=
  match config.modulePath, config.moduleChecksumHex with
  | some path, some hex => do
    if !(← arbitraryOutcome) then
      return false
    if path.utf8ByteSize < storedSizes.1 ∧ hex.utf8ByteSize < storedSizes.2 then
      storeFlag .storedUsedCnf true
    return true
  | _, _ => arbitraryOutcome

/-- The body of `qudo_pqc_run_self_tests`. -/
def selfTestsAtInit (config : PqcConfig) : Code Bool := do
  if !(← verifyIntegrity config) then
    return false
  if !(← runPostPrimitives) then
    return false
  if !(← fipsRandSeedFromPlatform) then
    return false
  runPostAlgorithms

/-- The body of `qudo_pqc_self_test`. Which checksum is verified depends on what was kept. -/
def selfTestsOnDemand : Code Bool := do
  let _ ← loadFlag .storedUsedCnf
  if !(← arbitraryOutcome) then
    return false
  runPost

/-- The self-tests of the FIPS build. -/
def fipsSelfTests : SelfTests := ⟨selfTestsAtInit, selfTestsOnDemand⟩

/-! ## What the self-tests touch -/

theorem forVectors_only {α : Type} (vectors : List α) {test : α → Code Bool}
    (h : ∀ v, (test v).Only WrapperOp) : (forVectors vectors test).Only WrapperOp := by
  induction vectors with
  | nil => trivial
  | cons v vs ih => exact (h v).guard trivial ih

theorem postKeygen_only {new : Code Bool} (hn : new.Only ServiceOp) (lengths : ℕ × ℕ)
    {keygen : KeyBuffers → Code KeygenResult} (hk : ∀ buffers, (keygen buffers).Only WrapperOp) :
    (postKeygen new lengths keygen).Only WrapperOp := by
  refine (hn.mono ServiceOp.wrapper).guard trivial ⟨trivial, fun _ ↦ .ite trivial ?_⟩
  exact (hk _).bind fun _ ↦ .ite trivial ⟨trivial, fun _ ↦ trivial⟩

theorem postKem_only (pk sk : Bytes) : (postKem pk sk).Only ServiceOp := by
  have hdecaps (sk ct : Bytes) : (kemDecaps true .ok sk ct).Only ServiceOp :=
    gatedInd_only _ _ (engineDecaps_only sk ct)
  refine (kemNew_only true).guard trivial ⟨trivial, fun _ ↦ .ite trivial ?_⟩
  refine (gatedInd_only _ _ (engineEncaps_only pk)).bind fun _ ↦ .ite trivial ?_
  refine ⟨trivial, fun _ ↦ .ite trivial ((hdecaps sk _).bind fun _ ↦ .ite trivial ?_)⟩
  refine ⟨trivial, fun _ ↦ .ite trivial ((hdecaps sk _).bind fun _ ↦ .ite trivial ?_)⟩
  exact ⟨trivial, fun _ ↦ trivial⟩

theorem postSignature_only {new : Code Bool} (hn : new.Only ServiceOp) (lengths : ℕ × ℕ)
    {keygen : KeyBuffers → Code KeygenResult} (hk : ∀ buffers, (keygen buffers).Only WrapperOp)
    {sign : Bytes → Code Reply} (hs : ∀ sk, (sign sk).Only ServiceOp)
    {verify : Bytes → Bytes → Code Reply} (hv : ∀ pk sig, (verify pk sig).Only ServiceOp) :
    (postSignature new lengths keygen sign verify).Only WrapperOp := by
  refine (hn.mono ServiceOp.wrapper).guard trivial ⟨trivial, fun _ ↦ .ite trivial ?_⟩
  refine (hk _).bind fun _ ↦ .ite trivial ?_
  refine ((hs _).mono ServiceOp.wrapper).bind fun _ ↦ .ite trivial ?_
  refine ⟨trivial, fun _ ↦ .ite trivial ⟨trivial, fun _ ↦ ?_⟩⟩
  exact ((hv _ _).mono ServiceOp.wrapper).bind fun _ ↦ trivial

theorem runPostPrimitives_only : runPostPrimitives.Only WrapperOp := by
  simp [runPostPrimitives, WrapperOp]

theorem runPostAlgorithms_only : runPostAlgorithms.Only WrapperOp := by
  have hmlkem : (forVectors [.mlkem512, .mlkem768, .mlkem1024] postKeygenMlkem).Only WrapperOp :=
    forVectors_only _ fun _ ↦ postKeygen_only (kemNew_only true) _ (kemKeypairFromSeed_only _ _)
  have hmldsa : (forVectors [.mldsa65] postKeygenMldsa).Only WrapperOp :=
    forVectors_only _ fun _ ↦ postKeygen_only (mldsaNew_only true) _ (mldsaKeypairInternal_only _ _)
  have hslhdsa : (forVectors [.sha2_128f, .shake_128f] postKeygenSlhdsa).Only WrapperOp :=
    forVectors_only _ fun _ ↦
      postKeygen_only (slhdsaNew_only true) _ (slhdsaKeypairInternal_only _ _)
  refine hmlkem.guard trivial (hmldsa.guard trivial (hslhdsa.guard trivial ?_))
  refine (forVectors_only _ fun _ ↦ (postKem_only _ _).mono ServiceOp.wrapper).guard trivial ?_
  refine (forVectors_only _ fun _ ↦ postSignature_only (mldsaNew_only true) _
    (mldsaKeypairInternal_only _ _) (fun sk ↦ gated_only _ (engineSign_only sk))
    fun pk sig ↦ gated_only _ (engineVerify_only pk sig)).guard trivial ?_
  exact forVectors_only _ fun _ ↦ postSignature_only (slhdsaNew_only true) _
    (slhdsaKeypairInternal_only _ _) (fun sk ↦ gated_only _ (engineSign_only sk))
    fun pk sig ↦ gatedInd_only _ _ (gated_only _ (engineVerify_only pk sig))

theorem verifyIntegrity_only (config : PqcConfig) : (verifyIntegrity config).Only WrapperOp := by
  unfold verifyIntegrity
  split
  · refine ⟨trivial, fun _ ↦ .ite trivial (.ite ?_ trivial)⟩
    exact ⟨by simp [WrapperOp], fun _ ↦ trivial⟩
  · exact ⟨trivial, fun _ ↦ trivial⟩

theorem fipsRandSeedFromPlatform_only : fipsRandSeedFromPlatform.Only WrapperOp := by
  refine (platformEntropy_only.mono ServiceOp.wrapper).guard trivial
    ⟨trivial, fun _ ↦ .ite trivial ?_⟩
  exact ⟨by simp [WrapperOp], fun _ ↦ trivial⟩

theorem selfTestsAtInit_only (config : PqcConfig) : (selfTestsAtInit config).Only WrapperOp :=
  (verifyIntegrity_only config).guard trivial <| runPostPrimitives_only.guard trivial <|
    fipsRandSeedFromPlatform_only.guard trivial runPostAlgorithms_only

theorem selfTestsOnDemand_only : selfTestsOnDemand.Only WrapperOp := by
  refine ⟨trivial, fun _ ↦ ⟨trivial, fun _ ↦ .ite trivial ?_⟩⟩
  exact runPostPrimitives_only.guard trivial runPostAlgorithms_only

/-! ## The module -/

inductive ModuleCall where
  | lifecycle (call : LifecycleCall)
  | service (call : ServiceCall)
  | keygen (call : KeygenCall)

inductive ModuleResult where
  | lifecycle (res : Option Bool)
  | service (reply : Reply)
  | keygen (res : KeygenResult)
  deriving DecidableEq, Repr

def moduleCode : ModuleCall → Code ModuleResult
  | .lifecycle call => do
    return .lifecycle (← lifecycleCode fipsSelfTests call)
  | .service call => do
    return .service (← serviceCode call)
  | .keygen call => do
    return .keygen (← keygenCode call)

/-- The module, used by any number of threads. -/
def pqcModule : Machine Op Resp Shared Oracle ModuleCall ModuleResult := ⟨sem, moduleCode⟩

abbrev ModuleConfig := Config Op Resp Shared ModuleCall ModuleResult

abbrev ModuleThread := Thread Op Resp Shared ModuleCall ModuleResult

/-- The module just after it was loaded. -/
def pqcModule.loaded : ModuleConfig := Config.idle Shared.loaded

end QudoPqc
