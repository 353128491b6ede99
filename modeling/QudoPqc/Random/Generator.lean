import QudoPqc.Aes.Dispatch
import QudoPqc.Fallible.Act
import QudoPqc.Monitor.Epochs
import QudoPqc.Random.Health

/-!
# The random bit generator

`qudo_fips_rand.c`: the DRBG, its readiness flag, the 32-bit count of requests since the last
seeding, and the entropy source behind its health tests. The host provider is not installed.

The platform's raw entropy is an oracle that answers each request with bytes or fails. The functions
run under the lock, so a sequence of calls is a list. A ghost `log` records, latest first, when the
DRBG was (re)seeded, when it generated and when a request was refused for want of entropy.
-/

namespace Random

open Fallible Fallible.Act Monitor

/-- `raw_platform_entropy`: the answer to request number `r` for `n` bytes. -/
structure Entropy where
  read : (r n : ℕ) → Option Bytes
  length_read : ∀ {r n bytes}, read r n = some bytes → bytes.length = n

/-- What the log records. -/
inductive Event
  | seeded
  | generated
  | starved
  deriving DecidableEq, Repr

variable {A : AesLayer}

/-- The globals. `requests` counts the calls of `raw_platform_entropy`. -/
structure Rand (A : AesLayer) where
  drbg : Ctx A
  ready : Bool
  genCount : ℕ
  health : Health
  startupTested : Bool
  healthFailed : Bool
  requests : ℕ
  log : List Event

/-- The globals at load. -/
def Rand.load (A : AesLayer) : Rand A :=
  { drbg := Ctx.zero A, ready := false, genCount := 0, health := .reset, startupTested := false,
    healthFailed := false, requests := 0, log := [] }

/-- `RESEED_INTERVAL`. -/
def reseedInterval : ℕ := 2 ^ 20

/-- `FIPS_RAND_SEEDLEN`. -/
def fipsRandSeedlen : ℕ := 48

section Functions

variable (E : Entropy)

/-! ## The entropy source -/

/-- `raw_platform_entropy`. -/
def rawPlatformEntropy (len : ℕ) : Act (Rand A) Bytes := do
  let s ← fetch
  update fun s ↦ { s with requests := s.requests + 1 }
  ofOption (E.read s.requests len)

/-- `continuous_health_test` on the globals. -/
def checkHealth (buf : Bytes) : Act (Rand A) Unit := do
  let s ← fetch
  update fun s ↦ { s with health := (continuousHealthTest s.health buf).2 }
  require (continuousHealthTest s.health buf).1.isNone

/-- `entropy_health_fail`, which also puts the module into its error state. -/
def entropyHealthFail (s : Rand A) : Rand A := { s with healthFailed := true }

/-- The loop of `startup_health_test`, for `n` more chunks of 64 bytes. -/
def startupLoop : ℕ → Act (Rand A) Unit
  | 0 => pure ()
  | n + 1 => do
    onFailure (do
      let buf ← rawPlatformEntropy E 64
      checkHealth buf) entropyHealthFail
    startupLoop n

/-- `startup_health_test`: `FIPS_ENTROPY_STARTUP_SAMPLES` bytes. -/
def startupHealthTest : Act (Rand A) Unit := startupLoop E (1024 / 64)

/-- `platform_entropy`. -/
def platformEntropy (len : ℕ) : Act (Rand A) Bytes := do
  let s ← fetch
  require (!s.healthFailed)
  if !s.startupTested then
    startupHealthTest E
    update fun s ↦ { s with startupTested := true }
  let out ← rawPlatformEntropy E len
  onFailure (checkHealth out) entropyHealthFail
  pure out

/-! ## The DRBG -/

/-- `qudo_fips_rand_init`. -/
def fipsRandInit (entropy : Option Bytes) : Act (Rand A) Unit := do
  let bytes ← ofOption entropy
  require (decide (fipsRandSeedlen ≤ bytes.length))
  let s ← fetch
  let r := ctrdrbgInit s.drbg 32 (some (bytes.take fipsRandSeedlen))
  update fun s ↦ { s with drbg := r.2 }
  require r.1
  update fun s ↦ { s with genCount := 0, ready := true, log := .seeded :: s.log }

/-- `qudo_ctrdrbg_reseed` on the global DRBG, and the reset of the count. -/
def reseedDrbg (seed : Bytes) : Act (Rand A) Unit := do
  let s ← fetch
  let r := ctrdrbgReseed s.drbg (some seed)
  update fun s ↦ { s with drbg := r.2 }
  require r.1
  update fun s ↦ { s with genCount := 0, log := .seeded :: s.log }

/-- The reseeding of `qudo_fips_rand_bytes` when the interval is used up. -/
def reseedIfDue : Act (Rand A) Unit := do
  let s ← fetch
  if s.genCount ≥ reseedInterval then
    let fresh ← onFailure (platformEntropy E fipsRandSeedlen) fun s ↦
      { s with log := .starved :: s.log }
    reseedDrbg fresh

/-- The loop of `qudo_fips_rand_bytes`, for `outLen` more bytes. -/
def randLoop (outLen : ℕ) : Act (Rand A) Bytes :=
  if outLen = 0 then pure []
  else do
    update fun s ↦ { s with genCount := (s.genCount + 1) % 2 ^ 32 }
    reseedIfDue E
    let s ← fetch
    let r := ctrdrbgGenerate s.drbg true (min outLen maxRequest) none
    update fun s ↦ { s with drbg := r.2 }
    let out ← ofOption r.1
    update fun s ↦ { s with log := .generated :: s.log }
    let rest ← randLoop (outLen - min outLen maxRequest)
    pure (out ++ rest)
termination_by outLen
decreasing_by
  have : 0 < maxRequest := by decide
  omega

/-- `qudo_fips_rand_bytes`. `running` is the answer of `qudo_pqc_is_running_or_selftest`, and `out`
says whether the output pointer is there. -/
def fipsRandBytes (running out : Bool) (outLen : ℕ) : Act (Rand A) Bytes := do
  require running
  let s ← fetch
  require (s.ready && out)
  if outLen = 0 then pure []
  else do
    require (!s.healthFailed)
    randLoop E outLen

/-- `qudo_fips_rand_reseed`. -/
def fipsRandReseed (running : Bool) (entropy : Option Bytes) : Act (Rand A) Unit := do
  require running
  let s ← fetch
  require s.ready
  let bytes ← ofOption entropy
  require (decide (fipsRandSeedlen ≤ bytes.length))
  reseedDrbg (bytes.take fipsRandSeedlen)

/-- `qudo_fips_rand_cleanup`. -/
def fipsRandCleanup (s : Rand A) : Rand A :=
  if s.ready then
    { s with
      ready := false, drbg := Ctx.zero A, genCount := 0, health := .reset,
      healthFailed := false, startupTested := false }
  else s

/-- `qudo_fips_rand_seed_from_platform`. -/
def fipsRandSeedFromPlatform : Act (Rand A) Unit := do
  let entropy ← platformEntropy E fipsRandSeedlen
  fipsRandInit (some entropy)

/-- A call, with its arguments. -/
inductive RandCall
  | init (entropy : Option Bytes)
  | bytes (running out : Bool) (outLen : ℕ)
  | reseed (running : Bool) (entropy : Option Bytes)
  | seedFromPlatform
  | cleanup

/-- The globals after a call. -/
def call (s : Rand A) : RandCall → Rand A
  | .init entropy => (fipsRandInit entropy s).2
  | .bytes running out outLen => (fipsRandBytes E running out outLen s).2
  | .reseed running entropy => (fipsRandReseed running entropy s).2
  | .seedFromPlatform => (fipsRandSeedFromPlatform E s).2
  | .cleanup => fipsRandCleanup s

/-- The globals after a sequence of calls. -/
def callAll (s : Rand A) (cs : List RandCall) : Rand A := cs.foldl (call E) s

/-! ## The entropy source leaves the DRBG alone -/

/-- What the entropy source does not touch. -/
def Rand.core (s : Rand A) : Ctx A × Bool × ℕ × List Event := (s.drbg, s.ready, s.genCount, s.log)

theorem keeps_rawPlatformEntropy (len : ℕ) :
    Keeps Rand.core (rawPlatformEntropy E len : Act (Rand A) Bytes) :=
  .fetch_bind fun _ ↦ .update_bind (fun _ ↦ rfl) <| .ofOption _

theorem keeps_checkHealth (buf : Bytes) :
    Keeps Rand.core (checkHealth buf : Act (Rand A) Unit) :=
  .fetch_bind fun _ ↦ .update_bind (fun _ ↦ rfl) <| .require _

theorem keeps_startupLoop (n : ℕ) : Keeps Rand.core (startupLoop E n : Act (Rand A) Unit) := by
  induction n with
  | zero => exact .pure ()
  | succ n ih =>
    have hchunk := (keeps_rawPlatformEntropy (A := A) E 64).bind keeps_checkHealth
    exact Keeps.bind (.onFailure hchunk fun _ ↦ rfl) fun _ ↦ ih

theorem keeps_platformEntropy (len : ℕ) :
    Keeps Rand.core (platformEntropy E len : Act (Rand A) Bytes) := by
  have hread : Keeps Rand.core (do
      let out ← rawPlatformEntropy E len
      onFailure (checkHealth out) entropyHealthFail
      pure out : Act (Rand A) Bytes) :=
    (keeps_rawPlatformEntropy E len).bind fun out ↦
      .bind (.onFailure (keeps_checkHealth out) fun _ ↦ rfl) fun _ ↦ .pure out
  refine .fetch_bind fun s ↦ .require_bind <| ?_
  split
  · exact (keeps_startupLoop E _).bind fun _ ↦ .update_bind (fun _ ↦ rfl) <| hread
  · exact hread

end Functions

/-! ## The health tests on the stream -/

/-- At load, and after `qudo_fips_rand_cleanup` of a generator in use, the health tests accept the
bytes read from then on exactly as far as they are healthy, however the reads are cut. -/
theorem health_tests_accept_healthy (s : Rand A)
    (hs : s = Rand.load A ∨ ∃ r : Rand A, r.ready = true ∧ s = fipsRandCleanup r)
    (chunks : List Bytes) :
    ((feed s.health chunks).1 = none ↔ Healthy chunks.flatten) ∧
      (∀ i, (feed s.health chunks).1 = some i →
        i < chunks.flatten.length ∧ Healthy (chunks.flatten.take i) ∧
          ¬ Healthy (chunks.flatten.take (i + 1))) ∧
      ∀ chunks' : List Bytes, chunks'.flatten = chunks.flatten →
        (feed s.health chunks').1 = (feed s.health chunks).1 := by
  have hreset : s.health = .reset := by
    rcases hs with rfl | ⟨r, hready, rfl⟩
    · rfl
    · rw [fipsRandCleanup, if_pos hready]
  rw [hreset, feed_eq_flatten]
  obtain ⟨hnone, hsome⟩ := continuousHealthTest_reset chunks.flatten
  refine ⟨hnone, hsome, fun chunks' hflatten ↦ ?_⟩
  rw [feed_eq_flatten, hflatten]

theorem health_tests_accept_healthy_load :
    ¬ Healthy [1, 7, 7, 7, 7] ∧ Healthy ([1, 7, 7, 7, 7].take 4) := by
  have h := health_tests_accept_healthy (Rand.load Aes.niLayer) (Or.inl rfl) [[1, 7], [], [7, 7, 7]]
  exact ⟨fun hok ↦ absurd (h.1.mpr hok) (by decide), (h.2.1 4 (by decide)).2.1⟩

/-- A source with 16 good reads. Each ends in a run of three equal bytes. -/
def sixteenReads : Entropy where
  read r n := if r < 16 then some ((List.range n).map fun i ↦ UInt8.ofNat (min i 61)) else none
  length_read := by
    intro r n bytes h
    split at h
    · cases h
      rw [List.length_map, List.length_range]
    · exact nomatch h

/-- `qudo_fips_rand_cleanup` does not reset the health tests of a generator that has not become
ready: here the start-up test has passed and the read of the seed has failed. The first byte after
the cleanup is refused, although a stream of one byte is healthy. -/
theorem cleanup_before_ready_keeps_run :
    (feed (callAll sixteenReads (Rand.load Aes.niLayer) [.seedFromPlatform, .cleanup]).health
        [[61]]).1 = some 0 ∧
      Healthy [61] := by
  refine ⟨by decide +kernel, ?_⟩
  exact (continuousHealthTest_reset [61]).1.mp rfl

end Random
