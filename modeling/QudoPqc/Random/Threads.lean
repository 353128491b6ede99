import QudoPqc.Concurrent.Sequential
import QudoPqc.Random.Generator

/-!
# The random bit generator under concurrency

`qudo_fips_rand_init`, `qudo_fips_rand_bytes`, `qudo_fips_rand_reseed` and `qudo_fips_rand_cleanup`
as programs over the globals they share, for any number of threads. The flags `g_fips_rand_ready`
and `g_health_failed` are tested before `g_fips_rand_lock` is taken, so a thread can find the
generator gone when it has the lock.

The context and the count are not atomic: a function of the DRBG reads the context in one step and
writes it back in another one, and the count is read and written. Nothing but the lock keeps two
threads from computing with the same context.

The lock works and exists, as `dep_cleanup` does not run, the module state lets every call pass, and
there is no host provider. `platform_entropy` gives a seed or fails, and if it fails it may latch
`g_health_failed`.

## Ghost state

`version` counts the states of the DRBG and `epoch` its instantiations; a thread that reads the
context reads them with it. `generated` lists, latest first, who generated from which state.
-/

namespace Random.Threads

open Concurrent
open Prog (perform)

section Operations

variable (A : AesLayer)

/-- The context, as a thread reads it. -/
structure View where
  ctx : Ctx A
  version : ℕ
  epoch : ℕ

/-- Which function of the DRBG writes the context. One that generates says what it has read. -/
inductive DrbgStep where
  | instantiate
  | reseed
  | generate (view : View A)
  | free

/-- The atomic operations. -/
inductive Op where
  | loadReady
  | storeReady (b : Bool)
  | loadHealthFailed
  | storeHealthFailed (b : Bool)
  | wrlock
  | unlock
  | readCount
  | writeCount (n : ℕ)
  | readCtx
  | writeCtx (step : DrbgStep A) (ctx : Ctx A)
  /-- The reads and the tests of `platform_entropy`, once `g_health_failed` is found clear. -/
  | readEntropy

variable {A}

/-- The type of the answer to an operation. -/
abbrev Resp : Op A → Type
  | .loadReady | .loadHealthFailed => Bool
  | .readCount => ℕ
  | .readCtx => View A
  | .readEntropy => Option Bytes
  | .storeReady _ | .storeHealthFailed _ | .wrlock | .unlock | .writeCount _ | .writeCtx _ _ => Unit

variable (A) in
/-- A piece of code. -/
abbrev Code := Prog (Op A) Resp

variable (A) in
/-- The globals. -/
structure Shared where
  /-- `g_fips_rand_ready`. -/
  ready : Bool
  /-- `g_health_failed`. -/
  healthFailed : Bool
  /-- Who holds `g_fips_rand_lock`. -/
  holder : Option ℕ
  /-- `g_fips_rand_gen_count`. -/
  count : ℕ
  /-- `g_fips_drbg`. -/
  ctx : Ctx A
  version : ℕ
  epoch : ℕ
  generated : List (ℕ × View A)

variable (A) in
/-- The globals at load. -/
def Shared.load : Shared A := ⟨false, false, none, 0, Ctx.zero A, 0, 0, []⟩

/-- What a thread reads as the context. -/
def Shared.view (s : Shared A) : View A := ⟨s.ctx, s.version, s.epoch⟩

/-- The context is written. Clearing one that is not instantiated is no step of the DRBG. -/
def Shared.write (s : Shared A) (t : ℕ) (step : DrbgStep A) (ctx : Ctx A) : Shared A :=
  match step with
  | .instantiate => { s with ctx := ctx, version := s.version + 1, epoch := s.epoch + 1 }
  | .reseed => { s with ctx := ctx, version := s.version + 1 }
  | .generate view =>
    { s with ctx := ctx, version := s.version + 1, generated := (t, view) :: s.generated }
  | .free =>
    { s with ctx := ctx, version := if s.ctx.initialized then s.version + 1 else s.version }

/-- What `platform_entropy` reads. -/
abbrev Seed := { bytes : Bytes // bytes.length = fipsRandSeedlen }

/-- How a read of entropy ends: with a seed, with a failure, or with a failure of the health tests.
-/
inductive Reading where
  | value (seed : Seed)
  | failed
  | unhealthy

/-- Thread `t` performs one operation. `none` means that it has to wait. -/
def sem : (o : Op A) → ℕ → Reading → Shared A → Option (Resp o × Shared A)
  | .loadReady, _, _, s => some (s.ready, s)
  | .storeReady b, _, _, s => some ((), { s with ready := b })
  | .loadHealthFailed, _, _, s => some (s.healthFailed, s)
  | .storeHealthFailed b, _, _, s => some ((), { s with healthFailed := b })
  | .wrlock, t, _, s => if s.holder = none then some ((), { s with holder := some t }) else none
  | .unlock, _, _, s => some ((), { s with holder := none })
  | .readCount, _, _, s => some (s.count, s)
  | .writeCount n, _, _, s => some ((), { s with count := n })
  | .readCtx, _, _, s => some (s.view, s)
  | .writeCtx step ctx, t, _, s => some ((), s.write t step ctx)
  | .readEntropy, _, .value seed, s => some (some seed.1, s)
  | .readEntropy, _, .failed, s => some (none, s)
  | .readEntropy, _, .unhealthy, s => some (none, { s with healthFailed := true })

end Operations

/-! ## The code -/

variable {A : AesLayer}

/-- `platform_entropy`. -/
def platformEntropy : Code A (Option Bytes) := do
  let failed ← perform Op.loadHealthFailed
  if failed then pure none
  else perform Op.readEntropy

/-- `qudo_rwlock_unlock(g_fips_rand_lock); return …`. -/
def unlockReturn (result : Option Bytes) : Code A (Option Bytes) := do
  perform Op.unlock
  pure result

/-- `qudo_fips_rand_init` under the lock. -/
def initSection (entropy : Bytes) : Code A (Option Bytes) := do
  let v ← perform Op.readCtx
  let r := ctrdrbgInit v.ctx 32 (some (entropy.take fipsRandSeedlen))
  if !r.1 then unlockReturn none
  else do
    perform (Op.writeCtx .instantiate r.2)
    perform (Op.writeCount 0)
    perform (Op.storeReady true)
    unlockReturn (some [])

/-- `qudo_ctrdrbg_reseed` on the global context, and the reset of the count: whether it succeeds. -/
def reseedDrbg (seed : Bytes) : Code A Bool := do
  let v ← perform Op.readCtx
  let r := ctrdrbgReseed v.ctx (some seed)
  if !r.1 then pure false
  else do
    perform (Op.writeCtx .reseed r.2)
    perform (Op.writeCount 0)
    pure true

/-- The reseeding in `qudo_fips_rand_bytes`: whether the loop goes on. -/
def reseedFresh : Code A Bool := do
  let fresh ← platformEntropy
  match fresh with
  | none => pure false
  | some fresh => reseedDrbg fresh

/-- `++g_fips_rand_gen_count`. -/
def increment (count : ℕ) : ℕ := (count + 1) % 2 ^ 32

/-- `g_fips_rand_gen_count >= RESEED_INTERVAL`. -/
def due (count : ℕ) : Bool := decide (count ≥ reseedInterval)

/-- `if (++g_fips_rand_gen_count >= RESEED_INTERVAL)`, and what it guards. -/
def reseedIfDue : Code A Bool := do
  let count ← perform Op.readCount
  perform (Op.writeCount (increment count))
  if due (increment count) then reseedFresh else pure true

/-- `qudo_ctrdrbg_generate` on the global context: the bytes, unless it fails. -/
def generateDrbg (chunk : ℕ) : Code A (Option Bytes) := do
  let v ← perform Op.readCtx
  match ctrdrbgGenerate v.ctx true chunk none with
  | (none, _) => pure none
  | (some bytes, ctx) => do
    perform (Op.writeCtx (.generate v) ctx)
    pure (some bytes)

/-- The loop of `qudo_fips_rand_bytes` for `outLen` more bytes, after the bytes `out`. -/
def bytesLoop (outLen : ℕ) (out : Bytes) : Code A (Option Bytes) :=
  if outLen = 0 then unlockReturn (some out)
  else do
    let ok ← reseedIfDue
    if !ok then unlockReturn none
    else do
      let bytes ← generateDrbg (min outLen maxRequest)
      match bytes with
      | none => unlockReturn none
      | some bytes => bytesLoop (outLen - min outLen maxRequest) (out ++ bytes)
termination_by outLen
decreasing_by
  have : 0 < maxRequest := by decide
  omega

/-- `qudo_fips_rand_reseed` under the lock. -/
def reseedSection (entropy : Bytes) : Code A (Option Bytes) := do
  let ok ← reseedDrbg (entropy.take fipsRandSeedlen)
  if !ok then unlockReturn none else unlockReturn (some [])

/-- `qudo_fips_rand_cleanup` under the lock. -/
def cleanupSection : Code A (Option Bytes) := do
  perform (Op.storeReady false)
  perform (Op.writeCtx .free (Ctx.zero A))
  perform (Op.writeCount 0)
  perform (Op.storeHealthFailed false)
  unlockReturn (some [])

/-- A call, with its arguments. `none` is a `NULL` pointer, and `out` says whether the output
pointer is there. -/
inductive RandCall where
  | init (entropy : Option Bytes)
  | bytes (out : Bool) (outLen : ℕ)
  | reseed (entropy : Option Bytes)
  | cleanup

/-- What a call does once it has the lock. -/
def lockedCode : RandCall → Code A (Option Bytes)
  | .init entropy => initSection (entropy.getD [])
  | .bytes _ outLen => bytesLoop outLen []
  | .reseed entropy => reseedSection (entropy.getD [])
  | .cleanup => cleanupSection

/-- `entropy != NULL && entropy_len >= FIPS_RAND_SEEDLEN`. -/
def longEnough (entropy : Option Bytes) : Bool :=
  entropy.any fun bytes ↦ decide (fipsRandSeedlen ≤ bytes.length)

/-- The whole of a call: `none` is the result `-1`, and `some` the bytes of `out`. -/
def code (call : RandCall) : Code A (Option Bytes) :=
  match call with
  | .init entropy =>
    if !longEnough entropy then pure none
    else do
      perform Op.wrlock
      lockedCode call
  | .bytes out outLen => do
    let ready ← perform Op.loadReady
    if !ready || !out then pure none
    else if outLen = 0 then pure (some [])
    else do
      let failed ← perform Op.loadHealthFailed
      if failed then pure none
      else do
        perform Op.wrlock
        lockedCode call
  | .reseed entropy => do
    let ready ← perform Op.loadReady
    if !ready || !longEnough entropy then pure none
    else do
      perform Op.wrlock
      lockedCode call
  | .cleanup => do
    let ready ← perform Op.loadReady
    if ready then do
      perform Op.wrlock
      lockedCode call
    else pure (some [])

variable (A) in
/-- The generator and its callers. -/
def machine : Machine (Op A) Resp (Shared A) Reading RandCall (Option Bytes) := ⟨sem, code⟩

/-- What is observed of a call: the bytes that `qudo_fips_rand_bytes` delivers. -/
def delivered : RandCall → Option Bytes → Option Bytes
  | .bytes _ _, some out => if out = [] then none else some out
  | _, _ => none

end Random.Threads
