import Mathlib.Data.Int.Notation
import QudoPqc.Concurrent.Sequential
import QudoPqc.Lifecycle.Latch

/-!
# The source of the integrity check

`qudo_pqc_init` verifies the integrity of the module against a file and a checksum that its
configuration names, read through callbacks of the configuration, or against the checksum embedded
in the module. `qudo_pqc_self_test` has no configuration. It goes by three globals, which
`qudo_pqc_init` writes in one of its branches only.

This is a model of one thread that calls the three functions in any order, while the world outside
(the file system, the image in memory) may change between the calls. It keeps what the integrity
check depends on; the outcome of the other self-tests is given with each call. A C string is the
list of its bytes before the terminating zero. Every run of this model is a run of the state machine
of `Lifecycle.Latch` (`run_refines_stateMachine`).

## The ghost

`initStep` records the source that the latest `qudo_pqc_init` to reach RUNNING has verified, with
the world it was verified in. When the on-demand self-test uses the same source is decided by
what has been called since the module was loaded.
-/

namespace QudoPqc

namespace Integrity

/-- The functions `io_open` (in mode `"rb"`), `io_read` and `io_close`. A file is read by calls of
`io_read` until one returns no more data: the chunks, and whether that was the end of the file. -/
structure IoFns (W H : Type) where
  ioOpen : Bytes → W → Option H × W
  ioRead : H → W → (List Bytes × Bool) × W
  ioClose : H → W → W

/-- The fields of `qudo_pqc_config_t` that the integrity check reads. -/
structure Config (W H : Type) where
  modulePath : Option Bytes
  moduleChecksumHex : Option Bytes
  ioOpen : Option (Bytes → W → Option H × W)
  ioRead : Option (H → W → (List Bytes × Bool) × W)
  ioClose : Option (H → W → W)

/-- The configuration `qudo_pqc_init` uses when it is given none. -/
def Config.default (W H : Type) : Config W H := ⟨none, none, none, none, none⟩

/-- HMAC-SHA-256 under the fixed key, the `default_io_*` functions, and the image of the module in
memory: `qudo_fips_integrity_hmac` and the region between `qudo_fips_module_start` and
`qudo_fips_module_end`. `embeddedHmac` is false if `QUDO_PQC_DISABLE_EMBEDDED_HMAC` is defined. -/
structure Platform (W H : Type) where
  hmac : Bytes → Bytes
  defaultIo : IoFns W H
  integrityHmac : W → Bytes
  region : W → Bytes
  embeddedHmac : Bool

/-- What happens in one call outside the integrity check: whether the known-answer test of HMAC
passes, what the self-test callback does to the computed digest, whether the other tests pass, and
whether the lock could be created, if it has to be. -/
structure Outcome where
  kat : Bool
  corrupt : Bytes → Bytes
  post : Bool
  lock : Bool

/-- The outcome in which everything passes and the callback changes nothing. -/
def Outcome.passing : Outcome := ⟨true, id, true, true⟩

variable {W H : Type} (P : Platform W H)

/-! ## The check -/

/-- A hexadecimal digit. -/
def hexDigit (c : UInt8) : Option UInt8 :=
  if 0x30 ≤ c ∧ c ≤ 0x39 then some (c - 0x30)
  else if 0x61 ≤ c ∧ c ≤ 0x66 then some (c - 0x61 + 10)
  else if 0x41 ≤ c ∧ c ≤ 0x46 then some (c - 0x41 + 10)
  else none

/-- `hex_to_bin`, with `bin` written so far. The empty result is the return of `0`. -/
def hexToBin (binLen : ℕ) : (hex bin : Bytes) → Bytes
  | [], bin => bin
  | [c], bin => if c = 0x3a then bin else []
  | c :: d :: hex, bin =>
    if c = 0x3a then hexToBin binLen (d :: hex) bin
    else
      match hexDigit c, hexDigit d with
      | some hi, some lo =>
        if bin.length ≥ binLen then [] else hexToBin binLen hex (bin ++ [hi <<< 4 ||| lo])
      | _, _ => []

/-- The callbacks in use: each one of the configuration, or the default. -/
def Config.io (config : Config W H) : IoFns W H where
  ioOpen := config.ioOpen.getD P.defaultIo.ioOpen
  ioRead := config.ioRead.getD P.defaultIo.ioRead
  ioClose := config.ioClose.getD P.defaultIo.ioClose

/-- The bytes of a file, if it can be opened and read to its end. -/
def readFile (io : IoFns W H) (path : Bytes) (w : W) : Option Bytes × W :=
  match io.ioOpen path w with
  | (none, w₁) => (none, w₁)
  | (some handle, w₁) =>
    let r := io.ioRead handle w₁
    (if r.1.2 then some r.1.1.flatten else none, io.ioClose handle r.2)

/-- `qudo_pqc_verify_integrity`. -/
def verifyIntegrity (config : Config W H) (o : Outcome) (w : W) : Bool × W :=
  if !o.kat then (false, w)
  else
    match config.modulePath, config.moduleChecksumHex with
    | some path, some hex =>
      if (hexToBin 32 hex []).length ≠ 32 then (false, w)
      else
        let r := readFile (config.io P) path w
        (r.1.any fun image ↦ o.corrupt (P.hmac image) = hexToBin 32 hex [], r.2)
    | _, _ => (false, w)

/-- The text `QUDO_FIPS_NOT_PATCHED___`. -/
def sentinel : Bytes :=
  [0x51, 0x55, 0x44, 0x4f, 0x5f, 0x46, 0x49, 0x50, 0x53, 0x5f, 0x4e, 0x4f, 0x54, 0x5f, 0x50, 0x41,
    0x54, 0x43, 0x48, 0x45, 0x44, 0x5f, 0x5f, 0x5f]

/-- `qudo_pqc_verify_integrity_embedded`. -/
def verifyIntegrityEmbedded (o : Outcome) (w : W) : ℤ :=
  if !o.kat then 0
  else if (P.integrityHmac w).take 24 = sentinel then -1
  else if (P.region w).length < 1024 then 0
  else if o.corrupt (P.hmac (P.region w)) = P.integrityHmac w then 1
  else 0

/-! ## The functions -/

/-- What is verified: a file, through callbacks, against a checksum; or the embedded checksum. -/
inductive Source (W H : Type) where
  | config (path hex : Bytes) (io : IoFns W H)
  | embedded

/-- The globals, the world outside, and the ghost. `lock` is `none` before the lock is created. -/
structure Globals (W H : Type) where
  state : ModuleState
  lock : Option Bool
  configSet : Bool
  storedModulePath : Bytes
  storedModuleMac : Bytes
  storedUsedCnf : Bool
  world : W
  initStep : Option (Source W H × W × Outcome)

/-- Just after the module is loaded. -/
def Globals.load (w : W) : Globals W H where
  state := .selftest
  lock := none
  configSet := false
  storedModulePath := []
  storedModuleMac := []
  storedUsedCnf := false
  world := w
  initStep := none

/-- The end of `qudo_pqc_run_self_tests` once the integrity of `src` has been verified. -/
def runPost (g : Globals W H) (o : Outcome) (src : Source W H) (w : W) : Bool × Globals W H :=
  if o.post then (true, { g with state := .running, initStep := some (src, w, o) })
  else (false, { g with state := .error })

/-- The copy of the configuration into the globals, if it fits. -/
def storeConfig (g : Globals W H) (path hex : Bytes) : Globals W H :=
  if path.length < 1024 ∧ hex.length < 256 then
    { g with storedModulePath := path, storedModuleMac := hex, storedUsedCnf := true }
  else g

/-- `qudo_pqc_run_self_tests`. -/
def runSelfTests (g : Globals W H) (config : Config W H) (o : Outcome) : Bool × Globals W H :=
  match config.modulePath, config.moduleChecksumHex with
  | some path, some hex =>
    let r := verifyIntegrity P config o g.world
    if !r.1 then (false, { g with state := .error, world := r.2 })
    else
      runPost (storeConfig { g with world := r.2 } path hex) o (.config path hex (config.io P))
        g.world
  | _, _ =>
    if P.embeddedHmac && decide (verifyIntegrityEmbedded P o g.world ≤ 0) then
      (false, { g with state := .error })
    else runPost g o .embedded g.world

/-- `qudo_pqc_init`. -/
def init (g : Globals W H) (config : Option (Config W H)) (o : Outcome) : Bool × Globals W H :=
  let g := { g with lock := some (g.lock.getD o.lock) }
  if g.lock ≠ some true then (false, g)
  else if g.state = .running then (true, g)
  else if g.state = .error then (false, g)
  else
    runSelfTests P { g with configSet := true, state := .selftest }
      (config.getD (Config.default W H)) o

/-- The integrity step of `qudo_pqc_self_test`. -/
def integrityStep (g : Globals W H) (o : Outcome) : Bool × W :=
  if g.storedUsedCnf then
    verifyIntegrity P ⟨some g.storedModulePath, some g.storedModuleMac, none, none, none⟩ o g.world
  else (!P.embeddedHmac || decide (0 < verifyIntegrityEmbedded P o g.world), g.world)

/-- Whether `qudo_pqc_self_test` gets as far as its integrity step. -/
def reachesIntegrityStep (g : Globals W H) : Bool :=
  g.configSet && decide (g.lock = some true) && decide (g.state = .running)

/-- `qudo_pqc_self_test`. -/
def selfTest (g : Globals W H) (o : Outcome) : Bool × Globals W H :=
  if !g.configSet || decide (g.lock ≠ some true) then (false, g)
  else if g.state ≠ .running then (decide (g.state ≠ .error), g)
  else
    let r := integrityStep P g o
    let ok := r.1 && o.post
    (ok, { g with world := r.2, state := if ok then .running else .error })

/-- `qudo_pqc_fini`. -/
def fini (g : Globals W H) : Globals W H :=
  { g with configSet := false, state := if g.state = .error then .error else .init }

/-- A call, or a change of the world between two calls. -/
inductive Event (W H : Type) where
  | init (config : Option (Config W H)) (o : Outcome)
  | selfTest (o : Outcome)
  | fini
  | outside (w : W)

def step (g : Globals W H) : Event W H → Globals W H
  | .init config o => (init P g config o).2
  | .selfTest o => (selfTest P g o).2
  | .fini => fini g
  | .outside w => { g with world := w }

def run (g : Globals W H) (es : List (Event W H)) : Globals W H := es.foldl (step P) g

/-! ## The state machine

The functions above are those of `Lifecycle.Init` as one thread sees them that calls them alone,
with the integrity check in place of a verdict. -/

section Machine

open Concurrent

/-- The variables of the state machine are as the globals say, and the lock is free. -/
structure Shows (s : Shared) (g : Globals W H) : Prop where
  state : s.state = g.state
  onceDone : s.onceDone = g.lock.isSome
  lockCreated : s.lockCreated = g.lock.getD false
  configSet : s.flag .configSet = g.configSet
  writer : s.writer = none
  readers : s.readers = 0

/-- What the oracle chooses in a call: whether the lock is created, and the verdict of the tests. -/
def answers (lock verdict : Bool) : Op → Oracle
  | .once => { bit := lock }
  | _ => { bit := verdict }

variable {s : Shared} {g : Globals W H}

theorem runSelfTests_spec (config : Config W H) (o : Outcome) :
    (runSelfTests P g config o).2.state = cond (runSelfTests P g config o).1 .running .error ∧
      (runSelfTests P g config o).2.lock = g.lock ∧
      (runSelfTests P g config o).2.configSet = g.configSet := by
  simp only [runSelfTests, runPost, storeConfig]
  repeat' split
  all_goals simp_all

/-- `qudo_pqc_init`, called alone, returns the verdict of the model and leaves its state. -/
theorem perform_init (h : Shows s g) (config : Option (Config W H)) (o : Outcome) :
    ∃ s', stateMachine.perform 0 (answers o.lock (init P g config o).1)
        (stateMachine.code (.init none)) s = some (some (init P g config o).1, s') ∧
      Shows s' (init P g config o).2 := by
  rw [init]
  dsimp only
  have htests := runSelfTests_spec P (g := { g with
    lock := some (g.lock.getD o.lock), configSet := true, state := .selftest })
      (config.getD (Config.default W H)) o
  generalize runSelfTests P _ _ o = r at htests ⊢
  obtain ⟨_, _, _, _, _, flag, _, _⟩ := s
  obtain ⟨rfl, rfl, rfl, hset, rfl, rfl⟩ := h
  obtain ⟨state, lock, _, _, _, _, _, _⟩ := g
  obtain ⟨_, _, _, l⟩ := o
  obtain ⟨verdict, ⟨_, _, _, _, _, _, _, _⟩⟩ := r
  dsimp only at *
  subst hset
  obtain ⟨rfl, rfl, rfl⟩ := htests
  -- with the lock, the state and the verdict given, both sides compute
  rcases lock with _ | ⟨_ | _⟩ <;> cases l <;> cases state <;> cases verdict
  all_goals exact ⟨_, rfl, rfl, rfl, rfl, rfl, rfl, rfl⟩

theorem perform_selfTest (h : Shows s g) (o : Outcome) :
    ∃ s', stateMachine.perform 0 (answers o.lock (selfTest P g o).1)
        (stateMachine.code .selfTest) s = some (some (selfTest P g o).1, s') ∧
      Shows s' (selfTest P g o).2 := by
  rw [selfTest]
  generalize integrityStep P g o = r
  obtain ⟨_, _, _, _, _, flag, _, _⟩ := s
  obtain ⟨rfl, rfl, rfl, hset, rfl, rfl⟩ := h
  obtain ⟨state, lock, c, _, _, _, _, _⟩ := g
  obtain ⟨verdict, w⟩ := r
  obtain ⟨_, _, post, l⟩ := o
  dsimp only at *
  -- the flag that is branched on, as a value of its own
  rw [← Function.update_eq_self Flag.configSet flag, hset]
  cases c <;> rcases lock with _ | ⟨_ | _⟩ <;> cases state <;> cases verdict <;> cases post
  all_goals exact ⟨_, rfl, rfl, rfl, rfl, rfl, rfl, rfl⟩

theorem perform_fini (h : Shows s g) (w : Op → Oracle) :
    ∃ s', stateMachine.perform 0 w (stateMachine.code .fini) s = some (none, s') ∧
      Shows s' (fini g) := by
  obtain ⟨_, _, _, _, _, flag, _, _⟩ := s
  obtain ⟨rfl, rfl, rfl, hset, rfl, rfl⟩ := h
  obtain ⟨state, lock, _, _, _, _, _, _⟩ := g
  rw [← Function.update_eq_self Flag.fipsRandReady flag]
  rcases lock with _ | ⟨_ | _⟩ <;> cases state <;> cases flag .fipsRandReady
  all_goals exact ⟨_, rfl, rfl, rfl, rfl, rfl, rfl, rfl⟩

/-- What a call returns. -/
def verdict (g : Globals W H) : Event W H → Option Bool
  | .init config o => some (init P g config o).1
  | .selfTest o => some (selfTest P g o).1
  | _ => none

/-- What the calls of a run return. -/
def verdicts (g : Globals W H) : List (Event W H) → List Bool
  | [] => []
  | e :: es => (verdict P g e).toList ++ verdicts (step P g e) es

theorem stretch_step {c : stateMachine.Conf} (hc : c.threads = fun _ ↦ none)
    (h : Shows c.shared g) (e : Event W H) :
    ∃ ms c' given, stateMachine.Stretch (fun _ a ↦ a) (fun _ ↦ ([] : List Unit)) 0 c ms c'
        (verdict P g e).toList given ∧
      Shows c'.shared (step P g e) ∧ c'.threads = fun _ ↦ none := by
  cases e with
  | init config o => exact Machine.stretch_of_perform hc (perform_init P h config o)
  | selfTest o => exact Machine.stretch_of_perform hc (perform_selfTest P h o)
  | fini => exact Machine.stretch_of_perform hc (perform_fini h fun _ ↦ { })
  | outside w => exact ⟨[], c, [], .nil 0 c, { h with }, hc⟩

theorem stretch_run (es : List (Event W H)) {c : stateMachine.Conf}
    (hc : c.threads = fun _ ↦ none) (h : Shows c.shared g) :
    ∃ ms c' given, stateMachine.Stretch (fun _ a ↦ a) (fun _ ↦ ([] : List Unit)) 0 c ms c'
        (verdicts P g es) given ∧ Shows c'.shared (run P g es) := by
  induction es generalizing g c with
  | nil => exact ⟨[], c, [], .nil 0 c, h⟩
  | cons e es ih =>
    obtain ⟨ms, c₁, given, hms, h₁, hc₁⟩ := stretch_step P hc h e
    obtain ⟨ms', c', given', hms', hend⟩ := ih hc₁ h₁
    exact ⟨_, c', _, hms.trans hms', hend⟩

/-- Every run is one of the state machine, with the same states and the same results. -/
theorem run_refines_stateMachine (w : W) (es : List (Event W H)) :
    ∃ ms c, stateMachine.run stateMachine.loaded ms = some c ∧
      stateMachine.observed (fun _ a ↦ a) 0 stateMachine.loaded ms =
        verdicts P (Globals.load w) es ∧
      Shows c.shared (run P (Globals.load w) es) := by
  obtain ⟨ms, c, _, hms, hshows⟩ := stretch_run P es (c := stateMachine.loaded)
    (g := Globals.load w) rfl ⟨rfl, rfl, rfl, rfl, rfl, rfl⟩
  exact ⟨ms, c, hms.run, hms.observed, hshows⟩

end Machine

/-! ## Sources -/

variable {o : Outcome} {w : W} {g : Globals W H}

/-- The integrity check of a source. -/
def check (o : Outcome) (w : W) : Source W H → Bool × W
  | .config path hex io =>
    verifyIntegrity P ⟨some path, some hex, some io.ioOpen, some io.ioRead, some io.ioClose⟩ o w
  | .embedded => (!P.embeddedHmac || decide (0 < verifyIntegrityEmbedded P o w), w)

/-- The source that the globals tell the on-demand self-test to use. -/
def selfTestSource (g : Globals W H) : Source W H :=
  if g.storedUsedCnf then .config g.storedModulePath g.storedModuleMac P.defaultIo else .embedded

theorem integrityStep_eq_check (g : Globals W H) (o : Outcome) :
    integrityStep P g o = check P o g.world (selfTestSource P g) := by
  rw [integrityStep, selfTestSource]
  split <;> rfl

theorem verifyIntegrity_eq_check {config : Config W H} {path hex : Bytes}
    (hpath : config.modulePath = some path) (hhex : config.moduleChecksumHex = some hex)
    (o : Outcome) (w : W) :
    verifyIntegrity P config o w = check P o w (.config path hex (config.io P)) := by
  simp only [verifyIntegrity, check, hpath, hhex]
  rfl

theorem check_config {path hex : Bytes} {io : IoFns W H} :
    (check P o w (.config path hex io)).1 = true ↔
      o.kat = true ∧ (hexToBin 32 hex []).length = 32 ∧
        ∃ image, (readFile io path w).1 = some image ∧
          o.corrupt (P.hmac image) = hexToBin 32 hex [] := by
  have hio : Config.io P ⟨some path, some hex, some io.ioOpen, some io.ioRead, some io.ioClose⟩ =
    io := rfl
  rw [check, verifyIntegrity, hio]
  cases o.kat with
  | false => simp
  | true =>
    by_cases hlen : (hexToBin 32 hex []).length = 32
    · simp [hlen, Option.any_eq_true]
    · simp [hlen]

theorem check_embedded :
    (check P o w (.embedded : Source W H)).1 = true ↔
      P.embeddedHmac = true → o.kat = true ∧ (P.integrityHmac w).take 24 ≠ sentinel ∧
        1024 ≤ (P.region w).length ∧ o.corrupt (P.hmac (P.region w)) = P.integrityHmac w := by
  rw [check, verifyIntegrityEmbedded]
  cases P.embeddedHmac with
  | false => simp
  | true =>
    cases o.kat with
    | false => simp
    | true =>
      simp only [Bool.not_true, Bool.false_or, Bool.false_eq_true, if_false, true_and, forall_const]
      split_ifs with hsentinel hlen heq
      · simp [hsentinel]
      · simp [Nat.not_le.mpr hlen]
      · simp [hsentinel, heq, Nat.le_of_not_lt hlen]
      · simp [heq]

/-- The source has the same image in both worlds. -/
def SameImage (w w' : W) : Source W H → Prop
  | .config path _ io => (readFile io path w).1 = (readFile io path w').1
  | .embedded => P.region w = P.region w' ∧ P.integrityHmac w = P.integrityHmac w'

/-- A source that was verified is verified again as long as its image is the same, if the
known-answer test passes and the callback leaves the digest alone. -/
theorem check_of_sameImage {src : Source W H} {o' : Outcome} {w' : W}
    (h : (check P o w src).1 = true) (himage : SameImage P w w' src)
    (hcorrupt : o.corrupt = id) (hcorrupt' : o'.corrupt = id) (hkat' : o'.kat = true) :
    (check P o' w' src).1 = true := by
  cases src with
  | config path hex io =>
    obtain ⟨-, hlen, image, hread, hdigest⟩ := (check_config P).mp h
    have hread' : (readFile io path w').1 = some image := Eq.trans (Eq.symm himage) hread
    rw [hcorrupt] at hdigest
    exact (check_config P).mpr ⟨hkat', hlen, image, hread', by rw [hcorrupt', hdigest]⟩
  | embedded =>
    obtain ⟨hregion, hhmac⟩ := himage
    rw [check_embedded, hregion, hhmac, hcorrupt] at h
    rw [check_embedded, hcorrupt']
    intro henabled
    exact ⟨hkat', (h henabled).2⟩

/-! ## Runs in which the source is remembered -/

theorem run_append_singleton (g : Globals W H) (es : List (Event W H)) (e : Event W H) :
    run P g (es ++ [e]) = step P (run P g es) e := by
  rw [run, List.foldl_append, run]
  rfl

/-- `qudo_pqc_init` gets as far as the self-tests. -/
def initRuns (g : Globals W H) (o : Outcome) : Prop :=
  g.lock.getD o.lock = true ∧ g.state ≠ .running ∧ g.state ≠ .error

/-- The globals can tell the source of an init call afterwards: a file whose name and checksum fit
and that is read through the default functions, or the embedded checksum if no file has been
remembered before. -/
def CanTell (g : Globals W H) (config : Config W H) : Prop :=
  match config.modulePath, config.moduleChecksumHex with
  | some path, some hex =>
    path.length < 1024 ∧ hex.length < 256 ∧ config.io P = P.defaultIo
  | _, _ => g.storedUsedCnf = false

/-- Every init call of the run that gets as far as the self-tests can be told by the globals. -/
def Remembered (g : Globals W H) : List (Event W H) → Prop
  | [] => True
  | .init config o :: es =>
    (initRuns g o → CanTell P g (config.getD (Config.default W H))) ∧
      Remembered (step P g (.init config o)) es
  | e :: es => Remembered (step P g e) es

/-- The globals name the source that was verified when the module became RUNNING. -/
def Told (g : Globals W H) : Prop :=
  g.state = .running → ∃ w o, g.initStep = some (selfTestSource P g, w, o) ∧
    (check P o w (selfTestSource P g)).1 = true

theorem told_runPost {src : Source W H}
    (hsrc : selfTestSource P g = src) (hpass : (check P o w src).1 = true) :
    Told P (runPost g o src w).2 := by
  subst hsrc
  rw [runPost]
  split
  · exact fun _ ↦ ⟨w, o, rfl, hpass⟩
  · exact nofun

theorem told_runSelfTests {config : Config W H}
    (htell : CanTell P g config) : Told P (runSelfTests P g config o).2 := by
  rw [runSelfTests]
  rw [CanTell] at htell
  split
  next path hex hpath hhex =>
    rw [hpath, hhex] at htell
    obtain ⟨hpathlen, hhexlen, hio⟩ := htell
    dsimp only
    split
    · exact nofun
    next hpass =>
      rw [Bool.not_eq_true, Bool.not_eq_false', verifyIntegrity_eq_check P hpath hhex] at hpass
      refine told_runPost P ?_ hpass
      rw [storeConfig, if_pos ⟨hpathlen, hhexlen⟩, hio]
      rfl
  next hnone =>
    have hstored : g.storedUsedCnf = false := by
      split at htell
      next path hex hpath hhex => exact absurd hhex (hnone path hex hpath)
      next => exact htell
    split
    · exact nofun
    next hpass =>
      refine told_runPost P ?_ ?_
      · rw [selfTestSource, hstored]
        rfl
      · rw [check, Bool.or_eq_true, Bool.not_eq_true', decide_eq_true_iff]
        rw [Bool.and_eq_true, decide_eq_true_iff, not_and, Int.not_le] at hpass
        cases henabled : P.embeddedHmac with
        | false => exact .inl rfl
        | true => exact .inr (hpass henabled)

theorem told_init {config : Option (Config W H)} (h : Told P g)
    (htell : initRuns g o → CanTell P g (config.getD (Config.default W H))) :
    Told P (init P g config o).2 := by
  rw [init]
  dsimp only
  split_ifs with hlock hrunning herror
  · exact h
  · exact h
  · exact h
  · refine told_runSelfTests P (htell ⟨?_, hrunning, herror⟩)
    rwa [not_not, Option.some.injEq] at hlock

theorem told_step (h : Told P g) (e : Event W H)
    (htell : ∀ config o, e = .init config o → initRuns g o →
      CanTell P g (config.getD (Config.default W H))) : Told P (step P g e) := by
  cases e with
  | init config o => exact told_init P h (htell config o rfl)
  | selfTest o =>
    rw [step, selfTest]
    split_ifs with hset hrunning
    · exact h
    · exact h
    · exact fun _ ↦ h (not_not.mp hrunning)
  | fini =>
    rw [step, fini]
    intro hrunning
    dsimp only at hrunning
    split at hrunning <;> cases hrunning
  | outside w => exact h

theorem told_run (es : List (Event W H)) :
    ∀ {g : Globals W H}, Told P g → Remembered P g es → Told P (run P g es) := by
  induction es with
  | nil =>
    intro g h _
    exact h
  | cons e es ih =>
    intro g h hes
    cases e with
    | init config o =>
      refine ih (told_step P h _ ?_) hes.2
      rintro config' o' heq
      cases heq
      exact hes.1
    | selfTest o => exact ih (told_step P h _ nofun) hes
    | fini => exact ih (told_step P h _ nofun) hes
    | outside w => exact ih (told_step P h _ nofun) hes

/-- **The on-demand check.** In every run in which the globals can tell the source of each init
call, the integrity step of an on-demand self-test verifies the source with which the module became
RUNNING, and passes if its image is still the same. -/
theorem self_test_verifies_init_source (w : W) (es : List (Event W H))
    (hes : Remembered P (Globals.load w) es)
    (hstep : reachesIntegrityStep (run P (Globals.load w) es) = true) :
    ∃ src w₀ o₀, (run P (Globals.load w) es).initStep = some (src, w₀, o₀) ∧
      selfTestSource P (run P (Globals.load w) es) = src ∧
      (∀ o, integrityStep P (run P (Globals.load w) es) o =
        check P o (run P (Globals.load w) es).world src) ∧
      ∀ o : Outcome, o₀.corrupt = id → o.corrupt = id → o.kat = true →
        SameImage P w₀ (run P (Globals.load w) es).world src →
        (integrityStep P (run P (Globals.load w) es) o).1 = true := by
  have htold := told_run P es (g := Globals.load w) nofun hes
  generalize run P (Globals.load w) es = g at *
  simp only [reachesIntegrityStep, Bool.and_eq_true, decide_eq_true_iff] at hstep
  obtain ⟨w₀, o₀, hinit, hpass⟩ := htold hstep.2
  refine ⟨selfTestSource P g, w₀, o₀, hinit, rfl, integrityStep_eq_check P g, ?_⟩
  intro o hcorrupt₀ hcorrupt hkat himage
  rw [integrityStep_eq_check]
  exact check_of_sameImage P hpass himage hcorrupt₀ hcorrupt hkat

/-- A world that is one file, there or not. Every digest is zero. -/
def oneFile : Platform Bool Unit where
  hmac _ := List.replicate 32 0
  defaultIo :=
    { ioOpen := fun _ there ↦ (if there then some () else none, there)
      ioRead := fun _ there ↦ (([[1]], true), there)
      ioClose := fun _ there ↦ there }
  integrityHmac _ := List.replicate 32 0
  region _ := List.replicate 1024 0
  embeddedHmac := true

/-- The configuration that names the file and its digest. -/
def fileConfig : Config Bool Unit :=
  ⟨some [0x66], some (List.replicate 64 0x30), none, none, none⟩

/-- After init with the file, a passing self-test and a second one. -/
theorem self_test_verifies_init_source_file :
    (integrityStep oneFile (run oneFile (Globals.load true)
      [.init (some fileConfig) .passing, .selfTest .passing]) .passing).1 = true := by
  have hes : Remembered oneFile (Globals.load true)
      [.init (some fileConfig) .passing, .selfTest .passing] :=
    ⟨fun _ ↦ ⟨by decide, by decide, rfl⟩, trivial⟩
  obtain ⟨src, w₀, o₀, hinit, hsrc, -, hpass⟩ :=
    self_test_verifies_init_source oneFile true _ hes (by decide +kernel)
  cases hinit
  exact hpass .passing rfl rfl rfl rfl

/-- Init with the file, teardown, and the removal of the file. -/
def firstInit : List (Event Bool Unit) :=
  [.init (some fileConfig) .passing, .fini, .outside false]

/-- After that, init with the embedded checksum. -/
def secondInit : List (Event Bool Unit) := firstInit ++ [.init none .passing]

/-- An init without configuration that reaches RUNNING has verified the embedded checksum. -/
theorem initStep_init_none (hlock : g.lock = some true)
    (hstate : g.state = .init) (hembedded : 0 < verifyIntegrityEmbedded P o g.world)
    (hpost : o.post = true) : (init P g none o).2.initStep = some (.embedded, g.world, o) := by
  have hfail : ¬ (P.embeddedHmac && decide (verifyIntegrityEmbedded P o g.world ≤ 0)) = true := by
    rw [Bool.and_eq_true, decide_eq_true_iff, not_and, Int.not_le]
    exact fun _ ↦ hembedded
  simp only [init, hlock, hstate, Option.getD_some, Option.getD_none, Config.default, runSelfTests]
  rw [if_neg (by decide), if_neg (by decide), if_neg (by decide), if_neg hfail, runPost,
    if_pos hpost]

/-- `qudo_pqc_fini` does not forget the file: after the second init the on-demand self-test still
verifies the file, and fails as it is gone, although the embedded image is what it was. -/
theorem self_test_verifies_stale_source :
    reachesIntegrityStep (run oneFile (Globals.load true) secondInit) = true ∧
      (∃ w₀, (run oneFile (Globals.load true) secondInit).initStep =
          some (.embedded, w₀, .passing) ∧
        SameImage oneFile w₀ (run oneFile (Globals.load true) secondInit).world .embedded) ∧
      selfTestSource oneFile (run oneFile (Globals.load true) secondInit) ≠ .embedded ∧
      (integrityStep oneFile (run oneFile (Globals.load true) secondInit) .passing).1 = false := by
  have hstored : (run oneFile (Globals.load true) secondInit).storedUsedCnf = true := by
    decide +kernel
  refine ⟨by decide +kernel, ⟨(run oneFile (Globals.load true) firstInit).world, ?_, rfl, rfl⟩, ?_,
    by decide +kernel⟩
  · rw [secondInit, run_append_singleton, step]
    exact initStep_init_none oneFile (by decide +kernel) (by decide +kernel) (by decide +kernel) rfl
  · rw [selfTestSource, if_pos hstored]
    exact nofun

end Integrity

end QudoPqc
