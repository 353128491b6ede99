import QudoPqc.Aes.TTable
import QudoPqc.Aes.NewInstructions
import QudoPqc.Random.CtrDrbg

/-!
# The dispatcher

`qudo_aes_set_encrypt_key` and `qudo_aes_encrypt` choose a back end once, by what the processor
offers, and keep the choice in `g_aes_dispatch`. Each of the back ends computes AES with the
schedule it stored itself. The two kinds of schedule differ in the order of the bytes of a word, so
it matters that a choice made once stays.

The last section puts the dispatcher in the place of the AES layer that the CTR-DRBG is
verified over.
-/

namespace Aes

open Fips197

/-! ## The back ends -/

/-- `set_encrypt_key` followed by `encrypt`: the result of the first and the output of the second.
-/
def setThenEncrypt
    (setEncryptKey : Option (ℕ → Byte) → ℤ → Option AesKey → ℤ × Option AesKey)
    (encrypt : (ℕ → Byte) → AesKey → List Byte) (size : KeySize) (userKey block : ℕ → Byte)
    (key : AesKey) : ℤ × Option (List Byte) :=
  let (ret, key) := setEncryptKey (some userKey) size.bits (some key)
  (ret, key.map (encrypt block))

section BackEnds

variable (size : KeySize) (userKey block : ℕ → Byte) (key : AesKey)

theorem ct_setThenEncrypt : setThenEncrypt ctSetEncryptKey ctEncrypt size userKey block key =
    (0, some (aes size userKey block)) := by
  rw [setThenEncrypt, ctSetEncryptKey, setEncryptKey_eq ctOps_correct]
  dsimp only
  rw [Option.map_some, ctEncrypt_scheduled]

theorem tt_setThenEncrypt : setThenEncrypt ttSetEncryptKey ttEncrypt size userKey block key =
    (0, some (aes size userKey block)) := by
  rw [setThenEncrypt, ttSetEncryptKey, setEncryptKey_eq ttOps_correct]
  dsimp only
  rw [Option.map_some, ttEncrypt_scheduled]

theorem ni_setThenEncrypt : setThenEncrypt niSetEncryptKey niEncrypt size userKey block key =
    (0, some (aes size userKey block)) := by
  rw [setThenEncrypt, niSetEncryptKey_eq]
  dsimp only
  rw [Option.map_some, niEncrypt_scheduled]

end BackEnds

/-- A memory with the first `n` bytes of `key` and other bytes after them. -/
def followedBy (n : ℕ) (key extra : ℕ → Byte) : ℕ → Byte := fun i ↦ if i < n then key i else extra i

/-- What the schedule with the instructions leaves in memory does not depend on what follows the
key, although it is read. -/
theorem niSetEncryptKey_followedBy (size : KeySize) (userKey extra extra' : ℕ → Byte)
    (key : AesKey) :
    niSetEncryptKey (some (followedBy (4 * size.nk) userKey extra)) size.bits (some key) =
      niSetEncryptKey (some (followedBy (4 * size.nk) userKey extra')) size.bits (some key) := by
  have hword : word size (followedBy (4 * size.nk) userKey extra) =
      word size (followedBy (4 * size.nk) userKey extra') := by
    funext i
    refine word_congr size (fun j hj ↦ ?_) i
    rw [followedBy, followedBy, if_pos hj, if_pos hj]
  rw [niSetEncryptKey_eq, niSetEncryptKey_eq, niScheduled, niScheduled, hword]

/-! ## The dispatcher -/

/-- What `qudo_aes_init_dispatch` finds: `QUDO_AES_HAS_NI_COMPILE`, and `qudo_detect_aesni`. -/
structure Processor where
  hasNiCompile : Bool
  detectAesni : Bool

/-- `qudo_aes_init_dispatch`: the new value of `g_aes_dispatch`. -/
def initDispatch (p : Processor) (g : ℤ) : ℤ :=
  if g ≠ 0 then g else if p.hasNiCompile && p.detectAesni then 1 else 2

/-- The context after `memset(ctx, 0, sizeof(*ctx))`. -/
def AesKey.zero : AesKey := ⟨fun _ ↦ 0, 0⟩

/-- `qudo_aes_set_encrypt_key`, with the new value of `g_aes_dispatch`. -/
def aesSetEncryptKey (p : Processor) (g : ℤ) (key : Option (ℕ → Byte)) (bits : ℤ)
    (ctx : Option AesKey) : (ℤ × Option AesKey) × ℤ :=
  match key, ctx with
  | some key, some ctx =>
    if bits ≠ 128 ∧ bits ≠ 192 ∧ bits ≠ 256 then ((-2, some ctx), g)
    else
      let g := initDispatch p g
      if p.hasNiCompile && g == 1 then (niSetEncryptKey (some key) bits (some .zero), g)
      else (ctSetEncryptKey (some key) bits (some .zero), g)
  | _, _ => ((-1, ctx), g)

/-- `qudo_aes_encrypt`, with the new value of `g_aes_dispatch`. -/
def aesEncrypt (p : Processor) (g : ℤ) (input : ℕ → Byte) (key : AesKey) : List Byte × ℤ :=
  let g := initDispatch p g
  if p.hasNiCompile && g == 1 then (niEncrypt input key, g) else (ctEncrypt input key, g)

/-- A choice once made is kept. -/
theorem initDispatch_idem (p : Processor) (g : ℤ) :
    initDispatch p (initDispatch p g) = initDispatch p g := by
  have hne : initDispatch p g ≠ 0 := by
    rw [initDispatch]
    split
    case isTrue h => exact h
    case isFalse => split <;> decide
  rw [initDispatch, if_pos hne]

/-- The two calls of the dispatcher, `g_aes_dispatch` being `g` before the first. -/
def dispatched (p : Processor) (g : ℤ) (size : KeySize) (userKey block : ℕ → Byte) (ctx : AesKey) :
    ℤ × Option (List Byte) :=
  let ((ret, ctx), g) := aesSetEncryptKey p g (some userKey) size.bits (some ctx)
  (ret, ctx.map fun key ↦ (aesEncrypt p g block key).1)

/-- The dispatcher stores a schedule of the back end it chooses, and encrypts with this back end. -/
theorem aesSetEncryptKey_schedule (p : Processor) (g : ℤ) (size : KeySize) (userKey : ℕ → Byte)
    (ctx : AesKey) : ∃ key, aesSetEncryptKey p g (some userKey) size.bits (some ctx) =
        ((0, some key), initDispatch p g) ∧
      ∀ block, (aesEncrypt p (initDispatch p g) block key).1 = aes size userKey block := by
  have hbits : ¬((size.bits : ℤ) ≠ 128 ∧ (size.bits : ℤ) ≠ 192 ∧ (size.bits : ℤ) ≠ 256) := by
    cases size <;> decide
  by_cases h : (p.hasNiCompile && initDispatch p g == 1) = true
  · refine ⟨⟨niScheduled userKey AesKey.zero.rdKey size (4 * (size.nr + 1)), size.nr⟩, ?_, ?_⟩
    · rw [aesSetEncryptKey, if_neg hbits]
      dsimp only
      rw [if_pos h, niSetEncryptKey_eq]
    · intro block
      rw [aesEncrypt, initDispatch_idem, if_pos h, niEncrypt_scheduled]
  · refine ⟨⟨scheduled userKey AesKey.zero.rdKey size (4 * (size.nr + 1)), size.nr⟩, ?_, ?_⟩
    · rw [aesSetEncryptKey, if_neg hbits]
      dsimp only
      rw [if_neg h, ctSetEncryptKey, setEncryptKey_eq ctOps_correct]
    · intro block
      rw [aesEncrypt, initDispatch_idem, if_neg h, ctEncrypt_scheduled]

theorem dispatched_aes (p : Processor) (g : ℤ) (size : KeySize) (userKey block : ℕ → Byte)
    (ctx : AesKey) :
    dispatched p g size userKey block ctx = (0, some (aes size userKey block)) := by
  obtain ⟨key, hset, hencrypt⟩ := aesSetEncryptKey_schedule p g size userKey ctx
  rw [dispatched, hset]
  dsimp only
  rw [Option.map_some, hencrypt]

/-- All the back ends compute AES; the schedule with the instructions does not depend on the
bytes after the key, and the dispatcher not on the back end it chooses. -/
theorem aes_back_ends (size : KeySize) (userKey block : ℕ → Byte) (key : AesKey) :
    setThenEncrypt ctSetEncryptKey ctEncrypt size userKey block key =
        (0, some (aes size userKey block)) ∧
      setThenEncrypt ttSetEncryptKey ttEncrypt size userKey block key =
        (0, some (aes size userKey block)) ∧
      setThenEncrypt niSetEncryptKey niEncrypt size userKey block key =
        (0, some (aes size userKey block)) ∧
      (∀ extra extra' : ℕ → Byte,
        niSetEncryptKey (some (followedBy 24 userKey extra)) 192 (some key) =
          niSetEncryptKey (some (followedBy 24 userKey extra')) 192 (some key)) ∧
      ∀ (p p' : Processor) (g g' : ℤ),
        dispatched p g size userKey block key = (0, some (aes size userKey block)) ∧
          dispatched p g size userKey block key = dispatched p' g' size userKey block key :=
  ⟨ct_setThenEncrypt size userKey block key, tt_setThenEncrypt size userKey block key,
    ni_setThenEncrypt size userKey block key,
    fun extra extra' ↦ niSetEncryptKey_followedBy .aes192 userKey extra extra' key,
    fun p p' g g' ↦ ⟨dispatched_aes p g size userKey block key,
      (dispatched_aes p g size userKey block key).trans
        (dispatched_aes p' g' size userKey block key).symm⟩⟩

/-! ## The AES layer of the generator -/

/-- The memory at a buffer. -/
def memoryOf (bytes : Bytes) : ℕ → Byte := fun i ↦ (bytes.getD i 0).toBitVec

/-- The key size a number of bytes stands for. -/
def KeySize.ofLength : ℕ → Option KeySize
  | 16 => some aes128
  | 24 => some aes192
  | 32 => some aes256
  | _ => none

/-- AES on buffers, and zeros for a key of another length. -/
def aesOf (key block : Bytes) : Bytes :=
  match KeySize.ofLength key.length with
  | some size => (aes size (memoryOf key) (memoryOf block)).map UInt8.ofBitVec
  | none => List.replicate 16 0

theorem length_aesOf (key block : Bytes) : (aesOf key block).length = 16 := by
  rw [aesOf]
  split
  · rw [List.length_map]
    rfl
  · exact List.length_replicate

/-- A buffer cut after the key is the same key. -/
theorem aes_take (size : KeySize) (key : Bytes) (block : ℕ → Byte) :
    aes size (memoryOf (key.take (4 * size.nk))) block =
      aes size (memoryOf key) block := by
  have hword : word size (memoryOf (key.take (4 * size.nk))) =
      word size (memoryOf key) := by
    funext i
    refine word_congr size (fun j hj ↦ ?_) i
    rw [memoryOf, memoryOf, List.getD_eq_getElem?_getD, List.getD_eq_getElem?_getD,
      List.getElem?_take_of_lt hj]
  have hrk : roundKey size (memoryOf (key.take (4 * size.nk))) =
      roundKey size (memoryOf key) := by
    funext r
    rw [roundKey, roundKey, hword]
  rw [aes, aes, hrk]

/-- A schedule: a context, or the buffer of a key that is too short, which the code would read past
its end. -/
abbrev Schedule := AesKey ⊕ Bytes

section Layer

variable (p : Processor) (g : ℤ)

/-- `qudo_aes_set_encrypt_key` on a buffer. -/
def scheduleOf (key : Bytes) (bits : ℕ) : Schedule :=
  if key.length < bits / 8 then .inr key
  else
    match (aesSetEncryptKey p g (some (memoryOf key)) bits (some .zero)).1.2 with
    | some ctx => .inl ctx
    | none => .inr key

/-- `qudo_aes_encrypt` on a buffer, after the schedule has been set. -/
def encryptBlock (block : Bytes) : Schedule → Bytes
  | .inl ctx => (aesEncrypt p (initDispatch p g) (memoryOf block) ctx).1.map UInt8.ofBitVec
  | .inr key => aesOf key block

theorem encryptBlock_scheduleOf (size : KeySize) (key block : Bytes) :
    encryptBlock p g block (scheduleOf p g key size.bits) =
      aesOf (key.take (size.bits / 8)) block := by
  have hbytes : size.bits / 8 = 4 * size.nk := by
    cases size <;> rfl
  have hlength : KeySize.ofLength (4 * size.nk) = some size := by
    cases size <;> rfl
  by_cases hshort : key.length < size.bits / 8
  · rw [scheduleOf, if_pos hshort, List.take_of_length_le (Nat.le_of_lt hshort), encryptBlock]
  · obtain ⟨ctx, hset, hencrypt⟩ := aesSetEncryptKey_schedule p g size (memoryOf key) .zero
    have htake : (key.take (4 * size.nk)).length = 4 * size.nk := by
      rw [List.length_take]
      omega
    rw [scheduleOf, if_neg hshort, hset, hbytes, aesOf, htake, hlength]
    dsimp only
    rw [encryptBlock, hencrypt, aes_take]

/-- The dispatcher as the AES layer of the CTR-DRBG, for a processor and a first value of
`g_aes_dispatch`. -/
def aesLayer : Random.AesLayer where
  Schedule := Schedule
  cleared := .inl .zero
  setEncryptKey := scheduleOf p g
  encrypt := encryptBlock p g
  aes := aesOf
  length_aes := length_aesOf
  encrypt_eq key bits block hbits := by
    rcases hbits with rfl | rfl | rfl
    · exact encryptBlock_scheduleOf p g .aes128 key block
    · exact encryptBlock_scheduleOf p g .aes192 key block
    · exact encryptBlock_scheduleOf p g .aes256 key block

end Layer

/-- The layer on a processor with AES instructions. -/
def niLayer : Random.AesLayer := aesLayer ⟨true, true⟩ 0

end Aes

namespace Random

/-- The generator with the dispatcher below it: one instantiation and 20 bytes. -/
theorem ctrdrbg_implements_sp800_90a_run :
    (Ctx.zero Aes.niLayer).initialized = false ∧
      (execAll (Ctx.zero Aes.niLayer) [.init 16 (some (List.replicate 32 1)),
        .generate true 20 none]).1 =
      (Sp80090a.stepAll Aes.niLayer none
        [.init 16 (some (List.replicate 32 1)), .generate true 20 none]).1 :=
  ⟨rfl, (ctrdrbg_implements_sp800_90a (Ctx.zero Aes.niLayer) rfl _).1⟩

end Random
