import QudoPqc.Codec.Packing

/-!
# The CTR-DRBG

`qudo_fips_ctrdrbg.c` against CTR_DRBG of SP 800-90A without derivation function, for AES with keys
of 16, 24 and 32 bytes.

The specification (`Sp80090a`) increments `V` before each block it encrypts, in Update as in
Generate. The code increments `V` once before it calls `ctr_update`, collects the two or three
counter values in an array and encrypts them with a key schedule that it keeps in the context. The
two are related by `Matches`: the context holds `Key` and `V`, and the schedule is that of `Key`.
-/

namespace Random

open Codec

/-- The AES layer. A key schedule is opaque, `cleared` when its bytes are zero; encrypting with the
schedule of a key is AES. -/
structure AesLayer where
  Schedule : Type
  cleared : Schedule
  setEncryptKey : (key : Bytes) → (bits : ℕ) → Schedule
  encrypt : Bytes → Schedule → Bytes
  aes : (key block : Bytes) → Bytes
  length_aes : ∀ key block, (aes key block).length = 16
  encrypt_eq : ∀ key bits block, bits = 128 ∨ bits = 192 ∨ bits = 256 →
    encrypt block (setEncryptKey key bits) = aes (key.take (bits / 8)) block

/-! ## SP 800-90A -/

namespace Sp80090a

/-- `(V + 1) mod 2 ^ 128`, of a big-endian block. -/
def increment (V : Bytes) : Bytes :=
  (storeLe 16 ((loadLe V.reverse + 1) % 2 ^ 128)).reverse

/-- The working state of an instantiated generator. -/
structure Working where
  keylen : ℕ
  Key : Bytes
  V : Bytes

variable (A : AesLayer)

/-- `n` rounds of the loop `V := V + 1; temp := temp ‖ Block_Encrypt(Key, V)`: what they append to
`temp`, and the last `V`. -/
def rounds (Key : Bytes) : ℕ → Bytes → Bytes × Bytes
  | 0, V => ([], V)
  | n + 1, V =>
    let r := rounds Key n (increment V)
    (A.aes Key (increment V) ++ r.1, r.2)

/-- The rounds until `temp` has `len` bytes. -/
def blocksFor (len : ℕ) : ℕ := (len + 15) / 16

/-- CTR_DRBG_Update; `providedData` has `keylen + 16` bytes. -/
def update (providedData : Bytes) (w : Working) : Working :=
  let seedlen := w.keylen + 16
  let temp := ((rounds A w.Key (blocksFor seedlen) w.V).1.take seedlen)
  let temp := List.zipWith (· ^^^ ·) temp providedData
  { w with Key := temp.take w.keylen, V := temp.drop w.keylen }

/-- CTR_DRBG_Instantiate without derivation function. -/
def instantiate (keylen : ℕ) (seed : Bytes) : Working :=
  update A seed ⟨keylen, List.replicate keylen 0, List.replicate 16 0⟩

/-- CTR_DRBG_Reseed without derivation function. -/
def reseed (seed : Bytes) (w : Working) : Working := update A seed w

/-- The additional input, padded with zeros. -/
def pad (w : Working) (additional : Bytes) : Bytes :=
  additional ++ List.replicate (w.keylen + 16 - additional.length) 0

/-- CTR_DRBG_Generate without derivation function: the returned bits and the new state. -/
def generate (len : ℕ) (additional : Bytes) (w : Working) : Bytes × Working :=
  let w := if additional = [] then w else update A (pad w additional) w
  let r := rounds A w.Key (blocksFor len) w.V
  (r.1.take len, update A (pad w additional) { w with V := r.2 })

end Sp80090a

open Sp80090a

/-! ## The code -/

/-- `qudo_ctrdrbg_ctx_t`. -/
structure Ctx (A : AesLayer) where
  aes : A.Schedule
  V : Bytes
  K : Bytes
  keylen : ℕ
  seedlen : ℕ
  initialized : Bool
  length_V : V.length = 16
  length_K : K.length = 32

/-- A context of zeros, as at load and after `qudo_ctrdrbg_free`. -/
def Ctx.zero (A : AesLayer) : Ctx A :=
  ⟨A.cleared, List.replicate 16 0, List.replicate 32 0, 0, 0, false, rfl, rfl⟩

variable {A : AesLayer}

variable {data additional : Bytes} {ctx : Ctx A} {w : Working}
  {st : Option Working}

/-- The loop of `inc_128`, from the last byte to the first: `c` is the carry. -/
def incLoop : (c : ℕ) → Bytes → Bytes
  | _, [] => []
  | c, b :: bs => UInt8.ofNat (c + b.toNat) :: incLoop ((c + b.toNat) >>> 8) bs

@[simp] theorem length_incLoop (c : ℕ) (bs : Bytes) : (incLoop c bs).length = bs.length := by
  induction bs generalizing c with
  | nil => rfl
  | cons b bs ih => rw [incLoop, List.length_cons, ih, List.length_cons]

/-- `inc_128`. -/
def inc128 (ctx : Ctx A) : Ctx A :=
  { ctx with
    V := (incLoop 1 ctx.V.reverse).reverse
    length_V := by rw [List.length_reverse, length_incLoop, List.length_reverse, ctx.length_V] }

/-- `buf[i] ^= data[i]` for the bytes of `data`. -/
def xorInto : (buf data : Bytes) → Bytes
  | b :: buf, d :: data => (b ^^^ d) :: xorInto buf data
  | buf, _ => buf

@[simp] theorem length_xorInto (buf data : Bytes) :
    (xorInto buf data).length = buf.length := by
  induction buf generalizing data with
  | nil => rfl
  | cons b buf ih =>
    cases data with
    | nil => rfl
    | cons d data => rw [xorInto, List.length_cons, ih, List.length_cons]

/-- `ctr_XOR`, for a non-`NULL` input; the second loop runs only for input beyond `keylen`. -/
def ctrXOR (ctx : Ctx A) (input : Bytes) : Ctx A :=
  { ctx with
    K := xorInto ctx.K (input.take ctx.keylen)
    V := xorInto ctx.V ((input.drop ctx.keylen).take 16)
    length_V := (length_xorInto _ _).trans ctx.length_V
    length_K := (length_xorInto _ _).trans ctx.length_K }

/-- `memcpy` of `data` to the start of a buffer. -/
def overwrite (buf data : Bytes) : Bytes := data.take buf.length ++ buf.drop data.length

theorem length_overwrite (buf data : Bytes) : (overwrite buf data).length = buf.length := by
  rw [overwrite, List.length_append, List.length_take, List.length_drop]
  omega

/-- `ctr_update`. An absent input is the empty list. -/
def ctrUpdate (ctx : Ctx A) (providedData : Bytes) : Ctx A :=
  let vTmp0 := ctx.V
  let ctx := inc128 ctx
  let vTmp1 := ctx.V
  let ctx2 := if ctx.keylen = 16 then ctx else inc128 ctx
  let out :=
    A.encrypt vTmp0 ctx.aes ++ (A.encrypt vTmp1 ctx.aes ++
      if ctx.keylen = 16 then [] else A.encrypt ctx2.V ctx.aes)
  let ctx3 : Ctx A :=
    { ctx2 with
      K := overwrite ctx2.K (out.take ctx2.keylen)
      V := overwrite ctx2.V ((out.drop ctx2.keylen).take 16)
      length_K := (length_overwrite _ _).trans ctx2.length_K
      length_V := (length_overwrite _ _).trans ctx2.length_V }
  let ctx4 := ctrXOR ctx3 providedData
  { ctx4 with aes := A.setEncryptKey ctx4.K (ctx4.keylen * 8) }

/-- `qudo_ctrdrbg_init`: whether it returns `0`, and the context it leaves. -/
def ctrdrbgInit (ctx : Ctx A) (keylen : ℕ) : (seed : Option Bytes) → Bool × Ctx A
  | none => (false, ctx)
  | some seed =>
    if keylen ≠ 16 ∧ keylen ≠ 24 ∧ keylen ≠ 32 then (false, ctx)
    else if seed.length ≠ keylen + 16 then (false, ctx)
    else
      let ctx : Ctx A :=
        { ctx with
          keylen := keylen, seedlen := seed.length
          K := List.replicate 32 0, V := List.replicate 16 0
          length_K := List.length_replicate, length_V := List.length_replicate }
      let ctx := { ctx with aes := A.setEncryptKey ctx.K (keylen * 8) }
      (true, { ctrUpdate (inc128 ctx) seed with initialized := true })

/-- The output loop of `qudo_ctrdrbg_generate`, for `outLen` more bytes. -/
def generateLoop (ctx : Ctx A) (outLen : ℕ) : Bytes × Ctx A :=
  if outLen = 0 then ([], ctx)
  else
    let ctx := inc128 ctx
    let block := A.encrypt ctx.V ctx.aes
    let chunk := min outLen 16
    let r := generateLoop ctx (outLen - chunk)
    (block.take chunk ++ r.1, r.2)
termination_by outLen

/-- `QUDO_CTRDRBG_MAX_REQUEST`. -/
def maxRequest : ℕ := 65536

/-- `qudo_ctrdrbg_generate`: the output, unless it returns `-1`, and the context it leaves. `out`
says whether the output pointer is there. -/
def ctrdrbgGenerate (ctx : Ctx A) (out : Bool) (outLen : ℕ) (additional : Option Bytes) :
    Option Bytes × Ctx A :=
  let additional := additional.getD []
  if !ctx.initialized ∨ outLen > maxRequest then (none, ctx)
  else if !out ∧ outLen > 0 then (none, ctx)
  else if additional ≠ [] ∧ additional.length > ctx.seedlen then (none, ctx)
  else
    let addBuf := overwrite (List.replicate 48 0) additional
    let adin := if additional = [] then [] else addBuf.take ctx.seedlen
    let ctx := if additional = [] then ctx else ctrUpdate (inc128 ctx) adin
    if outLen = 0 then (some [], ctrUpdate (inc128 ctx) adin)
    else
      let r := generateLoop ctx outLen
      (some r.1, ctrUpdate (inc128 r.2) adin)

/-- `qudo_ctrdrbg_reseed`: whether it returns `0`, and the context it leaves. -/
def ctrdrbgReseed (ctx : Ctx A) : (seed : Option Bytes) → Bool × Ctx A
  | none => (false, ctx)
  | some seed =>
    if !ctx.initialized then (false, ctx)
    else if seed.length ≠ ctx.seedlen then (false, ctx)
    else (true, ctrUpdate (inc128 ctx) seed)

/-! ## What the operations keep -/

/-- Whether the context is initialized, and for which seed length. -/
def Ctx.mode (ctx : Ctx A) : Bool × ℕ := (ctx.initialized, ctx.seedlen)

@[simp] theorem mode_inc128 (ctx : Ctx A) : (inc128 ctx).mode = ctx.mode := rfl

@[simp] theorem mode_ctrUpdate (ctx : Ctx A) (data : Bytes) :
    (ctrUpdate ctx data).mode = ctx.mode := by
  by_cases h : ctx.keylen = 16
  · simp [ctrUpdate, ctrXOR, Ctx.mode, inc128, h]
  · simp [ctrUpdate, ctrXOR, Ctx.mode, inc128, h]

@[simp] theorem mode_generateLoop (ctx : Ctx A) (outLen : ℕ) :
    (generateLoop ctx outLen).2.mode = ctx.mode := by
  fun_induction generateLoop ctx outLen with
  | case1 ctx => rfl
  | case2 ctx outLen h ctx' block chunk r ih => exact ih

/-! ## The counter -/

theorem loadLe_incLoop (c : ℕ) (bs : Bytes) :
    loadLe (incLoop c bs) = (loadLe bs + c) % 256 ^ bs.length := by
  induction bs generalizing c with
  | nil => rw [incLoop, loadLe, List.length_nil, Nat.pow_zero, Nat.mod_one]
  | cons b bs ih =>
    have hpow : 256 ^ (bs.length + 1) = 256 * 256 ^ bs.length := Nat.pow_succ'
    rw [incLoop, loadLe, loadLe, ih, UInt8.toNat_ofNat', List.length_cons, hpow,
      Nat.shiftRight_eq_div_pow, Nat.mod_mul]
    have hlow : (b.toNat + 256 * loadLe bs + c) % 256 = (c + b.toNat) % 2 ^ 8 := by omega
    have hhigh : (b.toNat + 256 * loadLe bs + c) / 256 = loadLe bs + (c + b.toNat) / 2 ^ 8 := by
      omega
    rw [hlow, hhigh]

/-- The byte loop with its carry is addition modulo `2 ^ 128`. -/
theorem inc128_V (ctx : Ctx A) : (inc128 ctx).V = increment ctx.V := by
  have hlen : (incLoop 1 ctx.V.reverse).length = 16 := by
    rw [length_incLoop, List.length_reverse, ctx.length_V]
  have hback := storeLe_loadLe (incLoop 1 ctx.V.reverse)
  rw [hlen, loadLe_incLoop, List.length_reverse, ctx.length_V] at hback
  rw [increment, inc128]
  exact congrArg List.reverse hback.symm

/-! ## Update -/

theorem xorInto_nil (buf : Bytes) : xorInto buf [] = buf := by
  cases buf <;> rfl

theorem take_xorInto (n : ℕ) (buf data : Bytes) :
    (xorInto buf data).take n = xorInto (buf.take n) (data.take n) := by
  induction buf generalizing n data with
  | nil => cases n <;> cases data <;> rfl
  | cons b buf ih =>
    cases data with
    | nil => rw [List.take_nil, xorInto_nil, xorInto_nil]
    | cons d data =>
      cases n with
      | zero => rfl
      | succ n => rw [xorInto, List.take_succ_cons, List.take_succ_cons, List.take_succ_cons, ih,
          xorInto]

theorem xorInto_eq_zipWith {buf : Bytes} (h : buf.length = data.length) :
    xorInto buf data = List.zipWith (· ^^^ ·) buf data := by
  induction buf generalizing data with
  | nil =>
    cases data with
    | nil => rfl
    | cons d data => cases h
  | cons b buf ih =>
    cases data with
    | nil => cases h
    | cons d data => rw [xorInto, List.zipWith_cons_cons, ih (Nat.succ.inj h)]

theorem xorInto_replicate_zero (buf : Bytes) (n : ℕ) :
    xorInto buf (List.replicate n 0) = buf := by
  induction buf generalizing n with
  | nil => cases n <;> rfl
  | cons b buf ih =>
    cases n with
    | zero => rfl
    | succ n => rw [List.replicate_succ, xorInto, ih, UInt8.xor_zero]

/-- The context holds the working state, and the schedule of its key. -/
structure Holds (ctx : Ctx A) (w : Working) : Prop where
  keylen_valid : w.keylen = 16 ∨ w.keylen = 24 ∨ w.keylen = 32
  keylen_eq : ctx.keylen = w.keylen
  seedlen_eq : ctx.seedlen = w.keylen + 16
  K_eq : ctx.K.take w.keylen = w.Key
  V_eq : ctx.V = w.V
  aes_eq : ctx.aes = A.setEncryptKey ctx.K (w.keylen * 8)

namespace Holds

variable {ctx : Ctx A} {w : Working} (h : Holds ctx w)
include h

theorem encrypt_eq (block : Bytes) : A.encrypt block ctx.aes = A.aes w.Key block := by
  have hbits : w.keylen * 8 = 128 ∨ w.keylen * 8 = 192 ∨ w.keylen * 8 = 256 := by
    have := h.keylen_valid
    omega
  rw [h.aes_eq, A.encrypt_eq _ _ _ hbits, Nat.mul_div_cancel _ (by decide : 0 < 8), h.K_eq]

/-- The counter values the code collects are the ones the specification encrypts. -/
theorem inc128 : Holds (inc128 ctx) { w with V := increment w.V } where
  keylen_valid := h.keylen_valid
  keylen_eq := h.keylen_eq
  seedlen_eq := h.seedlen_eq
  K_eq := h.K_eq
  V_eq := by rw [inc128_V, h.V_eq]
  aes_eq := h.aes_eq

end Holds

/-- An absent input leaves the context as an input of zeros does. -/
theorem ctrXOR_nil (ctx : Ctx A) (n : ℕ) :
    ctrXOR ctx [] = ctrXOR ctx (List.replicate n 0) := by
  simp only [ctrXOR, List.take_nil, List.drop_nil, List.take_replicate, List.drop_replicate,
    xorInto_nil, xorInto_replicate_zero]

theorem overwrite_of_length {buf : Bytes} (h : data.length = buf.length) :
    overwrite buf data = data := by
  rw [overwrite, ← h, List.take_length, List.drop_of_length_le (by omega), List.append_nil]

theorem take_overwrite (buf data : Bytes) (h : data.length ≤ buf.length) :
    (overwrite buf data).take data.length = data := by
  rw [overwrite, List.take_of_length_le h, List.take_left]

theorem Sp80090a.length_rounds (A : AesLayer) (Key V : Bytes) (n : ℕ) :
    (rounds A Key n V).1.length = 16 * n := by
  induction n generalizing V with
  | zero => rfl
  | succ n ih =>
    rw [rounds, List.length_append, A.length_aes, ih]
    omega

/-- The keystream of `ctr_update`: two blocks for a key of 16 bytes, three otherwise. -/
theorem Holds.keystream (h : Holds ctx w) :
    A.encrypt (Random.inc128 ctx).V ctx.aes ++ (A.encrypt (Random.inc128 (Random.inc128 ctx)).V
        ctx.aes ++ if ctx.keylen = 16 then []
          else A.encrypt (Random.inc128 (Random.inc128 (Random.inc128 ctx))).V ctx.aes) =
      (rounds A w.Key (blocksFor (w.keylen + 16)) w.V).1 := by
  simp only [inc128_V, h.encrypt_eq, h.V_eq, h.keylen_eq]
  rcases h.keylen_valid with hk | hk | hk
  · rw [if_pos hk, hk]
    rfl
  · rw [if_neg (by omega), hk, ← List.append_nil (A.aes _ (increment
      (increment (increment w.V))))]
    rfl
  · rw [if_neg (by omega), hk, ← List.append_nil (A.aes _ (increment
      (increment (increment w.V))))]
    rfl

/-- The bytes `ctr_update` encrypts into `out`. -/
def updateOut (ctx : Ctx A) : Bytes :=
  A.encrypt ctx.V ctx.aes ++ (A.encrypt (inc128 ctx).V ctx.aes ++
    if ctx.keylen = 16 then [] else A.encrypt (inc128 (inc128 ctx)).V ctx.aes)

/-- The fields after `ctr_update`; the old `V` is overwritten. -/
theorem ctrUpdate_eq (ctx : Ctx A) (data : Bytes) :
    (ctrUpdate ctx data).keylen = ctx.keylen ∧ (ctrUpdate ctx data).seedlen = ctx.seedlen ∧
      (ctrUpdate ctx data).initialized = ctx.initialized ∧
      (ctrUpdate ctx data).K =
        xorInto (overwrite ctx.K ((updateOut ctx).take ctx.keylen)) (data.take ctx.keylen) ∧
      (∃ old : Bytes, old.length = 16 ∧ (ctrUpdate ctx data).V =
        xorInto (overwrite old (((updateOut ctx).drop ctx.keylen).take 16))
          ((data.drop ctx.keylen).take 16)) ∧
      (ctrUpdate ctx data).aes = A.setEncryptKey (ctrUpdate ctx data).K (ctx.keylen * 8) := by
  have hkeylen : (inc128 ctx).keylen = ctx.keylen := rfl
  by_cases hk : ctx.keylen = 16
  · simp only [ctrUpdate, updateOut, hkeylen, if_pos hk]
    exact ⟨rfl, rfl, rfl, rfl, ⟨_, (inc128 ctx).length_V, rfl⟩, rfl⟩
  · simp only [ctrUpdate, updateOut, hkeylen, if_neg hk]
    exact ⟨rfl, rfl, rfl, rfl, ⟨_, (inc128 (inc128 ctx)).length_V, rfl⟩, rfl⟩

/-- `ctr_update` after `inc_128` is CTR_DRBG_Update. -/
theorem Holds.update (h : Holds ctx w)
    (hdata : data.length = w.keylen + 16) :
    Holds (ctrUpdate (Random.inc128 ctx) data) (Sp80090a.update A data w) := by
  have hout : updateOut (Random.inc128 ctx) =
      (rounds A w.Key (blocksFor (w.keylen + 16)) w.V).1 := h.keystream
  obtain ⟨hkeylen, hseedlen, -, hK, ⟨old, hold, hV⟩, haes⟩ := ctrUpdate_eq (Random.inc128 ctx) data
  have hctx : (Random.inc128 ctx).keylen = w.keylen := h.keylen_eq
  rw [hctx, hout] at hK hV
  rw [hctx] at haes hkeylen
  have hlen := length_rounds A w.Key w.V (blocksFor (w.keylen + 16))
  rw [Sp80090a.update]
  generalize (rounds A w.Key (blocksFor (w.keylen + 16)) w.V).1 = out at *
  have hlong : w.keylen + 16 ≤ out.length := by
    rw [hlen, blocksFor]
    omega
  have hkey : (out.take w.keylen).length = w.keylen := List.length_take_of_le (by omega)
  have hsmall : w.keylen ≤ 32 := by
    have := h.keylen_valid
    omega
  have hdrop : (data.drop w.keylen).length = 16 := by
    rw [List.length_drop]
    omega
  refine ⟨h.keylen_valid, hkeylen, hseedlen.trans h.seedlen_eq, ?_, ?_, haes⟩
  · dsimp only
    have hbuf := take_overwrite (Random.inc128 ctx).K (out.take w.keylen)
      (by rw [hkey, (Random.inc128 ctx).length_K]; exact hsmall)
    rw [hkey] at hbuf
    rw [hK, take_xorInto, hbuf, List.take_take, Nat.min_self, xorInto_eq_zipWith,
      List.take_zipWith, List.take_take, Nat.min_eq_left (Nat.le_add_right _ _)]
    rw [hkey, List.length_take_of_le (by omega)]
  · dsimp only
    have hblock : ((out.drop w.keylen).take 16).length = 16 := by
      rw [List.length_take, List.length_drop]
      omega
    rw [hV, overwrite_of_length (hblock.trans hold.symm), List.take_of_length_le hdrop.le,
      xorInto_eq_zipWith (hblock.trans hdrop.symm), List.drop_zipWith, List.drop_take,
      Nat.add_sub_cancel_left]

theorem ctrUpdate_nil (ctx : Ctx A) (n : ℕ) :
    ctrUpdate ctx [] = ctrUpdate ctx (List.replicate n 0) := by
  simp only [ctrUpdate, ctrXOR_nil _ n]

/-! ## Generate -/

theorem Sp80090a.blocksFor_eq {len : ℕ} (h : len ≠ 0) :
    blocksFor len = blocksFor (len - min len 16) + 1 := by
  rw [blocksFor, blocksFor]
  omega

/-- The output loop runs the rounds of the specification. -/
theorem Holds.generateLoop (h : Holds ctx w) (len : ℕ) :
    (Random.generateLoop ctx len).1 =
        (rounds A w.Key (blocksFor len) w.V).1.take len ∧
      (Random.generateLoop ctx len).2.initialized = ctx.initialized ∧
      Holds (Random.generateLoop ctx len).2
        { w with V := (rounds A w.Key (blocksFor len) w.V).2 } := by
  fun_induction Random.generateLoop ctx len generalizing w with
  | case1 ctx =>
    exact ⟨(List.take_zero).symm, rfl, h⟩
  | case2 ctx len hlen ctx' block chunk r =>
    rename_i ih
    obtain ⟨hout, hinit, hholds⟩ := ih h.inc128
    have hblock : block = A.aes w.Key (increment w.V) :=
      (h.inc128.encrypt_eq ctx'.V).trans (congrArg (A.aes w.Key) h.inc128.V_eq)
    have hchunk : len - chunk = len - 16 := by
      have : chunk = min len 16 := rfl
      omega
    have htake : (A.aes w.Key (increment w.V)).take chunk =
        (A.aes w.Key (increment w.V)).take len := by
      have hlen' := A.length_aes w.Key (increment w.V)
      rw [List.take_eq_take_iff, hlen']
      omega
    rw [blocksFor_eq hlen, rounds]
    refine ⟨?_, hinit, hholds⟩
    dsimp only
    rw [List.take_append, A.length_aes, hblock, htake, hout, hchunk]

/-! ## Sequences of calls -/

/-- A call, with every argument that may be `NULL` as an option. -/
inductive Request
  | init (keylen : ℕ) (seed : Option Bytes)
  | reseed (seed : Option Bytes)
  | generate (out : Bool) (outLen : ℕ) (additional : Option Bytes)

/-- One call: the output if it is accepted, and the context it leaves. -/
def exec (ctx : Ctx A) : Request → Option Bytes × Ctx A
  | .init keylen seed =>
    let r := ctrdrbgInit ctx keylen seed
    (if r.1 then some [] else none, r.2)
  | .reseed seed =>
    let r := ctrdrbgReseed ctx seed
    (if r.1 then some [] else none, r.2)
  | .generate out outLen additional => ctrdrbgGenerate ctx out outLen additional

/-- The outputs of a sequence of calls, and the last context. -/
def execAll (ctx : Ctx A) : List Request → List (Option Bytes) × Ctx A
  | [] => ([], ctx)
  | r :: rs => ((exec ctx r).1 :: (execAll (exec ctx r).2 rs).1, (execAll (exec ctx r).2 rs).2)

namespace Sp80090a

variable (A : AesLayer)

/-- One call on a generator that may not be instantiated. A request outside the limits of the
standard, or with a missing buffer, is refused. -/
def step (st : Option Working) : Request → Option (Bytes × Working)
  | .init keylen seed => seed.bind fun seed ↦
    if (keylen = 16 ∨ keylen = 24 ∨ keylen = 32) ∧ seed.length = keylen + 16 then
      some ([], instantiate A keylen seed)
    else none
  | .reseed seed => seed.bind fun seed ↦ st.bind fun w ↦
    if seed.length = w.keylen + 16 then some ([], reseed A seed w) else none
  | .generate out outLen additional => st.bind fun w ↦
    if outLen ≤ maxRequest ∧ (out ∨ outLen = 0) ∧
        (additional.getD []).length ≤ w.keylen + 16 then
      some (generate A outLen (additional.getD []) w)
    else none

/-- The outputs of a sequence of calls, and the last state; a refused call changes nothing. -/
def stepAll (st : Option Working) : List Request → List (Option Bytes) × Option Working
  | [] => ([], st)
  | r :: rs =>
    let next := ((step A st r).map Prod.snd).or st
    ((step A st r).map Prod.fst :: (stepAll next rs).1, (stepAll next rs).2)

end Sp80090a

/-- The context of a generator that may not be instantiated. -/
def Matches (ctx : Ctx A) : Option Working → Prop
  | none => ctx.initialized = false
  | some w => ctx.initialized = true ∧ Holds ctx w

/-- What a call has to do: answer as the specification does, and leave a matching context; if it is
refused, the same context. -/
def Agrees (ctx : Ctx A) (st : Option Working) (r : Request) : Prop :=
  (exec ctx r).1 = (step A st r).map Prod.fst ∧
    Matches (exec ctx r).2 (((step A st r).map Prod.snd).or st) ∧
    ((exec ctx r).1 = none → (exec ctx r).2 = ctx)

theorem agrees_of_refused {r : Request}
    (h : Matches ctx st) (hcode : exec ctx r = (none, ctx)) (hspec : step A st r = none) :
    Agrees ctx st r := by
  rw [Agrees, hcode, hspec]
  exact ⟨rfl, h, fun _ ↦ rfl⟩

theorem agrees_of_accepted {ctx' : Ctx A} {r : Request}
    {out : Bytes} (hcode : exec ctx r = (some out, ctx'))
    (hspec : step A st r = some (out, w)) (h : Matches ctx' (some w)) :
    Agrees ctx st r := by
  rw [Agrees, hcode, hspec]
  exact ⟨rfl, h, nofun⟩

theorem agrees_init (h : Matches ctx st) (keylen : ℕ)
    (seed : Option Bytes) : Agrees ctx st (.init keylen seed) := by
  cases seed with
  | none => exact agrees_of_refused h rfl rfl
  | some seed =>
    by_cases hlen : (keylen = 16 ∨ keylen = 24 ∨ keylen = 32) ∧ seed.length = keylen + 16
    · obtain ⟨hk, hseed⟩ := hlen
      let fresh : Ctx A :=
        { ctx with
          keylen := keylen, seedlen := seed.length
          K := List.replicate 32 0, V := List.replicate 16 0
          length_K := List.length_replicate, length_V := List.length_replicate
          aes := A.setEncryptKey (List.replicate 32 0) (keylen * 8) }
      have hfresh : Holds fresh ⟨keylen, List.replicate keylen 0, List.replicate 16 0⟩ := by
        have hle : keylen ≤ 32 := by omega
        refine ⟨hk, rfl, hseed, ?_, rfl, rfl⟩
        rw [List.take_replicate]
        exact congrArg (List.replicate · 0) (Nat.min_eq_left hle)
      obtain ⟨h1, h2, h3, h4, h5, h6⟩ := hfresh.update hseed
      have hinit : ctrdrbgInit ctx keylen (some seed) =
          (true, { ctrUpdate (inc128 fresh) seed with initialized := true }) := by
        rw [ctrdrbgInit, if_neg (by omega), if_neg (not_not_intro hseed)]
      have hcode : exec ctx (.init keylen (some seed)) =
          (some [], { ctrUpdate (inc128 fresh) seed with initialized := true }) := by
        rw [exec, hinit]
        rfl
      exact agrees_of_accepted hcode (if_pos ⟨hk, hseed⟩) ⟨rfl, ⟨h1, h2, h3, h4, h5, h6⟩⟩
    · have hcode : ctrdrbgInit ctx keylen (some seed) = (false, ctx) := by
        rw [ctrdrbgInit]
        by_cases hk : keylen ≠ 16 ∧ keylen ≠ 24 ∧ keylen ≠ 32
        · rw [if_pos hk]
        · rw [if_neg hk, if_pos (by omega)]
      refine agrees_of_refused h ?_ (if_neg hlen)
      rw [exec, hcode]
      rfl

theorem agrees_reseed (h : Matches ctx st)
    (seed : Option Bytes) : Agrees ctx st (.reseed seed) := by
  cases seed with
  | none => exact agrees_of_refused h rfl rfl
  | some seed =>
    cases st with
    | none =>
      have hcode : ctrdrbgReseed ctx (some seed) = (false, ctx) := by
        rw [ctrdrbgReseed, show ctx.initialized = false from h, if_pos (by decide)]
      refine agrees_of_refused h ?_ rfl
      rw [exec, hcode]
      rfl
    | some w =>
      obtain ⟨hinit, hholds⟩ := h
      have hcode : ctrdrbgReseed ctx (some seed) =
          if seed.length ≠ w.keylen + 16 then (false, ctx)
          else (true, ctrUpdate (inc128 ctx) seed) := by
        rw [ctrdrbgReseed, hinit, hholds.seedlen_eq, if_neg (by decide)]
      by_cases hlen : seed.length = w.keylen + 16
      · rw [if_neg (not_not_intro hlen)] at hcode
        have hexec : exec ctx (.reseed (some seed)) = (some [], ctrUpdate (inc128 ctx) seed) := by
          rw [exec, hcode]
          rfl
        refine agrees_of_accepted hexec (if_pos hlen) ⟨?_, hholds.update hlen⟩
        exact (ctrUpdate_eq _ seed).2.2.1.trans hinit
      · rw [if_pos hlen] at hcode
        refine agrees_of_refused ⟨hinit, hholds⟩ ?_ (if_neg hlen)
        rw [exec, hcode]
        rfl

/-- The additional input in its zeroed buffer is the padded additional input. -/
theorem take_overwrite_eq_pad
    (hk : w.keylen ≤ 32) (hlen : additional.length ≤ w.keylen + 16) :
    (overwrite (List.replicate 48 0) additional).take (w.keylen + 16) =
      pad w additional := by
  rw [overwrite, pad, List.length_replicate,
    List.take_of_length_le (l := additional) (by omega), List.take_append,
    List.take_of_length_le hlen, List.drop_replicate, List.take_replicate]
  congr 2
  omega

theorem length_pad
    (hlen : additional.length ≤ w.keylen + 16) :
    (pad w additional).length = w.keylen + 16 := by
  rw [pad, List.length_append, List.length_replicate]
  omega

/-- An update with the buffer of the additional input, absent or not. -/
theorem Holds.updateAdditional (h : Holds ctx w) (hlen : additional.length ≤ w.keylen + 16) :
    Holds (ctrUpdate (Random.inc128 ctx) (if additional = [] then []
        else (overwrite (List.replicate 48 0) additional).take (w.keylen + 16)))
      (Sp80090a.update A (pad w additional) w) := by
  have hk : w.keylen ≤ 32 := by
    have := h.keylen_valid
    omega
  split
  case isTrue hnil =>
    rw [ctrUpdate_nil _ (w.keylen + 16), hnil]
    exact h.update List.length_replicate
  case isFalse hne =>
    rw [take_overwrite_eq_pad hk hlen]
    exact h.update (length_pad hlen)

theorem generateLoop_zero (ctx : Ctx A) : generateLoop ctx 0 = ([], ctx) := by
  rw [generateLoop, if_pos rfl]

/-- The accepted call of `qudo_ctrdrbg_generate`, with the two branches on `out_len` joined. -/
theorem ctrdrbgGenerate_accepted {out : Bool} {outLen : ℕ}
    {additional : Option Bytes} (hinit : ctx.initialized = true) (hmax : outLen ≤ maxRequest)
    (hout : out = true ∨ outLen = 0) (hlen : (additional.getD []).length ≤ ctx.seedlen) :
    ctrdrbgGenerate ctx out outLen additional =
      let adin := if additional.getD [] = [] then []
        else (overwrite (List.replicate 48 0) (additional.getD [])).take ctx.seedlen
      let ctx := if additional.getD [] = [] then ctx else ctrUpdate (inc128 ctx) adin
      (some (generateLoop ctx outLen).1, ctrUpdate (inc128 (generateLoop ctx outLen).2) adin) := by
  have hnull : ¬ ((!out) = true ∧ outLen > 0) := by
    rintro ⟨hno, hpos⟩
    rcases hout with rfl | hzero
    · exact Bool.false_ne_true hno
    · omega
  have hlimit : ¬ ((!true) = true ∨ outLen > maxRequest) := by
    rintro (hno | hbig)
    · exact Bool.false_ne_true hno
    · omega
  rw [ctrdrbgGenerate, hinit, if_neg hlimit, if_neg hnull,
    if_neg (fun hbig ↦ absurd hbig.2 (by omega))]
  by_cases hzero : outLen = 0
  · subst hzero
    simp only [if_pos, generateLoop_zero]
  · simp only [if_neg hzero]

/-- The refused call leaves the context as it is. -/
theorem ctrdrbgGenerate_refused {out : Bool} {outLen : ℕ}
    {additional : Option Bytes}
    (h : ¬ (outLen ≤ maxRequest ∧ (out = true ∨ outLen = 0) ∧
      (additional.getD []).length ≤ ctx.seedlen)) :
    ctrdrbgGenerate ctx out outLen additional = (none, ctx) := by
  rw [ctrdrbgGenerate]
  by_cases h1 : (!ctx.initialized) = true ∨ outLen > maxRequest
  · rw [if_pos h1]
  by_cases h2 : (!out) = true ∧ outLen > 0
  · rw [if_neg h1, if_pos h2]
  have hbig : (additional.getD []).length > ctx.seedlen := by
    by_contra hsmall
    refine h ⟨by omega, ?_, by omega⟩
    cases out with
    | true => exact Or.inl rfl
    | false => exact Or.inr (by simpa using h2)
  have hne : additional.getD [] ≠ [] := by
    intro hnil
    rw [hnil] at hbig
    exact Nat.not_lt_zero _ hbig
  rw [if_neg h1, if_neg h2, if_pos ⟨hne, hbig⟩]

theorem agrees_generate (h : Matches ctx st)
    (out : Bool) (outLen : ℕ) (additional : Option Bytes) :
    Agrees ctx st (.generate out outLen additional) := by
  cases st with
  | none =>
    refine agrees_of_refused h ?_ rfl
    rw [exec, ctrdrbgGenerate, if_pos (Or.inl (by rw [show ctx.initialized = false from h]; rfl))]
  | some w =>
    obtain ⟨hinit, hholds⟩ := h
    by_cases hok : outLen ≤ maxRequest ∧ (out = true ∨ outLen = 0) ∧
        (additional.getD []).length ≤ w.keylen + 16
    · obtain ⟨hmax, hout, hlen⟩ := hok
      have hcode := ctrdrbgGenerate_accepted hinit hmax hout (hholds.seedlen_eq ▸ hlen)
      rw [hholds.seedlen_eq] at hcode
      -- the state after the additional input, if there is one
      obtain ⟨ctx', w', hctx, hw, hkeylen, hinit', hholds'⟩ :
          ∃ (ctx' : Ctx A) (w' : Working), ctx' = (if additional.getD [] = [] then ctx
              else ctrUpdate (inc128 ctx) (if additional.getD [] = [] then []
                else (overwrite (List.replicate 48 0) (additional.getD [])).take (w.keylen + 16))) ∧
            w' = (if additional.getD [] = [] then w
              else Sp80090a.update A (pad w (additional.getD [])) w) ∧
            w'.keylen = w.keylen ∧ ctx'.initialized = true ∧ Holds ctx' w' := by
        refine ⟨_, _, rfl, rfl, ?_⟩
        split
        case isTrue => exact ⟨rfl, hinit, hholds⟩
        case isFalse hne =>
          have hupdate := hholds.updateAdditional hlen
          rw [if_neg hne] at hupdate
          exact ⟨rfl, (ctrUpdate_eq _ _).2.2.1.trans hinit, hupdate⟩
      obtain ⟨hout', hinit'', hloop⟩ := hholds'.generateLoop outLen
      have hfinal := hloop.updateAdditional (hkeylen ▸ hlen)
      dsimp only at hcode hfinal
      rw [← hctx, hout', ← hkeylen] at hcode
      refine agrees_of_accepted hcode ?_ ⟨(ctrUpdate_eq _ _).2.2.1.trans (hinit''.trans hinit'),
        hfinal⟩
      rw [step, Option.bind_some, if_pos ⟨hmax, hout, hlen⟩, generate, ← hw]
      rfl
    · refine agrees_of_refused ⟨hinit, hholds⟩ ?_ (if_neg hok)
      exact ctrdrbgGenerate_refused (hholds.seedlen_eq ▸ hok)

theorem agrees (h : Matches ctx st) (r : Request) :
    Agrees ctx st r := by
  cases r with
  | init keylen seed => exact agrees_init h keylen seed
  | reseed seed => exact agrees_reseed h seed
  | generate out outLen additional => exact agrees_generate h out outLen additional

/-- Every run follows the specification. -/
theorem execAll_spec (h : Matches ctx st)
    (rs : List Request) :
    (execAll ctx rs).1 = (stepAll A st rs).1 ∧
      Matches (execAll ctx rs).2 (stepAll A st rs).2 := by
  induction rs generalizing ctx st with
  | nil => exact ⟨rfl, h⟩
  | cons r rs ih =>
    obtain ⟨hout, hmatch, -⟩ := agrees h r
    obtain ⟨houts, hlast⟩ := ih hmatch
    rw [execAll, stepAll, hout, houts]
    exact ⟨rfl, hlast⟩

/-- The generator implements CTR_DRBG without derivation function: from a context that is not
initialized, every sequence of calls returns what the specification returns. After it the context
holds the working state and the schedule of its key, and a call that is refused leaves the context
as it is. -/
theorem ctrdrbg_implements_sp800_90a (ctx : Ctx A) (hctx : ctx.initialized = false)
    (rs : List Request) :
    (execAll ctx rs).1 = (stepAll A none rs).1 ∧
      Matches (execAll ctx rs).2 (stepAll A none rs).2 ∧
      ∀ r, (exec (execAll ctx rs).2 r).1 = none →
        (exec (execAll ctx rs).2 r).2 = (execAll ctx rs).2 := by
  have hstart : Matches ctx none := hctx
  obtain ⟨houts, hlast⟩ := execAll_spec hstart rs
  exact ⟨houts, hlast, fun r ↦ (agrees hlast r).2.2⟩

end Random
