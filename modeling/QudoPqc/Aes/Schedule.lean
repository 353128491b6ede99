import QudoPqc.Aes.Fips197
import QudoPqc.Arith.WordBytes

/-!
# The key schedule in memory

`qudo_aes_key_t` holds the round keys as 32-bit words. The two back ends in C expand the key with
the same three loops and differ in how they compute the substitution of a word, so the loops are
written once here, for any such operations; a back end's `set_encrypt_key` is this one at its own.

What the loops leave in memory is said with `stored`: the first `m` words are those of KEYEXPANSION,
and the words from there on are what the memory held before. Every assignment of a loop takes
`stored … m` to `stored … (m + 1)`, and an early `return` just stops at a smaller `m`.
-/

namespace Aes

open Fips197

/-- `u32`. -/
abbrev U32 := BitVec 32

/-- `qudo_aes_key_t`. -/
structure AesKey where
  rdKey : ℕ → U32
  rounds : ℕ

/-- A word of the cipher as a number, the first byte being the most significant. -/
def Word.be (w : Word) : U32 := Arith.ofBytes w.b0 w.b1 w.b2 w.b3

/-- A word of the cipher as a number, the first byte being the least significant. -/
def Word.le (w : Word) : U32 := Arith.ofBytes w.b3 w.b2 w.b1 w.b0

theorem Word.be_xor (v w : Word) : (v ^^^ w).be = v.be ^^^ w.be :=
  (Arith.ofBytes_xor _ _ _ _ _ _ _ _).symm

theorem Word.le_xor (v w : Word) : (v ^^^ w).le = v.le ^^^ w.le :=
  (Arith.ofBytes_xor _ _ _ _ _ _ _ _).symm

theorem Word.byte_be (w : Word) :
    (⟨Arith.byte w.be 3, Arith.byte w.be 2, Arith.byte w.be 1, Arith.byte w.be 0⟩ : Word) = w := by
  rw [Word.be, Arith.byte_three_ofBytes, Arith.byte_two_ofBytes, Arith.byte_one_ofBytes,
    Arith.byte_zero_ofBytes]

/-- Four 32-bit words. -/
@[ext]
structure Quad where
  x0 : U32
  x1 : U32
  x2 : U32
  x3 : U32

/-- The columns of a State as numbers. -/
def State.encode (enc : Word → U32) (s : State) : Quad := ⟨enc s.c0, enc s.c1, enc s.c2, enc s.c3⟩

/-- `GETU32(userKey + a)`. -/
def getU32 (m : ℕ → Byte) (a : ℕ) : U32 :=
  ((m a).setWidth 32 <<< 24) ^^^ ((m (a + 1)).setWidth 32 <<< 16) ^^^
    ((m (a + 2)).setWidth 32 <<< 8) ^^^ (m (a + 3)).setWidth 32

theorem getU32_eq (m : ℕ → Byte) (a : ℕ) : getU32 m a = (wordAt m a).be := rfl

/-! ## What the memory holds -/

section Stored

variable (enc : Word → U32) (w : ℕ → Word) (rd : ℕ → U32)

/-- A memory whose first `m` words encode `w`. -/
def stored (m : ℕ) : ℕ → U32 := fun j ↦ if j < m then enc (w j) else rd j

theorem stored_of_lt {j m : ℕ} (h : j < m) : stored enc w rd m j = enc (w j) := if_pos h

theorem stored_zero : stored enc w rd 0 = rd := by
  funext j
  exact if_neg (Nat.not_lt_zero j)

theorem update_stored {m : ℕ} {v : U32} (hv : v = enc (w m)) :
    Function.update (stored enc w rd m) m v = stored enc w rd (m + 1) := by
  funext j
  rcases lt_trichotomy j m with h | rfl | h
  · rw [Function.update_of_ne h.ne, stored_of_lt _ _ _ h, stored_of_lt _ _ _ (by omega)]
  · rw [Function.update_self, hv, stored_of_lt _ _ _ (Nat.lt_succ_self j)]
  · rw [Function.update_of_ne h.ne', stored, stored, if_neg (by omega), if_neg (by omega)]

end Stored

/-! ## The loops -/

/-- What the two back ends in C compute differently: `r ^ SubWord(RotWord(temp))`,
`r ^ SubWord(temp)`, and the table of round constants. -/
structure WordOps where
  rotSub : (r temp : U32) → U32
  sub : (r temp : U32) → U32
  rcon : List U32

/-- `rk[c] = rk[a] ^ rk[b]`, for the pointer `rk` at word `o`. -/
def xorAt (o a b c : ℕ) (rk : ℕ → U32) : ℕ → U32 :=
  Function.update rk (o + c) (rk (o + a) ^^^ rk (o + b))

/-- `temp = rk[t]; rk[c] = rk[0] ^ SubWord(RotWord(temp)) ^ rcon[i]`. -/
def headAt (ops : WordOps) (o i t c : ℕ) (rk : ℕ → U32) : ℕ → U32 :=
  Function.update rk (o + c) (ops.rotSub (rk o) (rk (o + t)) ^^^ ops.rcon.getD i 0)

/-- `temp = rk[t]; rk[c] = rk[a] ^ SubWord(temp)`. -/
def middleAt (ops : WordOps) (o a t c : ℕ) (rk : ℕ → U32) : ℕ → U32 :=
  Function.update rk (o + c) (ops.sub (rk (o + a)) (rk (o + t)))

/-- `rk[0] = GETU32(userKey)`, and so on for the first `n` words. -/
def loadKey (userKey : ℕ → Byte) : ℕ → (ℕ → U32) → ℕ → U32
  | 0, rk => rk
  | n + 1, rk => Function.update (loadKey userKey n rk) n (getU32 userKey (4 * n))

/-- Pass `i` of the loop for 128 bits, with `rk` advanced by four words in each pass before. -/
def pass128 (ops : WordOps) (i : ℕ) (rk : ℕ → U32) : ℕ → U32 :=
  let o := 4 * i
  let rk := headAt ops o i 3 4 rk
  let rk := xorAt o 1 4 5 rk
  let rk := xorAt o 2 5 6 rk
  xorAt o 3 6 7 rk

/-- Pass `i` of the loop for 192 bits; the last one returns before its end. -/
def pass192 (ops : WordOps) (i : ℕ) (rk : ℕ → U32) : ℕ → U32 :=
  let o := 6 * i
  let rk := headAt ops o i 5 6 rk
  let rk := xorAt o 1 6 7 rk
  let rk := xorAt o 2 7 8 rk
  let rk := xorAt o 3 8 9 rk
  if i + 1 = 8 then rk
  else
    let rk := xorAt o 4 9 10 rk
    xorAt o 5 10 11 rk

/-- Pass `i` of the loop for 256 bits; the last one returns before its end. -/
def pass256 (ops : WordOps) (i : ℕ) (rk : ℕ → U32) : ℕ → U32 :=
  let o := 8 * i
  let rk := headAt ops o i 7 8 rk
  let rk := xorAt o 1 8 9 rk
  let rk := xorAt o 2 9 10 rk
  let rk := xorAt o 3 10 11 rk
  if i + 1 = 7 then rk
  else
    let rk := middleAt ops o 4 11 12 rk
    let rk := xorAt o 5 12 13 rk
    let rk := xorAt o 6 13 14 rk
    xorAt o 7 14 15 rk

/-- The first `n` passes of a loop. -/
def passes (pass : ℕ → (ℕ → U32) → ℕ → U32) : ℕ → (ℕ → U32) → ℕ → U32
  | 0, rk => rk
  | n + 1, rk => pass n (passes pass n rk)

/-- `set_encrypt_key` with the given operations. `none` is a `NULL` pointer. -/
def setEncryptKey (ops : WordOps) (userKey : Option (ℕ → Byte)) (bits : ℤ) (key : Option AesKey) :
    ℤ × Option AesKey :=
  match userKey, key with
  | some userKey, some key =>
    if bits ≠ 128 ∧ bits ≠ 192 ∧ bits ≠ 256 then (-2, some key)
    else if bits = 128 then
      (0, some ⟨passes (pass128 ops) 10 (loadKey userKey 4 key.rdKey), 10⟩)
    else if bits = 192 then
      (0, some ⟨passes (pass192 ops) 8 (loadKey userKey 6 key.rdKey), 12⟩)
    else (0, some ⟨passes (pass256 ops) 7 (loadKey userKey 8 key.rdKey), 14⟩)
  | _, _ => (-1, key)

/-! ## The loops compute KEYEXPANSION -/

/-- The operations are those of the standard. -/
structure WordOps.Correct (ops : WordOps) : Prop where
  rotSub : ∀ v w : Word, ops.rotSub v.be w.be = (v ^^^ subWord (rotWord w)).be
  sub : ∀ v w : Word, ops.sub v.be w.be = (v ^^^ subWord w).be
  rcon : ∀ i < 10, ops.rcon.getD i 0 = (Fips197.rcon (i + 1)).be

section Passes

variable (userKey : ℕ → Byte) (rd : ℕ → U32) (size : KeySize)

/-- The schedule of the key at `userKey`, stored up to word `m` over the words `rd`. -/
def scheduled (m : ℕ) : ℕ → U32 := stored Word.be (word size userKey) rd m

variable {userKey rd size}

/-- A word computed by `xorAt`, in the loop that is `k` words further in each pass. -/
theorem xorAt_scheduled {k : ℕ} (hk : size.nk = k) (i j : ℕ) (h0 : 0 < j := by decide)
    (hj : j < k := by decide) (h4 : ¬(6 < k ∧ j = 4) := by decide) :
    xorAt (k * i) j (k + j - 1) (k + j) (scheduled userKey rd size (k * i + (k + j))) =
      scheduled userKey rd size (k * i + (k + j + 1)) := by
  subst hk
  have hprev : size.nk * i + (size.nk + j - 1) = size.nk * i + size.nk + j - 1 := by omega
  apply update_stored
  rw [scheduled, stored_of_lt _ _ _ (by omega), stored_of_lt _ _ _ (by omega), hprev,
    ← Word.be_xor, ← word_next size userKey i j h0 hj h4, Nat.add_assoc]

variable {ops : WordOps}

/-- The first word of a pass. -/
theorem headAt_scheduled (hops : ops.Correct) {k : ℕ} (hk : size.nk = k) {i : ℕ} (hi : i < 10) :
    headAt ops (k * i) i (k - 1) k (scheduled userKey rd size (k * i + k)) =
      scheduled userKey rd size (k * i + (k + 1)) := by
  subst hk
  have hpos := size.nk_pos
  apply update_stored
  rw [scheduled, stored_of_lt _ _ _ (by omega), stored_of_lt _ _ _ (by omega), hops.rotSub,
    hops.rcon i hi, word_head, Nat.add_sub_assoc hpos, Word.be_xor, Word.be_xor,
    Word.be_xor, BitVec.xor_assoc]

/-- The fifth word of a pass for 256 bits. -/
theorem middleAt_scheduled (hops : ops.Correct) (i : ℕ) :
    middleAt ops (8 * i) 4 11 12 (scheduled userKey rd .aes256 (8 * i + 12)) =
      scheduled userKey rd .aes256 (8 * i + 13) := by
  apply update_stored
  rw [scheduled, stored_of_lt _ _ _ (by omega), stored_of_lt _ _ _ (by omega), hops.sub,
    word_middle]

theorem loadKey_scheduled {n : ℕ} (hn : n ≤ size.nk) :
    loadKey userKey n rd = scheduled userKey rd size n := by
  induction n with
  | zero => exact (stored_zero _ _ _).symm
  | succ n ih =>
    rw [loadKey, ih (by omega)]
    apply update_stored
    rw [getU32_eq, word_of_lt _ _ (by omega)]

theorem pass128_scheduled (hops : ops.Correct) {i : ℕ} (hi : i < 10) :
    pass128 ops i (scheduled userKey rd .aes128 (4 * i + 4)) =
      scheduled userKey rd .aes128 (4 * i + 8) := by
  have hk : KeySize.aes128.nk = 4 := rfl
  rw [pass128, headAt_scheduled hops hk hi,
    xorAt_scheduled hk i 1,
    xorAt_scheduled hk i 2,
    xorAt_scheduled hk i 3]

/-- A pass for 192 bits; the last one leaves two words less. -/
theorem pass192_scheduled (hops : ops.Correct) {i : ℕ} (hi : i < 10) :
    pass192 ops i (scheduled userKey rd .aes192 (6 * i + 6)) =
      scheduled userKey rd .aes192 (6 * i + if i + 1 = 8 then 10 else 12) := by
  have hk : KeySize.aes192.nk = 6 := rfl
  rw [pass192, headAt_scheduled hops hk hi,
    xorAt_scheduled hk i 1,
    xorAt_scheduled hk i 2,
    xorAt_scheduled hk i 3]
  split
  · rfl
  · rw [xorAt_scheduled hk i 4,
      xorAt_scheduled hk i 5]

/-- A pass for 256 bits; the last one leaves four words less. -/
theorem pass256_scheduled (hops : ops.Correct) {i : ℕ} (hi : i < 10) :
    pass256 ops i (scheduled userKey rd .aes256 (8 * i + 8)) =
      scheduled userKey rd .aes256 (8 * i + if i + 1 = 7 then 12 else 16) := by
  have hk : KeySize.aes256.nk = 8 := rfl
  rw [pass256, headAt_scheduled hops hk hi,
    xorAt_scheduled hk i 1,
    xorAt_scheduled hk i 2,
    xorAt_scheduled hk i 3]
  split
  · rfl
  · dsimp only
    rw [middleAt_scheduled hops, xorAt_scheduled hk i 5,
      xorAt_scheduled hk i 6,
      xorAt_scheduled hk i 7]

/-- A loop whose pass `i` takes `a i` words to `a (i + 1)` words. -/
theorem passes_scheduled {pass : ℕ → (ℕ → U32) → ℕ → U32} (a : ℕ → ℕ) {n : ℕ}
    (hpass : ∀ i < n, pass i (scheduled userKey rd size (a i)) =
      scheduled userKey rd size (a (i + 1))) :
    passes pass n (scheduled userKey rd size (a 0)) = scheduled userKey rd size (a n) := by
  induction n with
  | zero => rfl
  | succ n ih => rw [passes, ih fun i hi ↦ hpass i (by omega), hpass n (Nat.lt_succ_self n)]

theorem passes128_scheduled (hops : ops.Correct) :
    passes (pass128 ops) 10 (loadKey userKey 4 rd) = scheduled userKey rd .aes128 44 := by
  have hload : loadKey userKey 4 rd = scheduled userKey rd .aes128 4 :=
    loadKey_scheduled (Nat.le_refl _)
  rw [hload]
  exact passes_scheduled (fun i ↦ 4 * i + 4) fun i hi ↦ pass128_scheduled hops hi

theorem passes192_scheduled (hops : ops.Correct) :
    passes (pass192 ops) 8 (loadKey userKey 6 rd) = scheduled userKey rd .aes192 52 := by
  have hload : loadKey userKey 6 rd = scheduled userKey rd .aes192 6 :=
    loadKey_scheduled (Nat.le_refl _)
  have hseven : passes (pass192 ops) 7 (scheduled userKey rd .aes192 6) =
      scheduled userKey rd .aes192 48 := by
    refine passes_scheduled (fun i ↦ 6 * i + 6) fun i hi ↦ ?_
    rw [pass192_scheduled hops (by omega), if_neg (by omega), Nat.mul_succ]
  rw [hload, passes, hseven]
  exact pass192_scheduled hops (by decide)

theorem passes256_scheduled (hops : ops.Correct) :
    passes (pass256 ops) 7 (loadKey userKey 8 rd) = scheduled userKey rd .aes256 60 := by
  have hload : loadKey userKey 8 rd = scheduled userKey rd .aes256 8 :=
    loadKey_scheduled (Nat.le_refl _)
  have hsix : passes (pass256 ops) 6 (scheduled userKey rd .aes256 8) =
      scheduled userKey rd .aes256 56 := by
    refine passes_scheduled (fun i ↦ 8 * i + 8) fun i hi ↦ ?_
    rw [pass256_scheduled hops (by omega), if_neg (by omega), Nat.mul_succ]
  rw [hload, passes, hsix]
  exact pass256_scheduled hops (by decide)

end Passes

/-- With the operations of the standard, `set_encrypt_key` stores the words of KEYEXPANSION, and
the number of rounds. -/
theorem setEncryptKey_eq {ops : WordOps} (hops : ops.Correct) (size : KeySize) (userKey : ℕ → Byte)
    (key : AesKey) : setEncryptKey ops (some userKey) size.bits (some key) =
      (0, some ⟨scheduled userKey key.rdKey size (4 * (size.nr + 1)), size.nr⟩) := by
  cases size with
  | aes128 => exact congrArg (fun rd ↦ ((0 : ℤ), some (AesKey.mk rd 10))) (passes128_scheduled hops)
  | aes192 => exact congrArg (fun rd ↦ ((0 : ℤ), some (AesKey.mk rd 12))) (passes192_scheduled hops)
  | aes256 => exact congrArg (fun rd ↦ ((0 : ℤ), some (AesKey.mk rd 14))) (passes256_scheduled hops)

/-- The first ADDROUNDKEY, as `encrypt` makes it. -/
theorem getU32_xor_scheduled (input userKey : ℕ → Byte) (rd : ℕ → U32) (size : KeySize) {j : ℕ}
    (hj : j < 4) : getU32 input (4 * j) ^^^ scheduled userKey rd size (4 * (size.nr + 1)) j =
      (wordAt input (4 * j) ^^^ word size userKey j).be := by
  rw [getU32_eq, scheduled, stored_of_lt _ _ _ (by omega), Word.be_xor]

end Aes
