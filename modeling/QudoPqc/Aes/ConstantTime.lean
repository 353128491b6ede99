import QudoPqc.Aes.Schedule

/-!
# The constant-time back end

`qudo_fips_aes_ct.c`. The substitution reads the whole table and keeps the one entry by a mask; the
state is a local array of 16 bytes, which is the State of the standard column by column.
-/

namespace Aes

open Fips197
open Function (update update_of_ne update_self)

/-! ## The substitution -/

/-- `SBOX`. -/
def SBOX : List Byte := [
  0x63, 0x7c, 0x77, 0x7b, 0xf2, 0x6b, 0x6f, 0xc5, 0x30, 0x01, 0x67, 0x2b, 0xfe, 0xd7, 0xab, 0x76,
  0xca, 0x82, 0xc9, 0x7d, 0xfa, 0x59, 0x47, 0xf0, 0xad, 0xd4, 0xa2, 0xaf, 0x9c, 0xa4, 0x72, 0xc0,
  0xb7, 0xfd, 0x93, 0x26, 0x36, 0x3f, 0xf7, 0xcc, 0x34, 0xa5, 0xe5, 0xf1, 0x71, 0xd8, 0x31, 0x15,
  0x04, 0xc7, 0x23, 0xc3, 0x18, 0x96, 0x05, 0x9a, 0x07, 0x12, 0x80, 0xe2, 0xeb, 0x27, 0xb2, 0x75,
  0x09, 0x83, 0x2c, 0x1a, 0x1b, 0x6e, 0x5a, 0xa0, 0x52, 0x3b, 0xd6, 0xb3, 0x29, 0xe3, 0x2f, 0x84,
  0x53, 0xd1, 0x00, 0xed, 0x20, 0xfc, 0xb1, 0x5b, 0x6a, 0xcb, 0xbe, 0x39, 0x4a, 0x4c, 0x58, 0xcf,
  0xd0, 0xef, 0xaa, 0xfb, 0x43, 0x4d, 0x33, 0x85, 0x45, 0xf9, 0x02, 0x7f, 0x50, 0x3c, 0x9f, 0xa8,
  0x51, 0xa3, 0x40, 0x8f, 0x92, 0x9d, 0x38, 0xf5, 0xbc, 0xb6, 0xda, 0x21, 0x10, 0xff, 0xf3, 0xd2,
  0xcd, 0x0c, 0x13, 0xec, 0x5f, 0x97, 0x44, 0x17, 0xc4, 0xa7, 0x7e, 0x3d, 0x64, 0x5d, 0x19, 0x73,
  0x60, 0x81, 0x4f, 0xdc, 0x22, 0x2a, 0x90, 0x88, 0x46, 0xee, 0xb8, 0x14, 0xde, 0x5e, 0x0b, 0xdb,
  0xe0, 0x32, 0x3a, 0x0a, 0x49, 0x06, 0x24, 0x5c, 0xc2, 0xd3, 0xac, 0x62, 0x91, 0x95, 0xe4, 0x79,
  0xe7, 0xc8, 0x37, 0x6d, 0x8d, 0xd5, 0x4e, 0xa9, 0x6c, 0x56, 0xf4, 0xea, 0x65, 0x7a, 0xae, 0x08,
  0xba, 0x78, 0x25, 0x2e, 0x1c, 0xa6, 0xb4, 0xc6, 0xe8, 0xdd, 0x74, 0x1f, 0x4b, 0xbd, 0x8b, 0x8a,
  0x70, 0x3e, 0xb5, 0x66, 0x48, 0x03, 0xf6, 0x0e, 0x61, 0x35, 0x57, 0xb9, 0x86, 0xc1, 0x1d, 0x9e,
  0xe1, 0xf8, 0x98, 0x11, 0x69, 0xd9, 0x8e, 0x94, 0x9b, 0x1e, 0x87, 0xe9, 0xce, 0x55, 0x28, 0xdf,
  0x8c, 0xa1, 0x89, 0x0d, 0xbf, 0xe6, 0x42, 0x68, 0x41, 0x99, 0x2d, 0x0f, 0xb0, 0x54, 0xbb, 0x16]

/-- The body of the loop of `ct_sbox`. -/
def ctSboxStep (x result : Byte) (i : ℕ) : Byte :=
  let diff : U32 := x.setWidth 32 ^^^ BitVec.ofNat 32 i
  let mask : U32 := ((diff - 1) >>> 8) &&& 0xFF
  result ||| ((SBOX.getD i 0).setWidth 32 &&& mask).setWidth 8

/-- `ct_sbox`. -/
def ctSbox (x : Byte) : Byte := (List.range 256).foldl (ctSboxStep x) 0

/-- `ct_subword`. -/
def ctSubword (x : U32) : U32 :=
  ((ctSbox ((x >>> 24).setWidth 8)).setWidth 32 <<< 24) |||
    ((ctSbox ((x >>> 16).setWidth 8)).setWidth 32 <<< 16) |||
    ((ctSbox ((x >>> 8).setWidth 8)).setWidth 32 <<< 8) ||| (ctSbox (x.setWidth 8)).setWidth 32

/-- `ct_rotword`. -/
def ctRotword (x : U32) : U32 := (x <<< 8) ||| (x >>> 24)

/-- `rcon`. -/
def rcon : List U32 := [
  0x01000000, 0x02000000, 0x04000000, 0x08000000, 0x10000000,
  0x20000000, 0x40000000, 0x80000000, 0x1B000000, 0x36000000]

/-- The operations of this back end. -/
def ctOps : WordOps where
  rotSub r temp := r ^^^ ctSubword (ctRotword temp)
  sub r temp := r ^^^ ctSubword temp
  rcon := rcon

/-- `qudo_aes_ct_set_encrypt_key`. -/
def ctSetEncryptKey := setEncryptKey ctOps

/-- The table is the substitution of the standard. -/
theorem SBOX_eq : SBOX = (List.range 256).map fun n ↦ affine (BitVec.ofNat 8 (invNat n)) := by
  decide +kernel

theorem SBOX_getD (b : Byte) : SBOX.getD b.toNat 0 = sbox b := by
  rw [sbox_eq, getD_table SBOX_eq]

/-- The mask is set for the entry looked for. -/
theorem ctSboxStep_self (x result : Byte) :
    ctSboxStep x result x.toNat = result ||| SBOX.getD x.toNat 0 := by
  have hdiff : x.setWidth 32 ^^^ BitVec.ofNat 32 x.toNat = 0 := by
    rw [BitVec.ofNat_toNat, BitVec.xor_self]
    rfl
  have hmask : ∀ s : Byte, (s.setWidth 32 &&& (((0 - 1 : U32) >>> 8) &&& 0xFF)).setWidth 8 = s := by
    intro s
    have h : ∀ s : Byte,
        ((s.setWidth 32 &&& (((0 - 1 : U32) >>> 8) &&& 0xFF)).setWidth 8 == s) = true :=
      forall_byte (by decide +kernel)
    exact eq_of_beq (h s)
  rw [ctSboxStep, hdiff, hmask]

/-- A difference below 256 that is not zero gives an empty mask. -/
theorem shiftRight_sub_one {d : U32} (h0 : d ≠ 0#32) (hd : d.toNat < 256) :
    (d - 1) >>> 8 = 0#32 := by
  have hpos : d.toNat ≠ 0 := fun h ↦ h0 (BitVec.eq_of_toNat_eq h)
  have hsub : (d - 1).toNat = d.toNat - 1 := BitVec.toNat_sub_of_le (by
    rw [BitVec.le_def]
    exact Nat.pos_of_ne_zero hpos)
  apply BitVec.eq_of_toNat_eq
  rw [BitVec.toNat_ushiftRight, hsub, Nat.shiftRight_eq_div_pow, Nat.div_eq_of_lt (by omega)]
  rfl

/-- And it is clear for any other. -/
theorem ctSboxStep_of_ne {x : Byte} {i : ℕ} (hi : i < 256) (h : i ≠ x.toNat) (result : Byte) :
    ctSboxStep x result i = result := by
  have hlt : (x.setWidth 32 ^^^ BitVec.ofNat 32 i).toNat < 2 ^ 8 := by
    rw [BitVec.toNat_xor, BitVec.toNat_setWidth, BitVec.toNat_ofNat]
    exact Nat.xor_lt_two_pow (by omega) (by omega)
  have hne : x.setWidth 32 ^^^ BitVec.ofNat 32 i ≠ 0#32 := by
    rw [Ne, BitVec.xor_eq_zero_iff]
    intro heq
    have hnat := congrArg BitVec.toNat heq
    rw [BitVec.toNat_setWidth, BitVec.toNat_ofNat] at hnat
    omega
  rw [ctSboxStep, shiftRight_sub_one hne hlt]
  simp

theorem ctSbox_eq (x : Byte) : ctSbox x = sbox x := by
  -- after `n` entries the result is the entry looked for, once it has been passed
  have h : ∀ n ≤ 256, (List.range n).foldl (ctSboxStep x) 0 =
      if x.toNat < n then SBOX.getD x.toNat 0 else 0#8 := by
    intro n hn
    induction n with
    | zero => rfl
    | succ n ih =>
      rw [List.range_succ, List.foldl_append, ih (by omega), List.foldl_cons, List.foldl_nil]
      by_cases hx : n = x.toNat
      · rw [hx, ctSboxStep_self, if_neg (Nat.lt_irrefl _), if_pos (Nat.lt_succ_self _)]
        exact BitVec.zero_or
      · rw [ctSboxStep_of_ne (by omega) hx]
        exact if_congr (by omega) rfl rfl
  rw [ctSbox, h 256 (Nat.le_refl _), if_pos x.isLt, SBOX_getD]

theorem ctSubword_be (w : Word) : ctSubword w.be = (subWord w).be := by
  have hbyte : ctSubword w.be = Arith.ofBytes (ctSbox (Arith.byte w.be 3))
      (ctSbox (Arith.byte w.be 2)) (ctSbox (Arith.byte w.be 1)) (ctSbox (Arith.byte w.be 0)) :=
    Arith.or_eq_ofBytes _ _ _ _
  rw [hbyte, Word.be, Arith.byte_three_ofBytes, Arith.byte_two_ofBytes, Arith.byte_one_ofBytes,
    Arith.byte_zero_ofBytes, ctSbox_eq, ctSbox_eq, ctSbox_eq, ctSbox_eq]
  rfl

theorem ctRotword_be (w : Word) : ctRotword w.be = (rotWord w).be :=
  Arith.rotate_ofBytes _ _ _ _

theorem rcon_getD {i : ℕ} (hi : i < 10) : rcon.getD i 0 = (Fips197.rcon (i + 1)).be := by
  have h : ∀ i < 10, rcon.getD i 0 = (Fips197.rcon (i + 1)).be := by decide +kernel
  exact h i hi

theorem ctOps_correct : ctOps.Correct where
  rotSub v w := by
    rw [Word.be_xor, ← ctSubword_be, ← ctRotword_be]
    rfl
  sub v w := by
    rw [Word.be_xor, ← ctSubword_be]
    rfl
  rcon _ hi := rcon_getD hi

/-! ## Encryption -/

/-- `xtime`. -/
def xtime (x : Byte) : Byte :=
  ((x.setWidth 32 <<< 1) ^^^ (((x.setWidth 32 >>> 7) &&& 1) * 0x1b)).setWidth 8

/-- `state[off] = …` to `state[off + 3] = …`, the mixing of one column. -/
def ctMix (off : ℕ) (state : ℕ → Byte) : ℕ → Byte :=
  let s0 := state off
  let s1 := state (off + 1)
  let s2 := state (off + 2)
  let s3 := state (off + 3)
  let t := s0 ^^^ s1 ^^^ s2 ^^^ s3
  let state := update state off (s0 ^^^ xtime (s0 ^^^ s1) ^^^ t)
  let state := update state (off + 1) (s1 ^^^ xtime (s1 ^^^ s2) ^^^ t)
  let state := update state (off + 2) (s2 ^^^ xtime (s2 ^^^ s3) ^^^ t)
  update state (off + 3) (s3 ^^^ xtime (s3 ^^^ s0) ^^^ t)

/-- `state[0] = (u8)(w0 >> 24)` to `state[15] = (u8)(w3)`. -/
def ctBytes (w0 w1 w2 w3 : U32) : ℕ → Byte := fun i ↦
  [(w0 >>> 24).setWidth 8, (w0 >>> 16).setWidth 8, (w0 >>> 8).setWidth 8, w0.setWidth 8,
    (w1 >>> 24).setWidth 8, (w1 >>> 16).setWidth 8, (w1 >>> 8).setWidth 8, w1.setWidth 8,
    (w2 >>> 24).setWidth 8, (w2 >>> 16).setWidth 8, (w2 >>> 8).setWidth 8, w2.setWidth 8,
    (w3 >>> 24).setWidth 8, (w3 >>> 16).setWidth 8, (w3 >>> 8).setWidth 8, w3.setWidth 8].getD i 0

/-- `state[0] = tmp[0]` to `state[15] = tmp[11]`, in the order of the indices. -/
def ctShift (tmp : ℕ → Byte) : ℕ → Byte := fun i ↦
  [tmp 0, tmp 5, tmp 10, tmp 15, tmp 4, tmp 9, tmp 14, tmp 3,
    tmp 8, tmp 13, tmp 2, tmp 7, tmp 12, tmp 1, tmp 6, tmp 11].getD i 0

/-- The body of the loop over the rounds. -/
def ctRound (rk : ℕ → U32) (nr round : ℕ) (state : ℕ → Byte) : ℕ → Byte :=
  let tmp := fun i ↦ ctSbox (state i)
  let state := ctShift tmp
  let state := if round < nr then (List.range 4).foldl (fun s c ↦ ctMix (c * 4) s) state else state
  let k := ctBytes (rk (round * 4)) (rk (round * 4 + 1)) (rk (round * 4 + 2)) (rk (round * 4 + 3))
  fun i ↦ state i ^^^ k i

/-- The loop from `round = 1` to `round = n`. -/
def ctRounds (rk : ℕ → U32) (nr : ℕ) : ℕ → (ℕ → Byte) → ℕ → Byte
  | 0, state => state
  | n + 1, state => ctRound rk nr (n + 1) (ctRounds rk nr n state)

/-- `qudo_aes_ct_encrypt`: the 16 bytes of `out`. -/
def ctEncrypt (input : ℕ → Byte) (key : AesKey) : List Byte :=
  let rk := key.rdKey
  let w0 := getU32 input 0 ^^^ rk 0
  let w1 := getU32 input 4 ^^^ rk 1
  let w2 := getU32 input 8 ^^^ rk 2
  let w3 := getU32 input 12 ^^^ rk 3
  let state := ctRounds rk key.rounds key.rounds (ctBytes w0 w1 w2 w3)
  (List.range 16).map state

/-! ### The operations of a round -/

theorem xtime_eq (x : Byte) : xtime x = xTimes x := by
  have h : ∀ x : Byte, (xtime x == xTimes x) = true := forall_byte (by decide +kernel)
  exact eq_of_beq (h x)

/-- One byte of a mixed column, for the bytes of the column from this one on. -/
theorem mix_byte (s0 s1 s2 s3 : Byte) : s0 ^^^ xtime (s0 ^^^ s1) ^^^ (s0 ^^^ s1 ^^^ s2 ^^^ s3) =
    mul s0 2 ^^^ mul s1 3 ^^^ s2 ^^^ s3 := by
  have hcancel : ∀ x y : Byte, s0 ^^^ x ^^^ (s0 ^^^ y) = x ^^^ y := by
    intro x y
    rw [BitVec.xor_comm s0 x, BitVec.xor_assoc, ← BitVec.xor_assoc s0, BitVec.xor_self,
      BitVec.zero_xor]
  rw [mul_two, mul_three, xtime_eq, xTimes_xor]
  calc
    _ = s0 ^^^ (xTimes s0 ^^^ xTimes s1) ^^^ (s0 ^^^ (s1 ^^^ s2 ^^^ s3)) := by
      ac_rfl
    _ = xTimes s0 ^^^ xTimes s1 ^^^ (s1 ^^^ s2 ^^^ s3) := hcancel _ _
    _ = _ := by ac_rfl

section Mix

variable (off : ℕ) (state : ℕ → Byte)

/-- `ctMix` mixes the column at `off`. -/
theorem wordAt_ctMix_self : wordAt (ctMix off state) off =
    mixColumn (wordAt state off) := by
  -- the sum `t` of the column starts with another byte in each row
  have hrotate : ∀ a b c d : Byte, a ^^^ b ^^^ c ^^^ d = b ^^^ c ^^^ d ^^^ a := by
    intro a b c d
    ac_rfl
  apply Word.ext
  · change ctMix off state off = _
    rw [ctMix, update_of_ne (by omega), update_of_ne (by omega),
      update_of_ne (by omega), update_self, mix_byte]
    rfl
  · change ctMix off state (off + 1) = state off ^^^ mul (state (off + 1)) 2 ^^^
      mul (state (off + 2)) 3 ^^^ state (off + 3)
    rw [ctMix, update_of_ne (by omega), update_of_ne (by omega), update_self, hrotate, mix_byte]
    ac_rfl
  · change ctMix off state (off + 2) = state off ^^^ state (off + 1) ^^^
      mul (state (off + 2)) 2 ^^^ mul (state (off + 3)) 3
    rw [ctMix, update_of_ne (by omega), update_self, hrotate, hrotate, mix_byte]
    ac_rfl
  · change ctMix off state (off + 3) = mul (state off) 3 ^^^ state (off + 1) ^^^
      state (off + 2) ^^^ mul (state (off + 3)) 2
    rw [ctMix, update_self, hrotate, hrotate, hrotate, mix_byte]
    ac_rfl

/-- And it leaves the others. -/
theorem wordAt_ctMix_of_ne {a : ℕ} (h : a + 3 < off ∨ off + 3 < a) :
    wordAt (ctMix off state) a = wordAt state a := by
  have hbyte : ∀ i < 4, ctMix off state (a + i) = state (a + i) := by
    intro i hi
    rw [ctMix, update_of_ne (by omega), update_of_ne (by omega),
      update_of_ne (by omega), update_of_ne (by omega)]
  exact Word.ext (hbyte 0 (by decide)) (hbyte 1 (by decide)) (hbyte 2 (by decide))
    (hbyte 3 (by decide))

theorem stateAt_ctMix : stateAt ((List.range 4).foldl (fun s c ↦ ctMix (c * 4) s) state) =
    mixColumns (stateAt state) := by
  have hrange : List.range 4 = [0, 1, 2, 3] := rfl
  rw [hrange]
  simp only [List.foldl_cons, List.foldl_nil, Nat.reduceMul]
  apply State.ext
  · change wordAt _ 0 = _
    rw [wordAt_ctMix_of_ne _ _ (by decide), wordAt_ctMix_of_ne _ _ (by decide),
      wordAt_ctMix_of_ne _ _ (by decide), wordAt_ctMix_self]
    rfl
  · change wordAt _ 4 = _
    rw [wordAt_ctMix_of_ne _ _ (by decide), wordAt_ctMix_of_ne _ _ (by decide), wordAt_ctMix_self,
      wordAt_ctMix_of_ne _ _ (by decide)]
    rfl
  · change wordAt _ 8 = _
    rw [wordAt_ctMix_of_ne _ _ (by decide), wordAt_ctMix_self, wordAt_ctMix_of_ne _ _ (by decide),
      wordAt_ctMix_of_ne _ _ (by decide)]
    rfl
  · change wordAt _ 12 = _
    rw [wordAt_ctMix_self, wordAt_ctMix_of_ne _ _ (by decide), wordAt_ctMix_of_ne _ _ (by decide),
      wordAt_ctMix_of_ne _ _ (by decide)]
    rfl

end Mix

theorem stateAt_ctSbox (state : ℕ → Byte) :
    stateAt (fun i ↦ ctSbox (state i)) = subBytes (stateAt state) := by
  simp only [ctSbox_eq]
  rfl

theorem stateAt_ctBytes (w0 w1 w2 w3 : Word) :
    stateAt (ctBytes w0.be w1.be w2.be w3.be) = ⟨w0, w1, w2, w3⟩ :=
  State.ext w0.byte_be w1.byte_be w2.byte_be w3.byte_be

/-! ### The rounds -/

section Rounds

variable (userKey : ℕ → Byte) (rd : ℕ → U32) (size : KeySize)

/-- The bytes of the words of a round key. -/
theorem stateAt_roundKey {r : ℕ} (hr : r ≤ size.nr) :
    let rk := scheduled userKey rd size (4 * (size.nr + 1))
    stateAt (ctBytes (rk (r * 4)) (rk (r * 4 + 1)) (rk (r * 4 + 2)) (rk (r * 4 + 3))) =
      roundKey size userKey r := by
  dsimp only
  rw [scheduled, stored_of_lt _ _ _ (by omega), stored_of_lt _ _ _ (by omega),
    stored_of_lt _ _ _ (by omega), stored_of_lt _ _ _ (by omega), stateAt_ctBytes, Nat.mul_comm]
  rfl

/-- One pass of the loop: the mixing is left out in the last one. -/
theorem stateAt_ctRound {r : ℕ} (hr : r ≤ size.nr) (state : ℕ → Byte) :
    stateAt (ctRound (scheduled userKey rd size (4 * (size.nr + 1))) size.nr r state) =
      (if r < size.nr then mixColumns (shiftRows (subBytes (stateAt state)))
        else shiftRows (subBytes (stateAt state))) ^^^
      roundKey size userKey r := by
  have hshift : ∀ tmp : ℕ → Byte, stateAt (ctShift tmp) = shiftRows (stateAt tmp) :=
    fun _ ↦ rfl
  have hxor : ∀ s k : ℕ → Byte, stateAt (fun i ↦ s i ^^^ k i) = stateAt s ^^^ stateAt k :=
    fun _ _ ↦ rfl
  rw [ctRound, hxor, stateAt_roundKey userKey rd size hr]
  split
  · rw [stateAt_ctMix, hshift, stateAt_ctSbox]
  · rw [hshift, stateAt_ctSbox]

/-- The loop up to a round before the last one. -/
theorem stateAt_ctRounds {n : ℕ} (hn : n < size.nr) {state : ℕ → Byte} {s : State}
    (hstate : stateAt state = s ^^^ roundKey size userKey 0) :
    stateAt (ctRounds (scheduled userKey rd size (4 * (size.nr + 1))) size.nr n state) =
      rounds (roundKey size userKey) s n := by
  induction n with
  | zero => exact hstate
  | succ n ih =>
    rw [ctRounds, stateAt_ctRound _ _ _ (by omega), if_pos hn, ih (by omega)]
    rfl

/-- The whole loop. -/
theorem stateAt_ctRounds_nr {state : ℕ → Byte} {s : State}
    (hstate : stateAt state = s ^^^ roundKey size userKey 0) :
    stateAt (ctRounds (scheduled userKey rd size (4 * (size.nr + 1))) size.nr size.nr state) =
      cipher size.nr (roundKey size userKey) s := by
  have hpos : size.nr - 1 < size.nr := by
    cases size <;> decide
  -- the last pass of the loop is the last round of the cipher
  have hlast : ∀ rk, ctRounds rk size.nr size.nr state =
      ctRound rk size.nr size.nr (ctRounds rk size.nr (size.nr - 1) state) := by
    intro rk
    cases size <;> rfl
  rw [hlast, stateAt_ctRound _ _ _ (Nat.le_refl _), if_neg (Nat.lt_irrefl _),
    stateAt_ctRounds _ _ _ hpos hstate, cipher]

/-- Encryption with a stored schedule is the cipher. -/
theorem ctEncrypt_scheduled (input : ℕ → Byte) :
    ctEncrypt input ⟨scheduled userKey rd size (4 * (size.nr + 1)), size.nr⟩ =
      aes size userKey input := by
  have hfirst := fun j ↦ getU32_xor_scheduled input userKey rd size (j := j)
  have hstart := stateAt_ctBytes (wordAt input 0 ^^^ word size userKey 0)
    (wordAt input 4 ^^^ word size userKey 1)
    (wordAt input 8 ^^^ word size userKey 2)
    (wordAt input 12 ^^^ word size userKey 3)
  rw [← hfirst 0 (by decide), ← hfirst 1 (by decide), ← hfirst 2 (by decide),
    ← hfirst 3 (by decide)] at hstart
  have hlist : ∀ state : ℕ → Byte, (List.range 16).map state = (stateAt state).toList := fun _ ↦ rfl
  rw [ctEncrypt, hlist, aes, ← stateAt_ctRounds_nr userKey rd size hstart]

end Rounds

end Aes
