import QudoPqc.Aes.Schedule

/-!
# The back end with AES instructions

`qudo_fips_aes_ni.c`, over the definitions Intel gives of the instructions. A register is its four
doublewords, and a round key is stored as it stands in a register, so the words of this schedule
are the little-endian ones.

The schedule for 192 bits fills three registers from two groups of six words. It loads the last
two words of the key together with the eight bytes after it, and carries two doublewords in the
upper half of `temp2` that belong to no word; `sixth` says which half of the register counts.
-/

namespace Aes

open Fips197
open Word (le le_xor)


/-! ## The instructions -/

/-- The bytes of a doubleword, the least significant one first. -/
def ofLe (x : U32) : Word := ⟨Arith.byte x 0, Arith.byte x 1, Arith.byte x 2, Arith.byte x 3⟩

@[simp] theorem ofLe_le (w : Word) : ofLe w.le = w := by
  rw [ofLe, le, Arith.byte_zero_ofBytes, Arith.byte_one_ofBytes, Arith.byte_two_ofBytes,
    Arith.byte_three_ofBytes]

namespace Quad

/-- `_mm_xor_si128`. -/
instance : XorOp Quad := ⟨fun a b ↦ ⟨a.x0 ^^^ b.x0, a.x1 ^^^ b.x1, a.x2 ^^^ b.x2, a.x3 ^^^ b.x3⟩⟩

variable (a b : Quad)

@[simp] theorem xor_x0 : (a ^^^ b).x0 = a.x0 ^^^ b.x0 := rfl

@[simp] theorem xor_x1 : (a ^^^ b).x1 = a.x1 ^^^ b.x1 := rfl

@[simp] theorem xor_x2 : (a ^^^ b).x2 = a.x2 ^^^ b.x2 := rfl

@[simp] theorem xor_x3 : (a ^^^ b).x3 = a.x3 ^^^ b.x3 := rfl

/-- The doubleword an immediate of two bits selects. -/
def lane (i : ℕ) : U32 :=
  match i with
  | 0 => a.x0
  | 1 => a.x1
  | 2 => a.x2
  | _ => a.x3

/-- The State in a register. -/
def toState : State := ⟨ofLe a.x0, ofLe a.x1, ofLe a.x2, ofLe a.x3⟩

end Quad

@[simp] theorem toState_encode (s : State) : (s.encode le).toState = s := by
  rw [State.encode, Quad.toState, ofLe_le, ofLe_le, ofLe_le, ofLe_le]

theorem encode_xor (s t : State) :
    (s ^^^ t).encode le = s.encode le ^^^ t.encode le :=
  Quad.ext (le_xor _ _) (le_xor _ _) (le_xor _ _) (le_xor _ _)

/-- `_mm_loadu_si128`. -/
def loadu (m : ℕ → Byte) (a : ℕ) : Quad :=
  ⟨(wordAt m a).le, (wordAt m (a + 4)).le, (wordAt m (a + 8)).le, (wordAt m (a + 12)).le⟩

/-- `_mm_storeu_si128`: the 16 bytes. -/
def storeu (a : Quad) : List Byte := a.toState.toList

/-- `_mm_slli_si128(a, 0x4)`. -/
def slliSi128 (a : Quad) : Quad := ⟨0, a.x0, a.x1, a.x2⟩

/-- `_mm_shuffle_epi32`. -/
def shuffleEpi32 (a : Quad) (imm : ℕ) : Quad :=
  ⟨a.lane (imm % 4), a.lane (imm / 4 % 4), a.lane (imm / 16 % 4), a.lane (imm / 64 % 4)⟩

/-- `_mm_shuffle_pd`, with the casts. -/
def shufflePd (a b : Quad) (imm : ℕ) : Quad :=
  let low := if imm % 2 = 0 then (a.x0, a.x1) else (a.x2, a.x3)
  let high := if imm / 2 % 2 = 0 then (b.x0, b.x1) else (b.x2, b.x3)
  ⟨low.1, low.2, high.1, high.2⟩

/-- `SubWord` of a doubleword. -/
def subDword (x : U32) : U32 := (subWord (ofLe x)).le

/-- `RotWord` of a doubleword. -/
def rotDword (x : U32) : U32 := (rotWord (ofLe x)).le

/-- `_mm_aeskeygenassist_si128`. -/
def aeskeygenassist (a : Quad) (rcon : Byte) : Quad :=
  ⟨subDword a.x1, rotDword (subDword a.x1) ^^^ rcon.setWidth 32,
    subDword a.x3, rotDword (subDword a.x3) ^^^ rcon.setWidth 32⟩

/-- `_mm_aesenc_si128`. -/
def aesenc (a roundKey : Quad) : Quad :=
  (mixColumns (subBytes (shiftRows a.toState))).encode le ^^^ roundKey

/-- `_mm_aesenclast_si128`. -/
def aesenclast (a roundKey : Quad) : Quad :=
  (subBytes (shiftRows a.toState)).encode le ^^^ roundKey

/-! ## The code -/

/-- `rk[i]`, for `rk = (__m128i *)key->rd_key`. -/
def loadRk (rd : ℕ → U32) (i : ℕ) : Quad :=
  ⟨rd (4 * i), rd (4 * i + 1), rd (4 * i + 2), rd (4 * i + 3)⟩

/-- `rk[i] = a`. -/
def storeRk (rd : ℕ → U32) (i : ℕ) (a : Quad) : ℕ → U32 :=
  Function.update (Function.update (Function.update (Function.update rd (4 * i) a.x0)
    (4 * i + 1) a.x1) (4 * i + 2) a.x2) (4 * i + 3) a.x3

/-- The register xored with itself shifted by one, two and three doublewords: the lines that the
functions `aes_128_assist` to `aes_256_assist_2` share. -/
def xorShifts (temp1 : Quad) : Quad :=
  let temp4 := slliSi128 temp1
  let temp1 := temp1 ^^^ temp4
  let temp4 := slliSi128 temp4
  let temp1 := temp1 ^^^ temp4
  let temp4 := slliSi128 temp4
  temp1 ^^^ temp4

/-- `aes_128_assist`. -/
def aes128Assist (temp1 temp2 : Quad) : Quad :=
  let temp2 := shuffleEpi32 temp2 0xff
  xorShifts temp1 ^^^ temp2

/-- `aes_192_assist`: the new `temp1` and `temp2`. -/
def aes192Assist (temp1 temp2 temp3 : Quad) : Quad × Quad :=
  let temp3 := shuffleEpi32 temp3 0x55
  let temp1 := xorShifts temp1 ^^^ temp3
  let temp3 := shuffleEpi32 temp1 0xff
  let temp4 := slliSi128 temp2
  let temp2 := temp2 ^^^ temp4
  (temp1, temp2 ^^^ temp3)

/-- `aes_256_assist_1`: the new `temp1`. -/
def aes256Assist1 (temp1 temp2 : Quad) : Quad :=
  let temp2 := shuffleEpi32 temp2 0xff
  xorShifts temp1 ^^^ temp2

/-- `aes_256_assist_2`: the new `temp3`. -/
def aes256Assist2 (temp1 temp3 : Quad) : Quad :=
  let temp4 := aeskeygenassist temp1 0x0
  let temp2 := shuffleEpi32 temp4 0xaa
  xorShifts temp3 ^^^ temp2

/-- The round keys stored so far and the two registers of the schedule. -/
structure NiState where
  rk : ℕ → U32
  temp1 : Quad
  temp2 : Quad

/-- `rk[i] = temp1 = aes_128_assist(temp1, _mm_aeskeygenassist_si128(temp1, rcon))`. -/
def niStep128 (rcon : Byte) (i : ℕ) (st : (ℕ → U32) × Quad) : (ℕ → U32) × Quad :=
  let temp1 := aes128Assist st.2 (aeskeygenassist st.2 rcon)
  (storeRk st.1 i temp1, temp1)

/-- The schedule for 128 bits. -/
def niSchedule128 (userKey : ℕ → Byte) (rd : ℕ → U32) : ℕ → U32 :=
  let temp1 := loadu userKey 0
  let st := (storeRk rd 0 temp1, temp1)
  let st := niStep128 0x01 1 st
  let st := niStep128 0x02 2 st
  let st := niStep128 0x04 3 st
  let st := niStep128 0x08 4 st
  let st := niStep128 0x10 5 st
  let st := niStep128 0x20 6 st
  let st := niStep128 0x40 7 st
  let st := niStep128 0x80 8 st
  let st := niStep128 0x1b 9 st
  (niStep128 0x36 10 st).1

/-- The lines for 192 bits that complete the register `rk[i]` and store the next one. -/
def niStep192Odd (rcon : Byte) (i : ℕ) (st : NiState) : NiState :=
  let temp3 := aeskeygenassist st.temp2 rcon
  let (temp1, temp2) := aes192Assist st.temp1 st.temp2 temp3
  let rk := storeRk st.rk i (shufflePd (loadRk st.rk i) temp1 0)
  let rk := storeRk rk (i + 1) (shufflePd temp1 temp2 1)
  ⟨rk, temp1, temp2⟩

/-- The lines for 192 bits that store both registers, the second one half filled. -/
def niStep192Even (rcon : Byte) (i : ℕ) (st : NiState) : NiState :=
  let temp3 := aeskeygenassist st.temp2 rcon
  let (temp1, temp2) := aes192Assist st.temp1 st.temp2 temp3
  let rk := storeRk st.rk i temp1
  let rk := storeRk rk (i + 1) temp2
  ⟨rk, temp1, temp2⟩

/-- The schedule for 192 bits. -/
def niSchedule192 (userKey : ℕ → Byte) (rd : ℕ → U32) : ℕ → U32 :=
  let temp1 := loadu userKey 0
  let temp2 := loadu userKey 16
  let st : NiState := ⟨storeRk (storeRk rd 0 temp1) 1 temp2, temp1, temp2⟩
  let st := niStep192Odd 0x1 1 st
  let st := niStep192Even 0x2 3 st
  let st := niStep192Odd 0x4 4 st
  let st := niStep192Even 0x8 6 st
  let st := niStep192Odd 0x10 7 st
  let st := niStep192Even 0x20 9 st
  let st := niStep192Odd 0x40 10 st
  let temp3 := aeskeygenassist st.temp2 0x80
  let (temp1, _) := aes192Assist st.temp1 st.temp2 temp3
  storeRk st.rk 12 temp1

/-- The lines for 256 bits; `temp2` of the state is the `temp3` of the code. -/
def niStep256 (rcon : Byte) (i : ℕ) (st : NiState) : NiState :=
  let temp1 := aes256Assist1 st.temp1 (aeskeygenassist st.temp2 rcon)
  let rk := storeRk st.rk i temp1
  let temp3 := aes256Assist2 temp1 st.temp2
  let rk := storeRk rk (i + 1) temp3
  ⟨rk, temp1, temp3⟩

/-- The schedule for 256 bits. -/
def niSchedule256 (userKey : ℕ → Byte) (rd : ℕ → U32) : ℕ → U32 :=
  let temp1 := loadu userKey 0
  let temp3 := loadu userKey 16
  let st : NiState := ⟨storeRk (storeRk rd 0 temp1) 1 temp3, temp1, temp3⟩
  let st := niStep256 0x01 2 st
  let st := niStep256 0x02 4 st
  let st := niStep256 0x04 6 st
  let st := niStep256 0x08 8 st
  let st := niStep256 0x10 10 st
  let st := niStep256 0x20 12 st
  let temp1 := aes256Assist1 st.temp1 (aeskeygenassist st.temp2 0x40)
  storeRk st.rk 14 temp1

/-- `qudo_aes_ni_set_encrypt_key`. -/
def niSetEncryptKey (userKey : Option (ℕ → Byte)) (bits : ℤ) (key : Option AesKey) :
    ℤ × Option AesKey :=
  match userKey, key with
  | some userKey, some key =>
    if bits ≠ 128 ∧ bits ≠ 192 ∧ bits ≠ 256 then (-2, some key)
    else if bits = 128 then (0, some ⟨niSchedule128 userKey key.rdKey, 10⟩)
    else if bits = 192 then (0, some ⟨niSchedule192 userKey key.rdKey, 12⟩)
    else (0, some ⟨niSchedule256 userKey key.rdKey, 14⟩)
  | _, _ => (-1, key)

/-- `qudo_aes_ni_encrypt`: the 16 bytes of `out`. -/
def niEncrypt (input : ℕ → Byte) (key : AesKey) : List Byte :=
  let rk := loadRk key.rdKey
  let nr := key.rounds
  let block := loadu input 0
  let block := block ^^^ rk 0
  let block := [1, 2, 3, 4, 5, 6, 7, 8, 9].foldl (fun b i ↦ aesenc b (rk i)) block
  let block := if nr > 10 then [10, 11].foldl (fun b i ↦ aesenc b (rk i)) block else block
  let block := if nr > 12 then [12, 13].foldl (fun b i ↦ aesenc b (rk i)) block else block
  let block := aesenclast block (rk nr)
  storeu block

/-! ## The schedules -/

/-- A register with one doubleword in all places. -/
def broadcast (x : U32) : Quad := ⟨x, x, x, x⟩

theorem rcon_setWidth (rcon : Byte) : rcon.setWidth 32 = (⟨rcon, 0, 0, 0⟩ : Word).le := by
  apply Arith.eq_ofBytes <;> rw [Arith.byte_setWidth] <;> rfl

/-- What the instruction adds to the first word of a group. -/
theorem rotDword_xor (v : Word) (rcon : Byte) : rotDword (subDword v.le) ^^^ rcon.setWidth 32 =
    (subWord (rotWord v) ^^^ ⟨rcon, 0, 0, 0⟩).le := by
  rw [rcon_setWidth, le_xor, rotDword, subDword, ofLe_le, ofLe_le]
  rfl

section Assist

variable {a : Quad} {v : Word} (rcon : Byte)

theorem shuffle_assist_3 (h : a.x3 = v.le) : shuffleEpi32 (aeskeygenassist a rcon) 0xff =
    broadcast (subWord (rotWord v) ^^^ ⟨rcon, 0, 0, 0⟩).le := by
  rw [← rotDword_xor, ← h]
  rfl

theorem shuffle_assist_1 (h : a.x1 = v.le) : shuffleEpi32 (aeskeygenassist a rcon) 0x55 =
    broadcast (subWord (rotWord v) ^^^ ⟨rcon, 0, 0, 0⟩).le := by
  rw [← rotDword_xor, ← h]
  rfl

theorem shuffle_assist_2 (h : a.x3 = v.le) : shuffleEpi32 (aeskeygenassist a rcon) 0xaa =
    broadcast (subWord v).le := by
  rw [← ofLe_le v, ← h]
  rfl

end Assist

section Lanes

variable (w : ℕ → Word) (rd : ℕ → U32)

/-- Four consecutive words in a register. -/
def lanes (o : ℕ) : Quad := ⟨(w o).le, (w (o + 1)).le, (w (o + 2)).le, (w (o + 3)).le⟩

variable {w}

/-- The next four words from the four words `w o`, … and from what is added to the first one. -/
theorem xorShifts_lanes {o o' : ℕ} {g : Word} (h0 : w o' = w o ^^^ g)
    (h1 : w (o' + 1) = w (o + 1) ^^^ w o') (h2 : w (o' + 2) = w (o + 2) ^^^ w (o' + 1))
    (h3 : w (o' + 3) = w (o + 3) ^^^ w (o' + 2)) :
    xorShifts (lanes w o) ^^^ broadcast g.le = lanes w o' := by
  rw [h2, h1, h0] at h3
  rw [h1, h0] at h2
  rw [h0] at h1
  have hzero : ∀ x : U32, x ^^^ 0 = x := fun _ ↦ BitVec.xor_zero
  apply Quad.ext
  · change (w o).le ^^^ 0 ^^^ 0 ^^^ 0 ^^^ g.le = (w o').le
    rw [h0, le_xor, hzero, hzero, hzero]
  · change (w (o + 1)).le ^^^ (w o).le ^^^ 0 ^^^ 0 ^^^ g.le = (w (o' + 1)).le
    rw [h1, le_xor, le_xor, hzero, hzero, BitVec.xor_assoc]
  · change (w (o + 2)).le ^^^ (w (o + 1)).le ^^^ (w o).le ^^^ 0 ^^^ g.le = (w (o' + 2)).le
    rw [h2, le_xor, le_xor, le_xor, hzero, BitVec.xor_assoc, BitVec.xor_assoc]
  · change (w (o + 3)).le ^^^ (w (o + 2)).le ^^^ (w (o + 1)).le ^^^ (w o).le ^^^ g.le =
      (w (o' + 3)).le
    rw [h3, le_xor, le_xor, le_xor, le_xor, BitVec.xor_assoc, BitVec.xor_assoc, BitVec.xor_assoc]

theorem storeRk_stored (i : ℕ) : storeRk (stored le w rd (4 * i)) i (lanes w (4 * i)) =
    stored le w rd (4 * (i + 1)) := by
  rw [storeRk, lanes]
  dsimp only
  rw [update_stored _ _ _ rfl, update_stored _ _ _ rfl, update_stored _ _ _ rfl,
    update_stored _ _ _ rfl]
  rfl

theorem storeRk_storeRk (i : ℕ) (a b : Quad) : storeRk (storeRk rd i a) i b = storeRk rd i b := by
  funext j
  simp only [storeRk, Function.update_apply]
  grind

theorem loadRk_storeRk (i : ℕ) (a : Quad) : loadRk (storeRk rd i a) i = a := by
  simp [loadRk, storeRk]

end Lanes

section Schedules

variable (userKey : ℕ → Byte) (rd : ℕ → U32)

/-- The schedule of a key as this back end stores it. -/
def niScheduled (size : KeySize) (m : ℕ) : ℕ → U32 :=
  stored le (word size userKey) rd m

theorem loadu_lanes (size : KeySize) {o : ℕ} (h : o + 3 < size.nk) :
    loadu userKey (4 * o) = lanes (word size userKey) o := by
  rw [lanes, word_of_lt _ _ (by omega), word_of_lt _ _ (by omega),
    word_of_lt _ _ (by omega), word_of_lt _ _ h]
  rfl

/-- The first word of a group, with the round constant as a byte. -/
theorem word_group (size : KeySize) {n : ℕ} {rcon : Byte}
    (hrcon : Fips197.rcon (n + 1) = ⟨rcon, 0, 0, 0⟩) :
    word size userKey (size.nk * n + size.nk) = word size userKey (size.nk * n) ^^^
      (subWord (rotWord (word size userKey (size.nk * n + size.nk - 1))) ^^^
        ⟨rcon, 0, 0, 0⟩) := by
  rw [word_head, hrcon]

/-! ### 128 bits -/

theorem niStep128_scheduled (n : ℕ) (rcon : Byte)
    (hrcon : Fips197.rcon (n + 1) = ⟨rcon, 0, 0, 0⟩) :
    niStep128 rcon (n + 1) (niScheduled userKey rd .aes128 (4 * (n + 1)),
        lanes (word .aes128 userKey) (4 * n)) =
      (niScheduled userKey rd .aes128 (4 * (n + 2)),
        lanes (word .aes128 userKey) (4 * (n + 1))) := by
  have hnext := @word_next .aes128 userKey n
  have hlanes : aes128Assist (lanes (word .aes128 userKey) (4 * n))
      (aeskeygenassist (lanes (word .aes128 userKey) (4 * n)) rcon) =
      lanes (word .aes128 userKey) (4 * (n + 1)) := by
    rw [aes128Assist, shuffle_assist_3 rcon rfl]
    exact xorShifts_lanes (word_group userKey .aes128 hrcon)
      (hnext 1) (hnext 2) (hnext 3)
  rw [niStep128, hlanes, niScheduled, storeRk_stored]
  rfl

/-- The first register of every schedule. -/
theorem storeRk_first (size : KeySize) : storeRk rd 0 (loadu userKey 0) =
    niScheduled userKey rd size 4 := by
  have hfirst : loadu userKey 0 = lanes (word size userKey) 0 :=
    loadu_lanes userKey size (o := 0) (by cases size <;> decide)
  rw [hfirst]
  nth_rewrite 1 [← stored_zero le (word size userKey) rd]
  exact storeRk_stored rd 0

theorem niSchedule128_eq : niSchedule128 userKey rd = niScheduled userKey rd .aes128 44 := by
  have step := niStep128_scheduled userKey rd
  have hload : loadu userKey 0 = lanes (word .aes128 userKey) (4 * 0) :=
    loadu_lanes userKey .aes128 (o := 0) (by decide)
  rw [niSchedule128, storeRk_first userKey rd .aes128, hload]
  rw [step 0 0x01 (by decide), step 1 0x02 (by decide), step 2 0x04 (by decide),
    step 3 0x08 (by decide), step 4 0x10 (by decide), step 5 0x20 (by decide),
    step 6 0x40 (by decide), step 7 0x80 (by decide), step 8 0x1b (by decide),
    step 9 0x36 (by decide)]

/-! ### 256 bits -/

/-- The registers after the words of group `n`. -/
def Ni256At (n : ℕ) : NiState :=
  ⟨niScheduled userKey rd .aes256 (4 * (2 * n + 2)), lanes (word .aes256 userKey) (8 * n),
    lanes (word .aes256 userKey) (8 * n + 4)⟩

theorem aes256Assist1_lanes {n : ℕ} {rcon : Byte}
    (hrcon : Fips197.rcon (n + 1) = ⟨rcon, 0, 0, 0⟩) :
    aes256Assist1 (lanes (word .aes256 userKey) (8 * n))
        (aeskeygenassist (lanes (word .aes256 userKey) (8 * n + 4)) rcon) =
      lanes (word .aes256 userKey) (8 * n + 8) := by
  have hnext := @word_next .aes256 userKey n
  rw [aes256Assist1, shuffle_assist_3 rcon rfl]
  exact xorShifts_lanes (word_group userKey .aes256 hrcon)
    (hnext 1) (hnext 2) (hnext 3)

theorem aes256Assist2_lanes (n : ℕ) :
    aes256Assist2 (lanes (word .aes256 userKey) (8 * n + 8))
        (lanes (word .aes256 userKey) (8 * n + 4)) =
      lanes (word .aes256 userKey) (8 * n + 12) := by
  have hnext := @word_next .aes256 userKey n
  rw [aes256Assist2, shuffle_assist_2 0x0 rfl]
  exact xorShifts_lanes (word_middle userKey n)
    (hnext 5) (hnext 6) (hnext 7)

theorem niStep256_at (n : ℕ) (rcon : Byte) (hrcon : Fips197.rcon (n + 1) = ⟨rcon, 0, 0, 0⟩) :
    niStep256 rcon (2 * n + 2) (Ni256At userKey rd n) = Ni256At userKey rd (n + 1) := by
  have height : 8 * n + 8 = 4 * (2 * n + 2) := by omega
  have htwelve : 8 * n + 12 = 4 * (2 * n + 3) := by omega
  have h1 := aes256Assist1_lanes userKey hrcon
  have h2 := aes256Assist2_lanes userKey n
  rw [height] at h1 h2
  rw [htwelve] at h2
  rw [niStep256, Ni256At, h1, h2, niScheduled, storeRk_stored, storeRk_stored, Ni256At]
  congr 2
  all_goals omega

theorem niSchedule256_eq : niSchedule256 userKey rd = niScheduled userKey rd .aes256 60 := by
  have step := niStep256_at userKey rd
  have hstart : (⟨storeRk (storeRk rd 0 (loadu userKey 0)) 1 (loadu userKey 16), loadu userKey 0,
      loadu userKey 16⟩ : NiState) = Ni256At userKey rd 0 := by
    have h0 : loadu userKey 0 = lanes (word .aes256 userKey) 0 :=
      loadu_lanes userKey .aes256 (o := 0) (by decide)
    have h4 : loadu userKey 16 = lanes (word .aes256 userKey) 4 :=
      loadu_lanes userKey .aes256 (o := 4) (by decide)
    rw [storeRk_first userKey rd .aes256, h0, h4]
    exact congrArg (fun rk ↦ (⟨rk, _, _⟩ : NiState)) (storeRk_stored rd 1)
  rw [niSchedule256, hstart, step 0 0x01 (by decide), step 1 0x02 (by decide),
    step 2 0x04 (by decide), step 3 0x08 (by decide), step 4 0x10 (by decide),
    step 5 0x20 (by decide)]
  have hlast := aes256Assist1_lanes userKey (n := 6)
    (show Fips197.rcon 7 = ⟨0x40, 0, 0, 0⟩ by decide)
  exact (congrArg (storeRk _ 14) hlast).trans (storeRk_stored rd 14)

/-! ### 192 bits -/

/-- The lower half of a register holds the last two words of a group of six; nothing is said about
the upper half. -/
def Sixth (n : ℕ) (temp2 : Quad) : Prop :=
  temp2.x0 = (word .aes192 userKey (6 * n + 4)).le ∧
    temp2.x1 = (word .aes192 userKey (6 * n + 5)).le

/-- The registers and the stored words after group `n`, where the next register to store starts
with the words of a new group. -/
structure Ni192Full (n : ℕ) (st : NiState) : Prop where
  temp1 : st.temp1 = lanes (word .aes192 userKey) (6 * n)
  temp2 : Sixth userKey n st.temp2
  rk : st.rk = niScheduled userKey rd .aes192 (6 * n + 6)

/-- The registers and the stored words after group `n`, where the last register stored, which is
register `i`, is filled by half. -/
structure Ni192Half (n i : ℕ) (st : NiState) : Prop where
  temp1 : st.temp1 = lanes (word .aes192 userKey) (6 * n)
  temp2 : Sixth userKey n st.temp2
  index : 4 * i = 6 * n + 4
  rk : st.rk = storeRk (niScheduled userKey rd .aes192 (6 * n + 4)) i st.temp2

variable {userKey rd}

theorem aes192Assist_lanes {n : ℕ} {rcon : Byte} (hrcon : Fips197.rcon (n + 1) = ⟨rcon, 0, 0, 0⟩)
    {temp1 temp2 : Quad} (h1 : temp1 = lanes (word .aes192 userKey) (6 * n))
    (h2 : Sixth userKey n temp2) :
    (aes192Assist temp1 temp2 (aeskeygenassist temp2 rcon)).1 =
        lanes (word .aes192 userKey) (6 * (n + 1)) ∧
      Sixth userKey (n + 1) (aes192Assist temp1 temp2 (aeskeygenassist temp2 rcon)).2 := by
  have hnext := @word_next .aes192 userKey n
  have hlanes : (aes192Assist temp1 temp2 (aeskeygenassist temp2 rcon)).1 =
      lanes (word .aes192 userKey) (6 * (n + 1)) := by
    rw [aes192Assist, shuffle_assist_1 rcon h2.2, h1]
    exact xorShifts_lanes (word_group userKey .aes192 hrcon)
      (hnext 1) (hnext 2) (hnext 3)
  have hupper : (aes192Assist temp1 temp2 (aeskeygenassist temp2 rcon)).2 = temp2 ^^^
      slliSi128 temp2 ^^^ broadcast (lanes (word .aes192 userKey) (6 * (n + 1))).x3 := by
    rw [← hlanes]
    rfl
  have h4 : word .aes192 userKey (6 * (n + 1) + 4) =
      word .aes192 userKey (6 * n + 4) ^^^
        word .aes192 userKey (6 * (n + 1) + 3) :=
    hnext 4
  have h5 : word .aes192 userKey (6 * (n + 1) + 5) =
      word .aes192 userKey (6 * n + 5) ^^^
        word .aes192 userKey (6 * (n + 1) + 4) :=
    hnext 5
  rw [hupper]
  refine ⟨hlanes, ?_, ?_⟩
  · change temp2.x0 ^^^ 0#32 ^^^ (word .aes192 userKey (6 * (n + 1) + 3)).le = _
    rw [BitVec.xor_zero, h2.1, h4, le_xor]
  · change temp2.x1 ^^^ temp2.x0 ^^^ (word .aes192 userKey (6 * (n + 1) + 3)).le = _
    rw [h2.1, h2.2, h5, h4, le_xor, le_xor, BitVec.xor_assoc]

theorem Ni192Half.step {n i : ℕ} {st : NiState} (h : Ni192Half userKey rd n i st) {rcon : Byte}
    (hrcon : Fips197.rcon (n + 1) = ⟨rcon, 0, 0, 0⟩) :
    Ni192Full userKey rd (n + 1) (niStep192Odd rcon i st) := by
  obtain ⟨h1, h2⟩ := aes192Assist_lanes hrcon h.temp1 h.temp2
  refine ⟨h1, h2, ?_⟩
  -- the upper half of `rk[i]`, which came from `temp2`, is replaced
  have hlow : shufflePd (loadRk st.rk i)
      (aes192Assist st.temp1 st.temp2 (aeskeygenassist st.temp2 rcon)).1 0 =
      lanes (word .aes192 userKey) (4 * i) := by
    rw [h.rk, loadRk_storeRk, h1, h.index]
    exact Quad.ext h.temp2.1 h.temp2.2 rfl rfl
  have hindex : 4 * (i + 1) = 6 * (n + 1) + 2 := by
    have := h.index
    omega
  have hhigh : shufflePd (aes192Assist st.temp1 st.temp2 (aeskeygenassist st.temp2 rcon)).1
      (aes192Assist st.temp1 st.temp2 (aeskeygenassist st.temp2 rcon)).2 1 =
      lanes (word .aes192 userKey) (4 * (i + 1)) := by
    rw [h1, hindex]
    exact Quad.ext rfl rfl h2.1 h2.2
  have hwords : 6 * (n + 1) + 6 = 4 * (i + 1 + 1) := by
    have := h.index
    omega
  rw [niStep192Odd]
  dsimp only
  rw [hlow, hhigh, h.rk, storeRk_storeRk, niScheduled, ← h.index, storeRk_stored, storeRk_stored,
    hwords]
  rfl

theorem Ni192Full.step {n i : ℕ} {st : NiState} (h : Ni192Full userKey rd n st)
    (hi : 4 * i = 6 * n + 6) {rcon : Byte} (hrcon : Fips197.rcon (n + 1) = ⟨rcon, 0, 0, 0⟩) :
    Ni192Half userKey rd (n + 1) (i + 1) (niStep192Even rcon i st) := by
  obtain ⟨h1, h2⟩ := aes192Assist_lanes hrcon h.temp1 h.temp2
  refine ⟨h1, h2, by omega, ?_⟩
  have hgroup : 6 * (n + 1) = 4 * i := by omega
  rw [niStep192Even]
  dsimp only
  rw [h1, hgroup, h.rk, ← hi, niScheduled, storeRk_stored]
  rfl

theorem niSchedule192_eq : niSchedule192 userKey rd = niScheduled userKey rd .aes192 52 := by
  have hstart : Ni192Half userKey rd 0 1 ⟨storeRk (storeRk rd 0 (loadu userKey 0)) 1
      (loadu userKey 16), loadu userKey 0, loadu userKey 16⟩ := by
    refine ⟨loadu_lanes userKey .aes192 (o := 0) (by decide), ⟨?_, ?_⟩, rfl, ?_⟩
    · rw [word_of_lt _ _ (by decide)]
      rfl
    · rw [word_of_lt _ _ (by decide)]
      rfl
    · rw [storeRk_first userKey rd .aes192]
  have h1 := hstart.step (show Fips197.rcon 1 = ⟨0x1, 0, 0, 0⟩ by decide)
  have h2 := h1.step (i := 3) rfl (show Fips197.rcon 2 = ⟨0x2, 0, 0, 0⟩ by decide)
  have h3 := h2.step (show Fips197.rcon 3 = ⟨0x4, 0, 0, 0⟩ by decide)
  have h4 := h3.step (i := 6) rfl (show Fips197.rcon 4 = ⟨0x8, 0, 0, 0⟩ by decide)
  have h5 := h4.step (show Fips197.rcon 5 = ⟨0x10, 0, 0, 0⟩ by decide)
  have h6 := h5.step (i := 9) rfl (show Fips197.rcon 6 = ⟨0x20, 0, 0, 0⟩ by decide)
  have h7 := h6.step (show Fips197.rcon 7 = ⟨0x40, 0, 0, 0⟩ by decide)
  have hlast := (aes192Assist_lanes (show Fips197.rcon 8 = ⟨0x80, 0, 0, 0⟩ by decide) h7.temp1
    h7.temp2).1
  refine Eq.trans (congrArg (storeRk _ 12) hlast) ?_
  rw [h7.rk]
  exact storeRk_stored rd 12

end Schedules

/-- `qudo_aes_ni_set_encrypt_key` stores the words of KEYEXPANSION, and the number of rounds. -/
theorem niSetEncryptKey_eq (size : KeySize) (userKey : ℕ → Byte) (key : AesKey) :
    niSetEncryptKey (some userKey) size.bits (some key) =
      (0, some ⟨niScheduled userKey key.rdKey size (4 * (size.nr + 1)), size.nr⟩) := by
  cases size with
  | aes128 =>
    exact congrArg (fun rd ↦ ((0 : ℤ), some (AesKey.mk rd 10))) (niSchedule128_eq userKey key.rdKey)
  | aes192 => exact congrArg (fun rd ↦ ((0 : ℤ), some (AesKey.mk rd 12))) niSchedule192_eq
  | aes256 =>
    exact congrArg (fun rd ↦ ((0 : ℤ), some (AesKey.mk rd 14))) (niSchedule256_eq userKey key.rdKey)

/-! ## Encryption -/

section Encryption

variable (userKey : ℕ → Byte) (rd : ℕ → U32) (size : KeySize)

theorem loadRk_niScheduled {r : ℕ} (hr : r ≤ size.nr) :
    loadRk (niScheduled userKey rd size (4 * (size.nr + 1))) r =
      (roundKey size userKey r).encode le := by
  rw [loadRk, niScheduled, stored_of_lt _ _ _ (by omega), stored_of_lt _ _ _ (by omega),
    stored_of_lt _ _ _ (by omega), stored_of_lt _ _ _ (by omega)]
  rfl

/-- One `aesenc` is one full round. -/
theorem aesenc_rounds (s : State) {r : ℕ} (hr : r < size.nr) :
    aesenc ((rounds (roundKey size userKey) s r).encode le)
        (loadRk (niScheduled userKey rd size (4 * (size.nr + 1))) (r + 1)) =
      (rounds (roundKey size userKey) s (r + 1)).encode le := by
  rw [aesenc, loadRk_niScheduled _ _ _ hr, toState_encode, ← encode_xor]
  rfl

/-- The rounds but the last, of which the code makes the last two or four under a condition. -/
theorem niRounds (s : State) :
    let rk := loadRk (niScheduled userKey rd size (4 * (size.nr + 1)))
    let block := (s ^^^ roundKey size userKey 0).encode le
    let block := [1, 2, 3, 4, 5, 6, 7, 8, 9].foldl (fun b i ↦ aesenc b (rk i)) block
    let block := if size.nr > 10 then [10, 11].foldl (fun b i ↦ aesenc b (rk i)) block else block
    let block := if size.nr > 12 then [12, 13].foldl (fun b i ↦ aesenc b (rk i)) block else block
    block = (rounds (roundKey size userKey) s (size.nr - 1)).encode le := by
  have hround := fun r ↦ aesenc_rounds userKey rd size s (r := r)
  have hzero : s ^^^ roundKey size userKey 0 =
      rounds (roundKey size userKey) s 0 := rfl
  have hnr : 10 ≤ size.nr := by
    cases size <;> decide
  simp only [List.foldl_cons, List.foldl_nil]
  rw [hzero, hround 0 (by omega), hround 1 (by omega), hround 2 (by omega), hround 3 (by omega),
    hround 4 (by omega), hround 5 (by omega), hround 6 (by omega), hround 7 (by omega),
    hround 8 (by omega)]
  cases size with
  | aes128 =>
    rw [if_neg (by decide), if_neg (by decide)]
    rfl
  | aes192 =>
    rw [if_neg (by decide), if_pos (by decide), hround 9 (by decide), hround 10 (by decide)]
    rfl
  | aes256 =>
    rw [if_pos (by decide), if_pos (by decide), hround 9 (by decide), hround 10 (by decide),
      hround 11 (by decide), hround 12 (by decide)]
    rfl

/-- Encryption with a stored schedule is the cipher. -/
theorem niEncrypt_scheduled (input : ℕ → Byte) :
    niEncrypt input ⟨niScheduled userKey rd size (4 * (size.nr + 1)), size.nr⟩ =
      aes size userKey input := by
  have hload : loadu input 0 = (stateAt input).encode le := rfl
  rw [niEncrypt, hload]
  dsimp only
  rw [loadRk_niScheduled _ _ _ (Nat.zero_le _), ← encode_xor, niRounds, aesenclast,
    loadRk_niScheduled _ _ _ (Nat.le_refl _), toState_encode, ← encode_xor, storeu, toState_encode]
  rfl

end Encryption

end Aes
