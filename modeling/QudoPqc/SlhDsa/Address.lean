import QudoPqc.Arith.WordBytes
import QudoPqc.Codec.FileReader
import Mathlib.Data.Fin.VecNotation
import Mathlib.Tactic.FinCases

/-!
# Addresses

An address of FIPS 205 is 32 bytes: the layer and the tree, a type, and three words which mean
different things for different types. `slh_adrs.h` keeps it in a union of bytes and words, and
writes the words with their bytes reversed, so that the bytes come out in the order of the standard
on a little-endian machine. `Adrs` is the address as the standard has it, `AdrsT` the union, and
`Adrs.toT` takes the one to the other: every function of the header is a change of one or more
fields (`toT_setLayerAddress` and what follows it), and the bytes of the union are the bytes of the
address (`u8_toT`).
-/

namespace SlhDsa

open Arith Codec

/-! ## Integers and bytes -/

/-- `toByte(x, n)` of FIPS 205: the `n` low bytes of `x`, the most significant one first. -/
def toByte (x n : ℕ) : Bytes := (storeLe n x).reverse

/-- `toInt(X, n)` of FIPS 205. -/
def toInt (x : Bytes) : ℕ := loadLe x.reverse

@[simp] theorem length_toByte (x n : ℕ) : (toByte x n).length = n := by
  rw [toByte, List.length_reverse, length_storeLe]

theorem toByte_succ (x n : ℕ) : toByte x (n + 1) = toByte (x / 256) n ++ [UInt8.ofNat x] := by
  rw [toByte, storeLe, List.reverse_cons]
  rfl

theorem toByte_add (x n m : ℕ) : toByte x (n + m) = toByte (x / 256 ^ m) n ++ toByte x m := by
  induction m generalizing x with
  | zero => simp [toByte, storeLe]
  | succ m ih =>
    rw [← Nat.add_assoc, toByte_succ, ih, toByte_succ, List.append_assoc, Nat.div_div_eq_div_mul,
      pow_succ']

/-! ## The address of the standard -/

/-- The types of addresses. -/
inductive AdrsType where
  | wotsHash
  | wotsPk
  | tree
  | forsTree
  | forsRoots
  | wotsPrf
  | forsPrf
  deriving DecidableEq, Repr

/-- `ADRS_WOTS_HASH` to `ADRS_FORS_PRF`. -/
def AdrsType.code : AdrsType → ℕ
  | wotsHash => 0
  | wotsPk => 1
  | tree => 2
  | forsTree => 3
  | forsRoots => 4
  | wotsPrf => 5
  | forsPrf => 6

/-- An address. `height` is the chain address or the tree height, `index` the hash address or the
tree index. -/
@[ext]
structure Adrs where
  layer : ℕ
  tree : ℕ
  type : AdrsType
  keyPair : ℕ
  height : ℕ
  index : ℕ
  deriving DecidableEq, Repr

/-- The 32 bytes of an address. -/
def Adrs.bytes (A : Adrs) : Bytes :=
  toByte A.layer 4 ++ toByte A.tree 12 ++ toByte A.type.code 4 ++ toByte A.keyPair 4 ++
    toByte A.height 4 ++ toByte A.index 4

@[simp] theorem Adrs.length_bytes (A : Adrs) : A.bytes.length = 32 := by
  simp [Adrs.bytes]

/-! ## The union -/

/-- `rev8_be32` on a little-endian machine. -/
def rev8Be32 (x : BitVec 32) : BitVec 32 :=
  ((x &&& 0xFF000000#32) >>> 24) ||| ((x &&& 0x00FF0000#32) >>> 8) |||
    ((x &&& 0x0000FF00#32) <<< 8) ||| ((x &&& 0x000000FF#32) <<< 24)

/-- `adrs_t`, by its words. -/
@[ext]
structure AdrsT where
  u32 : Fin 8 → BitVec 32

namespace AdrsT

variable (a : AdrsT)

/-- The bytes of a word in memory. -/
def memory (x : BitVec 32) : Bytes := (List.range 4).map fun k ↦ UInt8.ofBitVec (byte x k)

/-- `adrs->u8`. -/
def u8 : Bytes := (List.finRange 8).flatMap fun i ↦ memory (a.u32 i)

/-- `adrs->u32[i] = rev8_be32(x)`. -/
def store (i : Fin 8) (x : ℕ) : AdrsT := ⟨Function.update a.u32 i (rev8Be32 (BitVec.ofNat 32 x))⟩

/-- `adrs->u32[i] = 0`. -/
def clear (i : Fin 8) : AdrsT := ⟨Function.update a.u32 i 0⟩

/-- `adrs_zero`. -/
def zero : AdrsT :=
  ((((((((a.clear 0).clear 1).clear 2).clear 3).clear 4).clear 5).clear 6).clear 7)

/-- `adrs_set_layer_address`. -/
def setLayerAddress (x : ℕ) : AdrsT := a.store 0 x

/-- `adrs_set_tree_address`. -/
def setTreeAddress (x : ℕ) : AdrsT := (a.store 2 (x >>> 32)).store 3 (x &&& 0xFFFFFFFF)

/-- `adrs_set_key_pair_address`. -/
def setKeyPairAddress (x : ℕ) : AdrsT := a.store 5 x

/-- `adrs_set_tree_height`. -/
def setTreeHeight (x : ℕ) : AdrsT := a.store 6 x

/-- `adrs_set_chain_address`. -/
def setChainAddress (x : ℕ) : AdrsT := a.store 6 x

/-- `adrs_set_tree_index`. -/
def setTreeIndex (x : ℕ) : AdrsT := a.store 7 x

/-- `adrs_set_hash_address`. -/
def setHashAddress (x : ℕ) : AdrsT := a.store 7 x

/-- `adrs_set_type`. -/
def setType (y : AdrsType) : AdrsT := a.store 4 y.code

/-- `adrs_set_type_and_clear`. -/
def setTypeAndClear (y : AdrsType) : AdrsT := (((a.store 4 y.code).clear 5).clear 6).clear 7

/-- `adrs_set_type_and_clear_not_kp`. -/
def setTypeAndClearNotKp (y : AdrsType) : AdrsT := ((a.store 4 y.code).clear 6).clear 7

/-- `adrsc_22`: the address without the bytes that are always zero. -/
def adrsc22 : Bytes := part a.u8 3 1 ++ part a.u8 8 8 ++ part a.u8 19 13

end AdrsT

/-! ## The union holds the address -/

/-- The words of an address. -/
def Adrs.words (A : Adrs) : Fin 8 → ℕ :=
  ![A.layer, 0, A.tree >>> 32, A.tree &&& 0xFFFFFFFF, A.type.code, A.keyPair, A.height, A.index]

/-- The union with an address in it. -/
def Adrs.toT (A : Adrs) : AdrsT := ⟨fun i ↦ rev8Be32 (BitVec.ofNat 32 (A.words i))⟩

section Fields

variable (A : Adrs)

theorem store_toT {A' : Adrs} {i : Fin 8} {x : ℕ} (h : Function.update A.words i x = A'.words) :
    A.toT.store i x = A'.toT := by
  ext1
  funext j
  simp only [AdrsT.store, Adrs.toT, ← h, Function.update_apply]
  split <;> rfl

theorem rev8Be32_zero : rev8Be32 0#32 = 0#32 := by decide

@[simp] theorem zero_eq (a : AdrsT) : a.zero = (Adrs.mk 0 0 .wotsHash 0 0 0).toT := by
  ext1
  funext j
  fin_cases j <;>
    simp [AdrsT.zero, AdrsT.clear, Adrs.toT, Adrs.words, AdrsType.code, rev8Be32_zero]

@[simp] theorem toT_setLayerAddress (x : ℕ) :
    A.toT.setLayerAddress x = Adrs.toT { A with layer := x } :=
  store_toT A (by funext j; fin_cases j <;> simp [Adrs.words])

@[simp] theorem toT_setTreeAddress (x : ℕ) :
    A.toT.setTreeAddress x = Adrs.toT { A with tree := x } := by
  ext1
  funext j
  fin_cases j <;> simp [AdrsT.setTreeAddress, AdrsT.store, Adrs.toT, Adrs.words]

@[simp] theorem toT_setKeyPairAddress (x : ℕ) :
    A.toT.setKeyPairAddress x = Adrs.toT { A with keyPair := x } :=
  store_toT A (by funext j; fin_cases j <;> simp [Adrs.words])

@[simp] theorem toT_setTreeHeight (x : ℕ) :
    A.toT.setTreeHeight x = Adrs.toT { A with height := x } :=
  store_toT A (by funext j; fin_cases j <;> simp [Adrs.words])

@[simp] theorem toT_setChainAddress (x : ℕ) :
    A.toT.setChainAddress x = Adrs.toT { A with height := x } :=
  toT_setTreeHeight A x

@[simp] theorem toT_setTreeIndex (x : ℕ) : A.toT.setTreeIndex x = Adrs.toT { A with index := x } :=
  store_toT A (by funext j; fin_cases j <;> simp [Adrs.words])

@[simp] theorem toT_setHashAddress (x : ℕ) :
    A.toT.setHashAddress x = Adrs.toT { A with index := x } :=
  toT_setTreeIndex A x

@[simp] theorem toT_setType (y : AdrsType) : A.toT.setType y = Adrs.toT { A with type := y } :=
  store_toT A (by funext j; fin_cases j <;> simp [Adrs.words])

@[simp] theorem toT_setTypeAndClearNotKp (y : AdrsType) :
    A.toT.setTypeAndClearNotKp y = Adrs.toT { A with type := y, height := 0, index := 0 } := by
  have hsteps : A.toT.setTypeAndClearNotKp y =
      ((A.toT.setType y).setTreeHeight 0).setTreeIndex 0 := rfl
  rw [hsteps, toT_setType, toT_setTreeHeight, toT_setTreeIndex]

@[simp] theorem toT_setTypeAndClear (y : AdrsType) :
    A.toT.setTypeAndClear y =
      Adrs.toT { A with type := y, keyPair := 0, height := 0, index := 0 } := by
  have hsteps : A.toT.setTypeAndClear y =
      (((A.toT.setType y).setKeyPairAddress 0).setTreeHeight 0).setTreeIndex 0 := rfl
  rw [hsteps, toT_setType, toT_setKeyPairAddress, toT_setTreeHeight, toT_setTreeIndex]

end Fields

/-! ## Bytes -/

theorem byte_rev8Be32 (x : BitVec 32) {k : ℕ} (hk : k < 4) :
    byte (rev8Be32 x) k = byte x (3 - k) := by
  have hright := fun v k ↦ byte_shiftRight v k 3
  have hright' := fun v k ↦ byte_shiftRight v k 1
  have hleft := fun v ↦ byte_shiftLeft v 1 hk
  have hleft' := fun v ↦ byte_shiftLeft v 3 hk
  have h3 : ∀ k < 8, byte 0xFF000000#32 k = if k = 3 then BitVec.allOnes 8 else 0#8 := by decide
  have h2 : ∀ k < 8, byte 0x00FF0000#32 k = if k = 2 then BitVec.allOnes 8 else 0#8 := by decide
  have h1 : ∀ k < 8, byte 0x0000FF00#32 k = if k = 1 then BitVec.allOnes 8 else 0#8 := by decide
  have h0 : ∀ k < 8, byte 0x000000FF#32 k = if k = 0 then BitVec.allOnes 8 else 0#8 := by decide
  have hmask : ∀ b : BitVec 8, b &&& 255#8 = b := fun b ↦ BitVec.and_allOnes
  simp only [Nat.reduceMul] at hright hright' hleft hleft'
  rw [rev8Be32, byte_or, byte_or, byte_or, hright, hright', hleft, hleft']
  rcases (by omega : k = 0 ∨ k = 1 ∨ k = 2 ∨ k = 3) with rfl | rfl | rfl | rfl <;>
    simp [byte_and, h0, h1, h2, h3, hmask]

theorem byte_ofNat (x : ℕ) {k : ℕ} (hk : k < 4) :
    byte (BitVec.ofNat 32 x) k = BitVec.ofNat 8 (x / 256 ^ k) := by
  apply BitVec.eq_of_toNat_eq
  have hpow : 2 ^ (8 * k) = 256 ^ k := pow_mul 2 8 k
  rw [byte, BitVec.toNat_setWidth, BitVec.toNat_ushiftRight, BitVec.toNat_ofNat, BitVec.toNat_ofNat,
    Nat.shiftRight_eq_div_pow, hpow]
  rcases (by omega : k = 0 ∨ k = 1 ∨ k = 2 ∨ k = 3) with rfl | rfl | rfl | rfl <;> omega

/-- A reversed word has its bytes in memory the most significant one first. -/
theorem memory_rev8Be32 (x : ℕ) : AdrsT.memory (rev8Be32 (BitVec.ofNat 32 x)) = toByte x 4 := by
  have hbyte : ∀ k < 4, UInt8.ofBitVec (byte (rev8Be32 (BitVec.ofNat 32 x)) k) =
      UInt8.ofNat (x / 256 ^ (3 - k)) := by
    intro k hk
    rw [byte_rev8Be32 _ hk, byte_ofNat x (by omega)]
    rfl
  have hrange : List.range 4 = [0, 1, 2, 3] := rfl
  rw [AdrsT.memory, hrange]
  simp only [List.map_cons, List.map_nil]
  rw [hbyte 0 (by omega), hbyte 1 (by omega), hbyte 2 (by omega), hbyte 3 (by omega)]
  simp [toByte, storeLe, Nat.div_div_eq_div_mul]

/-- A number of 12 bytes that fits into 8. -/
theorem toByte_twelve {x : ℕ} (h : x < 2 ^ 64) :
    toByte x 12 = toByte 0 4 ++ toByte (x >>> 32) 4 ++ toByte (x &&& 0xFFFFFFFF) 4 := by
  have hlow : toByte (x &&& 0xFFFFFFFF) 4 = toByte x 4 := by
    have hmask : x &&& 0xFFFFFFFF = x % 256 ^ 4 := Nat.and_two_pow_sub_one_eq_mod x 32
    rw [toByte, hmask, storeLe_mod, toByte]
  have hhigh : x / 256 ^ 4 / 256 ^ 4 = 0 := by omega
  rw [hlow, toByte_add x 8 4, toByte_add _ 4 4, hhigh, Nat.shiftRight_eq_div_pow]
  rfl

theorem u8_toT {A : Adrs} (h : A.tree < 2 ^ 64) : A.toT.u8 = A.bytes := by
  have hwords : A.toT.u8 = (List.finRange 8).flatMap fun i ↦ toByte (A.words i) 4 := by
    simp only [AdrsT.u8, Adrs.toT, memory_rev8Be32]
  have hrange : List.finRange 8 = [0, 1, 2, 3, 4, 5, 6, 7] := by decide
  rw [hwords, hrange, Adrs.bytes, toByte_twelve h]
  simp [Adrs.words]

end SlhDsa
