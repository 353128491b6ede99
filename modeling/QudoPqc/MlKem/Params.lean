import QudoPqc.Codec.Packing
import Mathlib.Data.ZMod.Basic
import Mathlib.Data.List.GetD
import Mathlib.Data.List.OfFn

/-!
# ML-KEM parameter sets

The table `vinfo_map` of `ml_kem.c`, the types of scalars, vectors and matrices, and the functions
of the Keccak family that the algorithms use.
-/

namespace MlKem

/-- `ML_KEM_PRIME`. -/
abbrev q : ℕ := 3329

/-- `ML_KEM_DEGREE`. -/
def degree : ℕ := 256

instance : NeZero q := ⟨by decide⟩

instance : Fact (1 < q) := ⟨by decide⟩

/-- The parameter sets. -/
inductive Variant
  | mlKem512
  | mlKem768
  | mlKem1024
  deriving DecidableEq, Repr

namespace Variant

/-- `ML_KEM_*_RANK`. -/
def rank : Variant → ℕ
  | mlKem512 => 2
  | mlKem768 => 3
  | mlKem1024 => 4

/-- `ML_KEM_*_ETA1`. -/
def eta1 : Variant → ℕ
  | mlKem512 => 3
  | mlKem768 => 2
  | mlKem1024 => 2

/-- `ML_KEM_*_DU`. -/
def du : Variant → ℕ
  | mlKem512 => 10
  | mlKem768 => 10
  | mlKem1024 => 11

/-- `ML_KEM_*_DV`. -/
def dv : Variant → ℕ
  | mlKem512 => 4
  | mlKem768 => 4
  | mlKem1024 => 5

variable (v : Variant)

/-- `VECTOR_BYTES`. -/
def vectorBytes : ℕ := 3 * degree / 2 * v.rank

/-- `PUBKEY_BYTES`. -/
def pubkeyBytes : ℕ := v.vectorBytes + 32

/-- `PRVKEY_BYTES`. -/
def prvkeyBytes : ℕ := 2 * v.pubkeyBytes + 32

/-- `U_VECTOR_BYTES`. -/
def uVectorBytes : ℕ := degree / 8 * v.du * v.rank

/-- `V_SCALAR_BYTES`. -/
def vScalarBytes : ℕ := degree / 8 * v.dv

/-- `CTEXT_BYTES`. -/
def ctextBytes : ℕ := v.uVectorBytes + v.vScalarBytes

/-- Where the hash and `z` are in a private key, counted from its end. -/
theorem prvkeyBytes_sub_64 : v.prvkeyBytes - 64 = v.vectorBytes + v.pubkeyBytes := by
  rw [prvkeyBytes, pubkeyBytes]
  omega

theorem prvkeyBytes_sub_32 : v.prvkeyBytes - 32 = v.vectorBytes + v.pubkeyBytes + 32 := by
  rw [prvkeyBytes, pubkeyBytes]
  omega

/-- The widths that compression and decompression are made for. -/
theorem du_bounds : 0 < v.du ∧ v.du ≤ 11 := by cases v <;> decide

theorem dv_bounds : 0 < v.dv ∧ v.dv ≤ 11 := by cases v <;> decide

end Variant

/-! ## Scalars, vectors and matrices -/

/-- The coefficients of a polynomial. -/
abbrev Scalar (α : Type) : Type := Fin degree → α

/-- A vector of `n` scalars. -/
abbrev Vec (n : ℕ) (α : Type) : Type := Fin n → Scalar α

/-- A square matrix of scalars. -/
abbrev Matrix (n : ℕ) (α : Type) : Type := Fin n → Fin n → Scalar α

/-- The scalar with the coefficients of a list. -/
def Scalar.ofList {α : Type} [Zero α] (xs : List α) : Scalar α := fun i ↦ xs.getD i 0

@[simp] theorem Scalar.ofList_ofFn {α : Type} [Zero α] (p : Scalar α) :
    Scalar.ofList (List.ofFn p) = p := by
  funext i
  rw [ofList, List.getD_eq_getElem _ _ (by rw [List.length_ofFn]; exact i.isLt), List.getElem_ofFn]

theorem Scalar.ofFn_ofList {α : Type} [Zero α] {xs : List α} (h : xs.length = degree) :
    List.ofFn (Scalar.ofList xs) = xs := by
  refine List.ext_getElem (by rw [List.length_ofFn, h]) fun i hi hi' ↦ ?_
  rw [List.getElem_ofFn, ofList, List.getD_eq_getElem _ _ hi']

/-- The representatives in `[0, q)`. -/
def Scalar.repr (p : Scalar (ZMod q)) : Scalar ℕ := fun i ↦ (p i).val

/-- The representatives in `[0, q)` of a vector. -/
def Vec.repr {n : ℕ} (p : Vec n (ZMod q)) : Vec n ℕ := fun i ↦ (p i).repr

/-- The residues of a vector. -/
def Vec.residue {n : ℕ} (p : Vec n ℕ) : Vec n (ZMod q) := fun i j ↦ (p i j : ZMod q)

@[simp] theorem Vec.residue_repr {n : ℕ} (p : Vec n (ZMod q)) : p.repr.residue = p :=
  funext fun i ↦ funext fun j ↦ ZMod.natCast_zmod_val (p i j)

theorem Vec.repr_residue {n : ℕ} {p : Vec n ℕ} (h : ∀ i j, p i j < q) : p.residue.repr = p :=
  funext fun i ↦ funext fun j ↦ ZMod.val_cast_of_lt (h i j)

theorem Vec.repr_lt {n : ℕ} (p : Vec n (ZMod q)) (i : Fin n) (j : Fin degree) : p.repr i j < q :=
  ZMod.val_lt (p i j)

theorem Vec.repr_injective {n : ℕ} {p p' : Vec n (ZMod q)} (h : p.repr = p'.repr) : p = p' := by
  rw [← p.residue_repr, h, p'.residue_repr]

/-! ## Hashing and sampling -/

/-- The functions of the Keccak family: SHA3-256, SHA3-512, the output stream of SHAKE256, and
SampleNTT, which reads the output of SHAKE128 until it has enough coefficients. -/
structure Primitives where
  sha3_256 : Bytes → Bytes
  sha3_512 : Bytes → Bytes
  shake256 : Bytes → ℕ → UInt8
  sampleNtt : Bytes → Scalar (ZMod q)
  length_sha3_256 : ∀ bs, (sha3_256 bs).length = 32
  length_sha3_512 : ∀ bs, (sha3_512 bs).length = 64

/-- The first `n` bytes of SHAKE256. -/
def Primitives.xof (H : Primitives) (input : Bytes) (n : ℕ) : Bytes :=
  List.ofFn fun i : Fin n ↦ H.shake256 input i

@[simp] theorem Primitives.length_xof (H : Primitives) (input : Bytes) (n : ℕ) :
    (H.xof input n).length = n :=
  List.length_ofFn

end MlKem
