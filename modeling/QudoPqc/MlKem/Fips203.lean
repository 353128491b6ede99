import QudoPqc.MlKem.Params
import Mathlib.Algebra.BigOperators.Fin

/-!
# ML-KEM

The algorithms of FIPS 203 in their own terms. Ring elements are residues, an encoding is the
packing of its words, and a key is what its encoding holds: a public key is the vector `t` and the
matrix seed `rho`, a private key is `s`, the public key, and `z`. Vectors of keys are in the
transformed domain throughout.

Nothing here is translated from the code.
-/

namespace MlKem

open Codec

namespace Fips203

variable {v : Variant}

/-! ## Encodings -/

/-- ByteEncode. -/
def byteEncode (w : ℕ) (p : Scalar ℕ) : Bytes := pack w (List.ofFn p)

/-- ByteDecode, for words that are not reduced. -/
def byteDecode (w : ℕ) (bs : Bytes) : Scalar ℕ := Scalar.ofList (unpack w degree bs)

/-- The concatenation of the encodings of a vector's scalars. -/
def encodeVec {n : ℕ} (w : ℕ) (p : Vec n ℕ) : Bytes :=
  (List.ofFn fun i ↦ byteEncode w (p i)).flatten

theorem length_byteEncode (w : ℕ) (p : Scalar ℕ) : (byteEncode w p).length = 32 * w := by
  rw [byteEncode, length_pack, List.length_ofFn, degree]
  omega

theorem length_encodeVec {n : ℕ} (w : ℕ) (p : Vec n ℕ) :
    (encodeVec w p).length = 32 * w * n := by
  rw [encodeVec, List.length_flatten, List.map_ofFn,
    show List.length ∘ (fun i ↦ byteEncode w (p i)) = fun _ ↦ 32 * w from
      funext fun i ↦ length_byteEncode w (p i),
    List.ofFn_const, List.sum_replicate, smul_eq_mul, Nat.mul_comm]

/-- Compress: `x * 2 ^ w / q`, rounded. -/
def compress (w : ℕ) (x : ZMod q) : ℕ := (2 * 2 ^ w * x.val + q) / (2 * q) % 2 ^ w

/-- Decompress: `y * q / 2 ^ w`, rounded. -/
def decompress (w : ℕ) (y : ℕ) : ZMod q := ((2 * q * y + 2 ^ w) / (2 * 2 ^ w) : ℕ)

/-! ## The transform -/

/-- The root of unity. -/
def zeta : ZMod q := 17

/-- BitRev of seven bits. -/
def bitRev7 (i : ℕ) : ℕ := ∑ j : Fin 7, if i.testBit j then 2 ^ (6 - (j : ℕ)) else 0

/-- One value of `len` in NTT: in each block of `2 * len` coefficients, those `len` apart are
combined. -/
def nttLayer (len : ℕ) (f : ℕ → ZMod q) (j : ℕ) : ZMod q :=
  let root := zeta ^ bitRev7 (128 / len + j / (2 * len))
  if j % (2 * len) < len then f j + root * f (j + len) else f (j - len) - root * f j

/-- One value of `len` in the inverse of NTT. -/
def nttInvLayer (len : ℕ) (f : ℕ → ZMod q) (j : ℕ) : ZMod q :=
  let root := zeta ^ bitRev7 (256 / len - 1 - j / (2 * len))
  if j % (2 * len) < len then f j + f (j + len) else root * (f j - f (j - len))

/-- A scalar as a function that is zero past its coefficients. -/
def extend (f : Scalar (ZMod q)) (j : ℕ) : ZMod q := if h : j < degree then f ⟨j, h⟩ else 0

/-- NTT. -/
def ntt (f : Scalar (ZMod q)) : Scalar (ZMod q) := fun j ↦
  [128, 64, 32, 16, 8, 4, 2].foldl (fun f len ↦ nttLayer len f) (extend f) j

/-- The inverse of NTT. -/
def nttInv (f : Scalar (ZMod q)) : Scalar (ZMod q) := fun j ↦
  3303 * [2, 4, 8, 16, 32, 64, 128].foldl (fun f len ↦ nttInvLayer len f) (extend f) j

/-- MultiplyNTTs. -/
def multiplyNtts (f g : Scalar (ZMod q)) : Scalar (ZMod q) := fun j ↦
  let i : ℕ := j / 2
  let f0 := extend f (2 * i)
  let f1 := extend f (2 * i + 1)
  let g0 := extend g (2 * i)
  let g1 := extend g (2 * i + 1)
  if (j : ℕ) % 2 = 0 then f0 * g0 + f1 * g1 * zeta ^ (2 * bitRev7 i + 1) else f0 * g1 + f1 * g0

/-- The product of two vectors in the transformed domain. -/
def dot {n : ℕ} (f g : Vec n (ZMod q)) : Scalar (ZMod q) := ∑ j, multiplyNtts (f j) (g j)

/-! ## Sampling -/

variable (H : Primitives)

/-- The number of ones among the low `eta` bits. -/
def countOnes (eta x : ℕ) : ℕ := ∑ j : Fin eta, (x.testBit j).toNat

/-- SamplePolyCBD: each coefficient is the difference of the numbers of ones in two groups of `eta`
bits. -/
def samplePolyCbd (eta : ℕ) (bs : Bytes) : Scalar (ZMod q) :=
  Scalar.ofList ((unpack (2 * eta) degree bs).map fun x ↦
    (countOnes eta x : ZMod q) - (countOnes eta (x / 2 ^ eta) : ZMod q))

/-- The noise polynomial of a seed and a counter. -/
def noise (eta : ℕ) (seed : Bytes) (counter : ℕ) : Scalar (ZMod q) :=
  samplePolyCbd eta (H.xof (seed ++ [UInt8.ofNat counter]) (64 * eta))

/-- The matrix of a seed. -/
def expandMatrix (n : ℕ) (rho : Bytes) : Matrix n (ZMod q) := fun i j ↦
  H.sampleNtt (rho ++ [UInt8.ofNat j, UInt8.ofNat i])

/-! ## Keys -/

/-- The contents of an encapsulation key. -/
structure PublicKey (v : Variant) where
  t : Vec v.rank (ZMod q)
  rho : Bytes
  length_rho : rho.length = 32

/-- The contents of a decapsulation key. -/
structure SecretKey (v : Variant) where
  s : Vec v.rank (ZMod q)
  pub : PublicKey v
  z : Bytes
  length_z : z.length = 32

/-- The encoding of an encapsulation key. -/
def PublicKey.encode (pk : PublicKey v) : Bytes := encodeVec 12 pk.t.repr ++ pk.rho

/-- The encoding of a decapsulation key. -/
def SecretKey.encode (sk : SecretKey v) : Bytes :=
  encodeVec 12 sk.s.repr ++ (sk.pub.encode ++ (H.sha3_256 sk.pub.encode ++ sk.z))

theorem PublicKey.length_encode (pk : PublicKey v) : pk.encode.length = v.pubkeyBytes := by
  rw [encode, List.length_append, length_encodeVec, pk.length_rho]
  rfl

theorem SecretKey.length_encode (sk : SecretKey v) : (sk.encode H).length = v.prvkeyBytes := by
  rw [encode, List.length_append, List.length_append, List.length_append, length_encodeVec,
    sk.pub.length_encode, H.length_sha3_256, sk.length_z, Variant.prvkeyBytes,
    Variant.pubkeyBytes, Variant.vectorBytes, degree]
  omega

/-! ### Layout

Where the parts of an encoding are. -/

theorem length_encodeVec_rank (p : Vec v.rank ℕ) : (encodeVec 12 p).length = v.vectorBytes :=
  length_encodeVec 12 p

theorem PublicKey.take_t (pk : PublicKey v) :
    pk.encode.take v.vectorBytes = encodeVec 12 pk.t.repr :=
  List.take_left' (length_encodeVec_rank _)

section Layout

variable {H} (sk : SecretKey v)

theorem SecretKey.take_s : (sk.encode H).take v.vectorBytes = encodeVec 12 sk.s.repr :=
  List.take_left' (length_encodeVec_rank _)

theorem SecretKey.drop_s : (sk.encode H).drop v.vectorBytes =
    sk.pub.encode ++ (H.sha3_256 sk.pub.encode ++ sk.z) :=
  List.drop_left' (length_encodeVec_rank _)

theorem SecretKey.take_pub :
    ((sk.encode H).drop v.vectorBytes).take v.pubkeyBytes = sk.pub.encode := by
  rw [drop_s]
  exact List.take_left' sk.pub.length_encode

theorem SecretKey.drop_pub :
    (sk.encode H).drop (v.vectorBytes + v.pubkeyBytes) = H.sha3_256 sk.pub.encode ++ sk.z := by
  rw [← List.drop_drop, drop_s]
  exact List.drop_left' sk.pub.length_encode

theorem SecretKey.take_hash :
    ((sk.encode H).drop (v.vectorBytes + v.pubkeyBytes)).take 32 = H.sha3_256 sk.pub.encode := by
  rw [drop_pub]
  exact List.take_left' (H.length_sha3_256 _)

theorem SecretKey.drop_z :
    (sk.encode H).drop (v.vectorBytes + v.pubkeyBytes + 32) = sk.z := by
  rw [← List.drop_drop, drop_pub]
  exact List.drop_left' (H.length_sha3_256 _)

end Layout

/-- The output of G from which K-PKE.KeyGen takes `rho` and `sigma`. -/
def expandedSeed (v : Variant) (d : Bytes) : Bytes :=
  H.sha3_512 (d ++ [UInt8.ofNat v.rank])

/-- The private vector of a seed, transformed. -/
def secretVector (v : Variant) (d : Bytes) : Vec v.rank (ZMod q) := fun i ↦
  ntt (noise H v.eta1 ((expandedSeed H v d).drop 32) i)

/-- The public key of a seed. -/
def publicKey (v : Variant) (d : Bytes) : PublicKey v where
  t := fun i ↦ dot (expandMatrix H v.rank ((expandedSeed H v d).take 32) i) (secretVector H v d) +
    ntt (noise H v.eta1 ((expandedSeed H v d).drop 32) (v.rank + i))
  rho := (expandedSeed H v d).take 32
  length_rho := by rw [List.length_take, expandedSeed, H.length_sha3_512]; rfl

/-- KeyGen_internal. -/
def keyGen (v : Variant) (d z : Bytes) (hz : z.length = 32) : SecretKey v where
  s := secretVector H v d
  pub := publicKey H v d
  z := z
  length_z := hz

/-! ## Encapsulation and decapsulation -/

/-- K-PKE.Encrypt. -/
def encrypt (pk : PublicKey v) (m r : Bytes) : Bytes :=
  let y : Vec v.rank (ZMod q) := fun i ↦ ntt (noise H v.eta1 r i)
  let u : Vec v.rank (ZMod q) := fun i ↦
    nttInv (dot (fun j ↦ expandMatrix H v.rank pk.rho j i) y) + noise H 2 r (v.rank + i)
  let mu : Scalar (ZMod q) := fun j ↦ decompress 1 (byteDecode 1 m j)
  let w := nttInv (dot pk.t y) + noise H 2 r (2 * v.rank) + mu
  encodeVec v.du (fun i j ↦ compress v.du (u i j)) ++ byteEncode v.dv fun j ↦ compress v.dv (w j)

/-- K-PKE.Decrypt. -/
def decrypt (s : Vec v.rank (ZMod q)) (c : Bytes) : Bytes :=
  let u : Vec v.rank (ZMod q) := fun i j ↦
    decompress v.du (byteDecode v.du ((c.drop (32 * v.du * i)).take (32 * v.du)) j)
  let w : Scalar (ZMod q) := fun j ↦ decompress v.dv (byteDecode v.dv (c.drop v.uVectorBytes) j)
  let m := w - nttInv (dot s fun i ↦ ntt (u i))
  byteEncode 1 fun j ↦ compress 1 (m j)

/-- Encaps_internal: the ciphertext and the shared secret. -/
def encaps (pk : PublicKey v) (m : Bytes) : Bytes × Bytes :=
  let Kr := H.sha3_512 (m ++ H.sha3_256 pk.encode)
  (encrypt H pk m (Kr.drop 32), Kr.take 32)

/-- Decaps_internal: the shared secret, or the rejection secret if the ciphertext is not what its
message encrypts to. -/
def decaps (sk : SecretKey v) (c : Bytes) : Bytes :=
  let m := decrypt sk.s c
  let Kr := H.sha3_512 (m ++ H.sha3_256 sk.pub.encode)
  if encrypt H sk.pub m (Kr.drop 32) = c then Kr.take 32 else H.xof (sk.z ++ c) 32

end Fips203

end MlKem
