import QudoPqc.Codec.Rows
import QudoPqc.MlDsa.Rounding

/-!
# ML-DSA

The algorithms of FIPS 204 in their own terms: short polynomials have integer coefficients, ring
elements are residues, norms are taken of the representatives closest to zero, and an encoding is
the packing of its words. Key generation and one signing attempt are functions; verification is the
statement that the signature is the encoding of something acceptable (`Accepts`).

Nothing here is translated from the code. OpenSSL's functions and the engine's are each compared
with these, and with one another through them.
-/

namespace MlDsa

open Codec

/-! ## Field widths -/

namespace Variant

variable (v : Variant)

/-- The bits of a coefficient of `s1` and `s2`. -/
def etaBits : ℕ := if v.eta = 4 then 4 else 3

/-- The bits of a coefficient of `z`. -/
def zBits : ℕ := if v.gamma1 = gamma1TwoPower19 then 20 else 18

/-- The bits of a coefficient of `w1`. -/
def w1Bits : ℕ := if v.gamma2 = gamma2QMinus1Div32 then 4 else 6

end Variant

namespace Fips204

variable {v : Variant}

/-! ## The ring -/

/-- A row of a matrix times a vector. -/
def dot {n : ℕ} (a b : PolyVec n (ZMod q)) : Poly (ZMod q) := fun i ↦ ∑ j, negacyclic (a j) (b j) i

/-! ## Encodings -/

/-- BitPack with words `b - c`. -/
def bitPack (b w : ℕ) (p : Poly ℤ) : Bytes := pack w (List.ofFn fun i ↦ ((b : ℤ) - p i).toNat)

/-- SimpleBitPack. -/
def simpleBitPack (w : ℕ) (p : Poly ℤ) : Bytes := pack w (List.ofFn fun i ↦ (p i).toNat)

/-- BitUnpack with words `b - c`. -/
def bitUnpack (b w : ℕ) (bs : Bytes) : Poly ℤ :=
  Poly.ofList ((unpack w numCoeff bs).map fun x : ℕ ↦ (b : ℤ) - (x : ℤ))

/-- The concatenation of the encodings of a vector's polynomials. -/
def encodeVec {α : Type} {n : ℕ} (encode : Poly α → Bytes) (p : PolyVec n α) : Bytes :=
  (List.ofFn fun i ↦ encode (p i)).flatten

theorem length_bitPack (b w : ℕ) (p : Poly ℤ) : (bitPack b w p).length = 32 * w := by
  rw [bitPack, length_pack, List.length_ofFn, numCoeff]
  omega

theorem length_simpleBitPack (w : ℕ) (p : Poly ℤ) : (simpleBitPack w p).length = 32 * w := by
  rw [simpleBitPack, length_pack, List.length_ofFn, numCoeff]
  omega

theorem length_encodeVec {α : Type} {n len : ℕ} {encode : Poly α → Bytes}
    (h : ∀ p, (encode p).length = len) (p : PolyVec n α) :
    (encodeVec encode p).length = n * len := by
  rw [encodeVec, List.length_flatten, List.map_ofFn,
    show List.length ∘ (fun i ↦ encode (p i)) = fun _ ↦ len from funext fun i ↦ h (p i),
    List.ofFn_const, List.sum_replicate, smul_eq_mul]

/-- The positions of the ones of a hint polynomial, in increasing order. -/
def positions (h : Poly Bool) : List (Fin numCoeff) := (List.finRange numCoeff).filter fun j ↦ h j

/-- The positions as bytes. -/
def rowBytes (h : Poly Bool) : Bytes := (positions h).map fun j : Fin numCoeff ↦ UInt8.ofNat j

/-- The number of ones. -/
def ones {n : ℕ} (h : PolyVec n Bool) : ℕ := tally (fun i ↦ rowBytes (h i)) n

/-- HintBitPack: the positions row by row, filled up to `omega` bytes with zeros, and for each row
the number of ones up to its end. -/
def hintBitPack (omega : ℕ) {n : ℕ} (h : PolyVec n Bool) : Bytes :=
  packEntries omega (fun i ↦ rowBytes (h i)) ++ packLimits fun i ↦ rowBytes (h i)

/-- w1Encode. -/
def w1Encode (w1 : PolyVec v.k ℤ) : Bytes := encodeVec (simpleBitPack v.w1Bits) w1

/-- sigEncode. -/
def sigEncode (cTilde : Bytes) (z : PolyVec v.l ℤ) (h : PolyVec v.k Bool) : Bytes :=
  cTilde ++ (encodeVec (bitPack v.gamma1 v.zBits) z ++ hintBitPack v.omega h)

/-! ## Keys -/

/-- The contents of a private key. -/
structure SecretKey (v : Variant) where
  rho : Bytes
  K : Bytes
  tr : Bytes
  s1 : PolyVec v.l ℤ
  s2 : PolyVec v.k ℤ
  t0 : PolyVec v.k ℤ
  length_rho : rho.length = 32
  length_K : K.length = 32
  length_tr : tr.length = 64
  s1_short : ∀ i j, |s1 i j| ≤ v.eta
  s2_short : ∀ i j, |s2 i j| ≤ v.eta
  t0_range : ∀ i j, -2 ^ 12 < t0 i j ∧ t0 i j ≤ 2 ^ 12

/-- The contents of a public key. -/
structure PublicKey (v : Variant) where
  rho : Bytes
  t1 : PolyVec v.k ℤ
  length_rho : rho.length = 32
  t1_range : ∀ i j, 0 ≤ t1 i j ∧ t1 i j < 2 ^ 10

/-- pkEncode. -/
def PublicKey.encode (pk : PublicKey v) : Bytes :=
  pk.rho ++ encodeVec (simpleBitPack 10) pk.t1

/-- skEncode. -/
def SecretKey.encode (sk : SecretKey v) : Bytes :=
  sk.rho ++ (sk.K ++ (sk.tr ++ (encodeVec (bitPack v.eta v.etaBits) sk.s1 ++
    (encodeVec (bitPack v.eta v.etaBits) sk.s2 ++ encodeVec (bitPack (2 ^ 12) 13) sk.t0))))

theorem PublicKey.length_encode (pk : PublicKey v) : pk.encode.length = v.params.pkLen := by
  rw [encode, List.length_append, pk.length_rho, length_encodeVec (length_simpleBitPack 10)]
  cases v <;> rfl

theorem SecretKey.length_encode (sk : SecretKey v) : sk.encode.length = v.params.skLen := by
  simp only [encode, List.length_append, sk.length_rho, sk.length_K, sk.length_tr,
    length_encodeVec (length_bitPack _ _)]
  cases v <;> rfl

theorem ofList_unpack_lt (w : ℕ) (bs : Bytes) (i : Fin numCoeff) :
    Poly.ofList (unpack w numCoeff bs) i < 2 ^ w := by
  have hi : (i : ℕ) < (unpack w numCoeff bs).length := (length_unpack w _ bs).symm ▸ i.isLt
  rw [Poly.ofList, List.getD_eq_getElem _ _ hi]
  exact unpack_lt (List.getElem_mem hi)

theorem pack_ofList_unpack {w : ℕ} {bs : Bytes} (hbs : bs.length = 32 * w) :
    pack w (List.ofFn (Poly.ofList (unpack w numCoeff bs))) = bs := by
  rw [Poly.ofFn_ofList (length_unpack w _ bs), pack_unpack]
  rw [hbs, numCoeff]
  omega

/-- Every string of the right length is the encoding of a polynomial. -/
theorem exists_simpleBitPack {w : ℕ} {bs : Bytes} (hbs : bs.length = 32 * w) :
    ∃ z : Poly ℤ, (∀ i, 0 ≤ z i ∧ z i < 2 ^ w) ∧ bs = simpleBitPack w z := by
  refine ⟨fun i ↦ (Poly.ofList (unpack w numCoeff bs) i : ℕ),
    fun i ↦ ⟨Int.natCast_nonneg _, ?_⟩, ?_⟩
  · beta_reduce
    exact_mod_cast ofList_unpack_lt w bs i
  · rw [simpleBitPack]
    simp only [Int.toNat_natCast]
    exact (pack_ofList_unpack hbs).symm

/-- Every string of the right length is the encoding of what BitUnpack reads from it. -/
theorem bitPack_bitUnpack (b : ℕ) {w : ℕ} {bs : Bytes} (hbs : bs.length = 32 * w) :
    (∀ i, (b : ℤ) - 2 ^ w < bitUnpack b w bs i ∧ bitUnpack b w bs i ≤ b) ∧
      bitPack b w (bitUnpack b w bs) = bs := by
  have hcoeff : ∀ i, bitUnpack b w bs i = (b : ℤ) - (Poly.ofList (unpack w numCoeff bs) i : ℕ) := by
    intro i
    have hi : (i : ℕ) < (unpack w numCoeff bs).length := (length_unpack w _ bs).symm ▸ i.isLt
    rw [bitUnpack, Poly.ofList, Poly.ofList, List.getD_eq_getElem _ _ (by rwa [List.length_map]),
      List.getElem_map, List.getD_eq_getElem _ _ hi]
  refine ⟨fun i ↦ ?_, ?_⟩
  · have hlt : ((Poly.ofList (unpack w numCoeff bs) i : ℕ) : ℤ) < 2 ^ w := by
      exact_mod_cast ofList_unpack_lt w bs i
    rw [hcoeff]
    omega
  · rw [bitPack]
    simp only [hcoeff, sub_sub_cancel, Int.toNat_natCast]
    exact pack_ofList_unpack hbs

/-- A string is cut into the encodings of the items of a vector. -/
theorem exists_encodeVec {α : Type} {R : α → Prop} {encode : Poly α → Bytes} {len : ℕ}
    (h : ∀ bs : Bytes, bs.length = len → ∃ p, (∀ i, R (p i)) ∧ bs = encode p) (n : ℕ)
    {bs : Bytes} (hbs : bs.length = n * len) :
    ∃ p : PolyVec n α, (∀ i j, R (p i j)) ∧ bs = encodeVec encode p := by
  induction n generalizing bs with
  | zero =>
    rw [Nat.zero_mul, List.length_eq_zero_iff] at hbs
    exact ⟨Fin.elim0, fun i ↦ i.elim0, hbs⟩
  | succ n ih =>
    rw [Nat.succ_mul] at hbs
    obtain ⟨p, hp, htake⟩ := h (bs.take len) (by rw [List.length_take]; omega)
    obtain ⟨ps, hps, hdrop⟩ := ih (show (bs.drop len).length = n * len by
      rw [List.length_drop]
      omega)
    refine ⟨Fin.cons p ps, Fin.cases hp hps, ?_⟩
    rw [← List.take_append_drop len bs, htake, hdrop, encodeVec, encodeVec, List.ofFn_succ,
      List.flatten_cons]
    rfl

/-- Every string of the length of a public key is the encoding of one. -/
theorem PublicKey.exists_encode {bs : Bytes} (hbs : bs.length = v.params.pkLen) :
    ∃ pk : PublicKey v, bs = pk.encode := by
  have hlen : v.params.pkLen = 32 + v.k * (32 * 10) := by cases v <;> rfl
  obtain ⟨t1, ht1, hdrop⟩ := exists_encodeVec (R := fun c : ℤ ↦ 0 ≤ c ∧ c < 2 ^ 10)
    (fun bs (hbs : bs.length = 32 * 10) ↦ exists_simpleBitPack hbs) v.k
    (show (bs.drop 32).length = v.k * (32 * 10) by rw [List.length_drop]; omega)
  refine ⟨⟨bs.take 32, t1, by rw [List.length_take]; omega, ht1⟩, ?_⟩
  rw [encode, ← hdrop, List.take_append_drop]

variable (S : Sampling v)

/-- `t = A s1 + s2`. -/
def publicVector (rho : Bytes) (s1 : PolyVec v.l ℤ) (s2 : PolyVec v.k ℤ) :
    PolyVec v.k (ZMod q) := fun i ↦
  dot (S.expandA rho i) (fun j ↦ (s1 j).residue) + (s2 i).residue

/-- The public key of a matrix seed and a vector `t`. -/
def publicKey (rho : Bytes) (hrho : rho.length = 32) (t : PolyVec v.k (ZMod q)) :
    PublicKey v where
  rho := rho
  t1 := fun i j ↦ (power2Round (t i j)).1
  length_rho := hrho
  t1_range := fun i j ↦ (power2Round_range (t i j)).1

/-- The public key that belongs to a private key. -/
def SecretKey.publicKey (sk : SecretKey v) : PublicKey v :=
  Fips204.publicKey sk.rho sk.length_rho (publicVector S sk.rho sk.s1 sk.s2)

/-- What a private key repeats of its public key is right. -/
structure SecretKey.Consistent (sk : SecretKey v) : Prop where
  t0_eq : ∀ i j, sk.t0 i j = (power2Round (publicVector S sk.rho sk.s1 sk.s2 i j)).2
  tr_eq : sk.tr = S.xof (sk.publicKey S).encode 64

/-- The output of H from which KeyGen_internal takes `rho`, the seed of ExpandS and `K`. -/
def expandedSeed (seed : Bytes) : Bytes :=
  S.xof (seed ++ [UInt8.ofNat v.k, UInt8.ofNat v.l]) 128

/-- KeyGen_internal. -/
def keyGen (seed : Bytes) : PublicKey v × SecretKey v :=
  let expanded := expandedSeed S seed
  let s := S.expandS ((expanded.drop 32).take 64)
  let s1 : PolyVec v.l ℤ := fun i ↦ (s.1 i).1
  let s2 : PolyVec v.k ℤ := fun i ↦ (s.2 i).1
  let t := publicVector S (expanded.take 32) s1 s2
  let pk := publicKey (expanded.take 32) (by simp [expanded, expandedSeed]) t
  (pk,
    { rho := expanded.take 32
      K := expanded.drop 96
      tr := S.xof pk.encode 64
      s1 := s1
      s2 := s2
      t0 := fun i j ↦ (power2Round (t i j)).2
      length_rho := by simp [expanded, expandedSeed]
      length_K := by simp [expanded, expandedSeed]
      length_tr := S.length_xof _ _
      s1_short := fun i ↦ (s.1 i).2
      s2_short := fun i ↦ (s.2 i).2
      t0_range := fun i j ↦ (power2Round_range (t i j)).2 })

theorem keyGen_publicKey (seed : Bytes) :
    (keyGen S seed).2.publicKey S = (keyGen S seed).1 := rfl

theorem keyGen_consistent (seed : Bytes) : (keyGen S seed).2.Consistent S where
  t0_eq := fun _ _ ↦ rfl
  tr_eq := rfl

/-! ## Signing -/

/-- The message representative. -/
def messageRep (tr message : Bytes) : Bytes := S.xof (tr ++ message) 64

/-- ExpandMask. -/
def expandMask (rhoPrime : Bytes) (kappa : ℕ) : PolyVec v.l ℤ := fun r ↦
  bitUnpack v.gamma1 v.zBits (S.xof (rhoPrime ++ storeLe 2 (kappa + r)) (32 * v.zBits))

/-- One round of the rejection loop of Sign_internal, with the counter `kappa`. -/
def signAttempt (sk : SecretKey v) (mu rhoPrime : Bytes) (kappa : ℕ) : Option Bytes :=
  let y := expandMask S rhoPrime kappa
  let w : PolyVec v.k (ZMod q) := fun i ↦ dot (S.expandA sk.rho i) fun j ↦ (y j).residue
  let w1 : PolyVec v.k ℤ := fun i j ↦ highBits v (w i j)
  let cTilde := S.xof (mu ++ w1Encode w1) v.cTildeLen
  let c := (S.sampleInBall cTilde).coeff.residue
  let z : PolyVec v.l (ZMod q) := fun i ↦ (y i).residue + negacyclic c (sk.s1 i).residue
  let cs2 : PolyVec v.k (ZMod q) := fun i ↦ negacyclic c (sk.s2 i).residue
  let ct0 : PolyVec v.k (ZMod q) := fun i ↦ negacyclic c (sk.t0 i).residue
  let h : PolyVec v.k Bool := fun i j ↦ makeHint v (-ct0 i j) (w i j - cs2 i j + ct0 i j)
  if (∀ i j, |(z i j).valMinAbs| < v.gamma1 - v.beta) ∧
      (∀ i j, |lowBits v (w i j - cs2 i j)| < v.gamma2 - v.beta) ∧
      (∀ i j, |(ct0 i j).valMinAbs| < v.gamma2) ∧ ones h ≤ v.omega then
    some (sigEncode cTilde (fun i j ↦ (z i j).valMinAbs) h)
  else none

/-! ### The values of a round -/

section Round

variable (sk : SecretKey v) (mu rhoPrime : Bytes) (kappa : ℕ)

/-- `w = A y`. -/
def commitment : PolyVec v.k (ZMod q) := fun i ↦
  dot (S.expandA sk.rho i) fun j ↦ (expandMask S rhoPrime kappa j).residue

/-- `w1`. -/
def commitmentHigh : PolyVec v.k ℤ := fun i j ↦ highBits v (commitment S sk rhoPrime kappa i j)

/-- The commitment hash. -/
def commitmentHash : Bytes :=
  S.xof (mu ++ w1Encode (commitmentHigh S sk rhoPrime kappa)) v.cTildeLen

/-- The challenge. -/
def challenge : Challenge v.tau := S.sampleInBall (commitmentHash S sk mu rhoPrime kappa)

/-- The challenge times a vector. -/
def scaled {n : ℕ} (s : PolyVec n ℤ) : PolyVec n (ZMod q) := fun i ↦
  negacyclic (challenge S sk mu rhoPrime kappa).coeff.residue (s i).residue

/-- `z = y + c s1`. -/
def response : PolyVec v.l (ZMod q) := fun i ↦
  (expandMask S rhoPrime kappa i).residue + scaled S sk mu rhoPrime kappa sk.s1 i

/-- `w - c s2`. -/
def remainder : PolyVec v.k (ZMod q) := fun i j ↦
  commitment S sk rhoPrime kappa i j - scaled S sk mu rhoPrime kappa sk.s2 i j

/-- The hint. -/
def hint : PolyVec v.k Bool := fun i j ↦
  makeHint v (-scaled S sk mu rhoPrime kappa sk.t0 i j)
    (remainder S sk mu rhoPrime kappa i j + scaled S sk mu rhoPrime kappa sk.t0 i j)

/-- The round is not rejected. -/
structure Passes : Prop where
  response : ∀ i j, |(response S sk mu rhoPrime kappa i j).valMinAbs| < v.gamma1 - v.beta
  remainder : ∀ i j, |lowBits v (remainder S sk mu rhoPrime kappa i j)| < v.gamma2 - v.beta
  ct0 : ∀ i j, |(scaled S sk mu rhoPrime kappa sk.t0 i j).valMinAbs| < v.gamma2
  ones_le : ones (hint S sk mu rhoPrime kappa) ≤ v.omega

/-- What a round that is not rejected gives. -/
theorem signAttempt_eq_some {sig : Bytes} :
    signAttempt S sk mu rhoPrime kappa = some sig ↔
      Passes S sk mu rhoPrime kappa ∧
        sig = sigEncode (commitmentHash S sk mu rhoPrime kappa)
          (fun i j ↦ (response S sk mu rhoPrime kappa i j).valMinAbs)
          (hint S sk mu rhoPrime kappa) := by
  rw [signAttempt]
  constructor
  · intro h
    obtain ⟨⟨hz, hr, hct0, hones⟩, hsig⟩ := Option.ite_none_right_eq_some.mp h
    exact ⟨⟨hz, hr, hct0, hones⟩, (Option.some.inj hsig).symm⟩
  · rintro ⟨⟨hz, hr, hct0, hones⟩, rfl⟩
    exact if_pos ⟨hz, hr, hct0, hones⟩

end Round

/-! ## Verification -/

/-- What a signature has to decode to. -/
structure SignatureParts (v : Variant) where
  cTilde : Bytes
  z : PolyVec v.l ℤ
  h : PolyVec v.k Bool
  length_cTilde : cTilde.length = v.cTildeLen
  z_range : ∀ i j, -(v.gamma1 : ℤ) < z i j ∧ z i j ≤ v.gamma1
  ones_le : ones h ≤ v.omega

def SignatureParts.encode (sig : SignatureParts v) : Bytes :=
  sigEncode sig.cTilde sig.z sig.h

/-- `A z - c t1 2 ^ d`. -/
def wApprox (pk : PublicKey v) (cTilde : Bytes) (z : PolyVec v.l ℤ) :
    PolyVec v.k (ZMod q) := fun i ↦
  dot (S.expandA pk.rho i) (fun j ↦ (z j).residue) -
    negacyclic (S.sampleInBall cTilde).coeff.residue fun j ↦ ((pk.t1 i j * 2 ^ dBits : ℤ) : ZMod q)

/-- Verify_internal: the byte string is the encoding of a short `z` and a hint that lead back to the
commitment hash. -/
def Accepts (pk : PublicKey v) (mu sig : Bytes) : Prop :=
  ∃ parts : SignatureParts v, sig = parts.encode ∧
    (∀ i j, |parts.z i j| < v.gamma1 - v.beta) ∧
    parts.cTilde = S.xof (mu ++ w1Encode fun i j ↦
      useHint v (parts.h i j) (wApprox S pk parts.cTilde parts.z i j)) v.cTildeLen

end Fips204

end MlDsa
