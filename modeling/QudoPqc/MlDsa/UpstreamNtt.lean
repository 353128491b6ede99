import QudoPqc.Arith.Montgomery
import QudoPqc.MlDsa.Ntt
import QudoPqc.MlDsa.Ring

/-!
# OpenSSL's number-theoretic transform

`ml_dsa_ntt.c` and the product of `ml_dsa_matrix.c`. Coefficients are kept in `[0, q)` throughout:
every step ends with a conditional subtraction. So each function is compared with the one of FIPS
204 on representatives, and no bound has to be followed through the layers.

## Main result

* `transforms_exact` : between the transforms the products are those that signing and verification
  are stated with.
-/

namespace MlDsa

open Transform Fips204

namespace Ossl

/-! ## Montgomery reduction -/

/-- `ML_DSA_Q_NEG_INV`. -/
def qNegInv : ℕ := 4236238847

/-- `reduce_montgomery`, with its 32-bit and 64-bit words. -/
def reduceMontgomery (a : ℕ) : ℕ :=
  let t := a % 2 ^ 32 * qNegInv % 2 ^ 32
  let b := (a + t * q) % 2 ^ 64
  let c := (b >>> 32) % 2 ^ 32
  reduceOnce c

/-- The reduction of a product below `2 ^ 32 * q`. -/
theorem reduceMontgomery_eq {a : ℕ} {r : ZMod q} (ha : a < 2 ^ 32 * q)
    (hr : (a : ZMod q) = r * mont) : reduceMontgomery a = r.val := by
  have hinv : 2 ^ 32 ∣ q * qNegInv + 1 := by decide +kernel
  have hfactor : a % 2 ^ 32 * qNegInv % 2 ^ 32 = a * qNegInv % 2 ^ 32 := Nat.mod_mul_mod _ _ _
  have hmul := Montgomery.unsigned_mul hinv a
  have hlt := Montgomery.unsigned_lt hinv a ha
  have hred : reduceMontgomery a = reduceOnce (Montgomery.unsigned 32 q qNegInv a) := by
    rw [reduceMontgomery, hfactor, ← hmul]
    have hq : q = 8380417 := rfl
    generalize Montgomery.unsigned 32 q qNegInv a = c at hlt ⊢
    rw [Nat.mod_eq_of_lt (show c * 2 ^ 32 < 2 ^ 64 by omega), Nat.shiftRight_eq_div_pow,
      Nat.mul_div_cancel _ (by decide), Nat.mod_eq_of_lt (by omega)]
  rw [hred]
  refine eq_val_of_cast (reduceOnce_lt hlt) ?_
  rw [reduceOnce_cast]
  refine eq_of_mul_mont ?_
  have hcast := congrArg (Nat.cast : ℕ → ZMod q) hmul
  rw [Nat.cast_mul, Nat.cast_add, Nat.cast_mul, ZMod.natCast_self, mul_zero, add_zero,
    Nat.cast_pow] at hcast
  rw [← hr]
  exact hcast

/-! ## The table -/

/-- `zetas_montgomery`. -/
def zetasMontgomery : List ℕ :=
  [4193792, 25847, 5771523, 7861508, 237124, 7602457, 7504169, 466468, 1826347, 2353451, 8021166,
  6288512, 3119733, 5495562, 3111497, 2680103, 2725464, 1024112, 7300517, 3585928, 7830929,
  7260833, 2619752, 6271868, 6262231, 4520680, 6980856, 5102745, 1757237, 8360995, 4010497,
  280005, 2706023, 95776, 3077325, 3530437, 6718724, 4788269, 5842901, 3915439, 4519302, 5336701,
  3574422, 5512770, 3539968, 8079950, 2348700, 7841118, 6681150, 6736599, 3505694, 4558682,
  3507263, 6239768, 6779997, 3699596, 811944, 531354, 954230, 3881043, 3900724, 5823537, 2071892,
  5582638, 4450022, 6851714, 4702672, 5339162, 6927966, 3475950, 2176455, 6795196, 7122806,
  1939314, 4296819, 7380215, 5190273, 5223087, 4747489, 126922, 3412210, 7396998, 2147896,
  2715295, 5412772, 4686924, 7969390, 5903370, 7709315, 7151892, 8357436, 7072248, 7998430,
  1349076, 1852771, 6949987, 5037034, 264944, 508951, 3097992, 44288, 7280319, 904516, 3958618,
  4656075, 8371839, 1653064, 5130689, 2389356, 8169440, 759969, 7063561, 189548, 4827145, 3159746,
  6529015, 5971092, 8202977, 1315589, 1341330, 1285669, 6795489, 7567685, 6940675, 5361315,
  4499357, 4751448, 3839961, 2091667, 3407706, 2316500, 3817976, 5037939, 2244091, 5933984,
  4817955, 266997, 2434439, 7144689, 3513181, 4860065, 4621053, 7183191, 5187039, 900702, 1859098,
  909542, 819034, 495491, 6767243, 8337157, 7857917, 7725090, 5257975, 2031748, 3207046, 4823422,
  7855319, 7611795, 4784579, 342297, 286988, 5942594, 4108315, 3437287, 5038140, 1735879, 203044,
  2842341, 2691481, 5790267, 1265009, 4055324, 1247620, 2486353, 1595974, 4613401, 1250494,
  2635921, 4832145, 5386378, 1869119, 1903435, 7329447, 7047359, 1237275, 5062207, 6950192,
  7929317, 1312455, 3306115, 6417775, 7100756, 1917081, 5834105, 7005614, 1500165, 777191,
  2235880, 3406031, 7838005, 5548557, 6709241, 6533464, 5796124, 4656147, 594136, 4603424,
  6366809, 2432395, 2454455, 8215696, 1957272, 3369112, 185531, 7173032, 5196991, 162844, 1616392,
  3014001, 810149, 1652634, 4686184, 6581310, 5341501, 3523897, 3866901, 269760, 2213111, 7404533,
  1717735, 472078, 7953734, 1723600, 6577327, 1910376, 6712985, 7276084, 8119771, 4546524,
  5441381, 6144432, 7959518, 6094090, 183443, 7403526, 1612842, 4834730, 7826001, 3919660,
  8332111, 7018208, 3937738, 1400424, 7534263, 1976782]

theorem zetasMontgomery_spec {k : ℕ} (h1 : 1 ≤ k) (hk : k < 256) :
    zetasMontgomery.getD k 0 < q ∧ (zetasMontgomery.getD k 0 : ZMod q) =
    zetas k * mont := by
  have htable : ∀ k < 256, 1 ≤ k → zetasMontgomery.getD k 0 < q ∧
      zetasMontgomery.getD k 0 = 1753 ^ bitRev8 k * 2 ^ 32 % q := by decide +kernel
  obtain ⟨hlt, heq⟩ := htable k hk h1
  refine ⟨hlt, ?_⟩
  rw [heq, ZMod.natCast_mod, zetas, zeta, mont]
  push_cast
  rfl

/-! ## The functions -/

/-- The innermost loop of `ossl_ml_dsa_poly_ntt`. -/
def nttButterfly (zStepRoot wEven odd : ℕ) : ℕ × ℕ :=
  let tOdd := reduceMontgomery (zStepRoot * odd)
  (reduceOnce (wEven + tOdd), modSub wEven tOdd)

/-- One value of `step` in `ossl_ml_dsa_poly_ntt`. -/
def nttStep (c : ℕ → ℕ) (step : ℕ) : ℕ → ℕ :=
  (Butterfly.pass (fun k ↦ nttButterfly (zetasMontgomery.getD k 0)) step (128 / step)
    (step - 1, c)).2

/-- `ossl_ml_dsa_poly_ntt`. -/
def polyNtt (p : Poly ℕ) : Poly ℕ := fun j ↦
  [1, 2, 4, 8, 16, 32, 64, 128].foldl nttStep (extend p) j

/-- The innermost loop of `ossl_ml_dsa_poly_ntt_inverse`. -/
def nttInverseButterfly (stepRoot even odd : ℕ) : ℕ × ℕ :=
  (reduceOnce (odd + even), reduceMontgomery (stepRoot * (q + even - odd)))

/-- One value of `step` in `ossl_ml_dsa_poly_ntt_inverse`; the block `i` takes the root with the
index `step + (step - 1 - i)`. -/
def nttInverseStep (c : ℕ → ℕ) (step : ℕ) : ℕ → ℕ :=
  (Butterfly.pass (fun k ↦ nttInverseButterfly (q - zetasMontgomery.getD (2 * step - k) 0)) step
    (128 / step) (0, c)).2

/-- `ossl_ml_dsa_poly_ntt_inverse`. -/
def polyNttInverse (p : Poly ℕ) : Poly ℕ := fun j ↦
  reduceMontgomery ([128, 64, 32, 16, 8, 4, 2, 1].foldl nttInverseStep (extend p) j * 41978)

/-- `ossl_ml_dsa_poly_ntt_mult`. -/
def polyNttMult (lhs rhs : Poly ℕ) : Poly ℕ := fun i ↦ reduceMontgomery (lhs i * rhs i)

/-- A row of `ossl_ml_dsa_matrix_mult_vector`. -/
def matrixRow {n : ℕ} (a s : PolyVec n ℕ) : Poly ℕ :=
  (List.finRange n).foldl (fun t j ↦ polyAdd (polyNttMult (a j) (s j)) t) 0

/-! ## On residues -/

/-- Multiplying with a constant in Montgomery form multiplies with the constant. -/
theorem reduceMontgomery_mul {zm x : ℕ} {y z : ZMod q} (hzm : zm ≤ q)
    (hz : (zm : ZMod q) = z * mont)
    (hx : x < 2 ^ 32) (hy : (x : ZMod q) = y) : reduceMontgomery (zm * x) = (z * y).val := by
  have hlt : zm * x < 2 ^ 32 * q := by
    rw [Nat.mul_comm]
    exact Nat.mul_lt_mul_of_lt_of_le hx hzm (by decide)
  refine reduceMontgomery_eq hlt ?_
  rw [Nat.cast_mul, hz, hy]
  ring

theorem nttButterfly_val {zm : ℕ} {z : ZMod q} (hzm : zm ≤ q) (hz : (zm : ZMod q) = z * mont)
    (a b : ZMod q) :
    nttButterfly zm a.val b.val = ((split z a b).1.val, (split z a b).2.val) := by
  have hb : b.val < 2 ^ 32 := b.val_lt.trans (by decide)
  rw [nttButterfly, reduceMontgomery_mul hzm hz hb (ZMod.natCast_zmod_val b), reduceOnce_val_add,
    modSub_val, split]

theorem nttInverseButterfly_val {zm : ℕ} {z : ZMod q} (hzm : zm ≤ q)
    (hz : (zm : ZMod q) = z * mont) (a b : ZMod q) :
    nttInverseButterfly zm a.val b.val = ((merge z a b).1.val, (merge z a b).2.val) := by
  have ha := a.val_lt
  have hb := b.val_lt
  have hq : q = 8380417 := rfl
  have hdiff : ((q + a.val - b.val : ℕ) : ZMod q) = a - b := by
    rw [Nat.cast_sub (by omega), Nat.cast_add, ZMod.natCast_self, ZMod.natCast_zmod_val,
      ZMod.natCast_zmod_val, zero_add]
  rw [nttInverseButterfly, reduceMontgomery_mul hzm hz (by omega) hdiff, reduceOnce_val_add, merge,
    add_comm b a]

/-- The array of the representatives of residues. -/
def Represents (c : ℕ → ℕ) (f : ℕ → ZMod q) : Prop := ∀ i < 256, c i = (f i).val

section Layers

variable {d : ℕ} (hd : d < 8) {c : ℕ → ℕ} {f : ℕ → ZMod q} (h : Represents c f)

include hd in
theorem offset_eq : 128 / 2 ^ d = 2 ^ (8 - (d + 1)) ∧ 2 * 2 ^ (8 - (d + 1)) * 2 ^ d = 256 := by
  interval_cases d <;> exact ⟨rfl, rfl⟩

include hd h in
theorem Represents.nttStep :
    Represents (nttStep c (2 ^ d)) (layer zetas d (2 ^ (8 - (d + 1))) f) := by
  obtain ⟨hoffset, hsize⟩ := offset_eq hd
  have hpow : 2 ^ d ≤ 2 ^ 7 := Nat.pow_le_pow_right two_pos (by omega)
  have hpos : 0 < 2 ^ d := Nat.two_pow_pos d
  rw [Represents, ← hsize] at h ⊢
  rw [Ossl.nttStep, hoffset, layer]
  refine Butterfly.pass_rel (P := fun x y ↦ x = ZMod.val y) (Q := fun x y ↦ x = ZMod.val y)
    (Nat.two_pow_pos _) rfl ?_ h
  rintro k hk hk' _ _ u v rfl rfl
  obtain ⟨hlt, hz⟩ := zetasMontgomery_spec (show 1 ≤ k by omega) (show k < 256 by omega)
  rw [nttButterfly_val hlt.le hz]
  exact ⟨rfl, rfl⟩

include hd h in
theorem Represents.nttInverseStep :
    Represents (nttInverseStep c (2 ^ d))
      (unlayer (zetasInv d) d (2 ^ (8 - (d + 1))) f) := by
  obtain ⟨hoffset, hsize⟩ := offset_eq hd
  have hpow : 2 ^ d ≤ 2 ^ 7 := Nat.pow_le_pow_right two_pos (by omega)
  rw [Represents, ← hsize] at h ⊢
  rw [Ossl.nttInverseStep, hoffset, unlayer]
  refine Butterfly.pass_rel (P := fun x y ↦ x = ZMod.val y) (Q := fun x y ↦ x = ZMod.val y)
    (Nat.two_pow_pos _) rfl ?_ h
  rintro k hk hk' _ _ u v rfl rfl
  obtain ⟨hlt, hz⟩ := zetasMontgomery_spec (k := 2 * 2 ^ d - k) (by omega) (by omega)
  have hz' : ((q - zetasMontgomery.getD (2 * 2 ^ d - k) 0 : ℕ) : ZMod q) =
      zetasInv d k * mont := by
    rw [Nat.cast_sub hlt.le, ZMod.natCast_self, hz, zetasInv, pow_succ', neg_mul, zero_sub]
  rw [nttInverseButterfly_val (Nat.sub_le _ _) hz']
  exact ⟨rfl, rfl⟩

end Layers

theorem represents_foldl_nttStep {c : ℕ → ℕ} {f : ℕ → ZMod q} (h : Represents c f) {d : ℕ}
    (hd : d ≤ 8) :
    Represents (((List.range d).map (2 ^ ·)).foldl nttStep c) (forward zetas 8 d f) := by
  induction d with
  | zero => exact h
  | succ d ih =>
    rw [List.range_succ, List.map_append, List.foldl_append, List.map_singleton, List.foldl_cons,
      List.foldl_nil, forward]
    exact (ih (by omega)).nttStep hd

theorem represents_foldl_nttInverseStep {d : ℕ} (hd : d ≤ 8) {c : ℕ → ℕ} {f : ℕ → ZMod q}
    (h : Represents c f) :
    Represents (((List.range d).map (2 ^ ·)).reverse.foldl nttInverseStep c)
      (backward zetasInv 8 d f) := by
  induction d generalizing c f with
  | zero => exact h
  | succ d ih =>
    rw [List.range_succ, List.map_append, List.map_singleton, List.reverse_append,
      List.reverse_singleton, List.singleton_append, List.foldl_cons, backward]
    exact ih (by omega) (h.nttInverseStep hd)

theorem represents_extend (f : Poly (ZMod q)) : Represents (extend f.val) (extend f) := by
  intro i (hi : i < numCoeff)
  rw [extend_of_lt _ hi, extend_of_lt _ hi]
  rfl

/-- `ossl_ml_dsa_poly_ntt` is NTT. -/
theorem polyNtt_val (f : Poly (ZMod q)) : polyNtt f.val = (ntt f).val :=
  funext fun j ↦ represents_foldl_nttStep (represents_extend f) le_rfl j j.isLt

/-- `ossl_ml_dsa_poly_ntt_inverse` is its inverse, times `2 ^ 32`. -/
theorem polyNttInverse_val (f : Poly (ZMod q)) :
    polyNttInverse f.val = Poly.val fun j ↦ mont * nttInv f j := by
  have hscale : ((41978 : ℕ) : ZMod q) = mont * 8347681 * mont := by decide +kernel
  funext j
  have hback := represents_foldl_nttInverseStep le_rfl (represents_extend f) j j.isLt
  have hlt : (backward zetasInv 8 8 (extend f) j).val < 2 ^ 32 :=
    (ZMod.val_lt _).trans (by decide)
  have hmul := reduceMontgomery_mul (by decide) hscale hlt (ZMod.natCast_zmod_val _)
  rw [mul_assoc, Nat.mul_comm] at hmul
  rw [← hback] at hmul
  exact hmul

/-- `ossl_ml_dsa_poly_ntt_mult`, which takes `2 ^ 32` off. -/
theorem polyNttMult_val (f g : Poly (ZMod q)) :
    polyNttMult f.val g.val = Poly.val fun j ↦ montInv * (f * g) j := by
  funext j
  refine reduceMontgomery_eq ?_ ?_
  · exact Nat.mul_lt_mul_of_lt_of_lt ((f j).val_lt.trans (by decide)) (g j).val_lt
  · rw [Nat.cast_mul, Poly.val, Poly.val, ZMod.natCast_zmod_val, ZMod.natCast_zmod_val, mul_comm,
      mul_right_comm, montInv_mul_mont, one_mul, Pi.mul_apply, mul_comm]

/-- A row of a matrix times a vector, in the transformed domain. -/
theorem matrixRow_val {n : ℕ} (f g : PolyVec n (ZMod q)) :
    matrixRow f.val g.val = Poly.val fun i ↦ montInv * (∑ j, f j * g j) i := by
  have hfold : ∀ (js : List (Fin n)) (t : Poly (ZMod q)),
      js.foldl (fun t j ↦ polyAdd (polyNttMult (f.val j) (g.val j)) t) t.val =
        (t + (js.map fun j ↦ fun i ↦ montInv * (f j * g j) i).sum).val := by
    intro js
    induction js with
    | nil => intro t; rw [List.foldl_nil, List.map_nil, List.sum_nil, add_zero]
    | cons j js ih =>
      intro t
      have hstep : polyAdd (polyNttMult (f.val j) (g.val j)) t.val =
          Poly.val ((fun i ↦ montInv * (f j * g j) i) + t) := by
        rw [← polyAdd_val, ← polyNttMult_val]
        rfl
      rw [List.foldl_cons, hstep, ih, List.map_cons, List.sum_cons, add_comm _ t, add_assoc]
  have hzero : (0 : Poly ℕ) = Poly.val 0 := funext fun _ ↦ ZMod.val_zero.symm
  rw [matrixRow, hzero, hfold, zero_add, ← List.ofFn_eq_map, List.sum_ofFn]
  congr 1
  funext i
  rw [Finset.sum_apply, Finset.sum_apply, Finset.mul_sum]

/-! ## Between the transforms -/

theorem val_cast_of_lt {p : Poly ℕ} (h : ∀ j, p j < q) : p.cast.val = p :=
  funext fun j ↦ ZMod.val_natCast_of_lt (h j)

theorem polySub_val (a b : Poly (ZMod q)) : polySub a.val b.val = (a - b).val :=
  funext fun i ↦ modSub_val (a i) (b i)

theorem polyNttInverse_montInv (f : Poly (ZMod q)) :
    polyNttInverse (Poly.val fun j ↦ montInv * f j) = (nttInv f).val := by
  rw [polyNttInverse_val, mont_nttInv]

/-- Products of polynomials. -/
theorem polyNttInverse_mult (f g : Poly (ZMod q)) :
    polyNttInverse (polyNttMult (polyNtt f.val) (polyNtt g.val)) =
      Poly.val (negacyclic g f) := by
  rw [polyNtt_val, polyNtt_val, polyNttMult_val, polyNttInverse_montInv, mul_comm, nttInv_mul]

/-- Products with a matrix. -/
theorem polyNttInverse_matrixRow {n : ℕ} (f g : PolyVec n (ZMod q)) :
    polyNttInverse (matrixRow (PolyVec.val fun j ↦ ntt (f j))
      fun j ↦ polyNtt (g.val j)) = (dot f g).val := by
  have hg : (fun j ↦ polyNtt (g.val j)) = PolyVec.val fun j ↦ ntt (g j) :=
    funext fun j ↦ polyNtt_val (g j)
  rw [hg, matrixRow_val, polyNttInverse_montInv, nttInv_dot]

/-- The difference of the two, which verification takes in the transformed domain. -/
theorem polyNttInverse_sub {n : ℕ} (f g : PolyVec n (ZMod q)) (c t : Poly (ZMod q)) :
    polyNttInverse (polySub (matrixRow (PolyVec.val fun j ↦ ntt (f j))
        fun j ↦ polyNtt (g.val j)) (polyNttMult (polyNtt t.val) (polyNtt c.val))) =
      (dot f g - negacyclic c t).val := by
  have hg : (fun j ↦ polyNtt (g.val j)) = PolyVec.val fun j ↦ ntt (g j) :=
    funext fun j ↦ polyNtt_val (g j)
  have hfactor : ∀ a b : Poly (ZMod q), ((fun j ↦ montInv * a j) - fun j ↦ montInv * b j) =
      fun j ↦ montInv * (a - b) j := fun a b ↦ funext fun j ↦ (mul_sub montInv (a j) (b j)).symm
  rw [hg, matrixRow_val, polyNtt_val, polyNtt_val, polyNttMult_val, polySub_val, hfactor,
    polyNttInverse_montInv, nttInv_sub, nttInv_dot, mul_comm, nttInv_mul]

/-- The products that signing and verification take through the transform are the exact ones of the
ring, for all reduced operands and every matrix as it is sampled. -/
theorem transforms_exact {n : ℕ} {mat s : PolyVec n ℕ} {c t : Poly ℕ} (hmat : ∀ i j, mat i j < q)
    (hs : ∀ i j, s i j < q) (hc : ∀ j, c j < q) (ht : ∀ j, t j < q) :
    polyNttInverse (polyNttMult (polyNtt t) (polyNtt c)) = nttMult c t ∧
      polyNttInverse (matrixRow mat fun j ↦ polyNtt (s j)) =
        (dot (fun j ↦ nttInv (mat j).cast) s.cast).val ∧
      polyNttInverse (polySub (matrixRow mat fun j ↦ polyNtt (s j))
          (polyNttMult (polyNtt t) (polyNtt c))) =
        polySub (dot (fun j ↦ nttInv (mat j).cast) s.cast).val (nttMult c t) := by
  have hmat' : mat = PolyVec.val fun j ↦ ntt (nttInv (mat j).cast) := by
    funext j
    rw [PolyVec.val, ntt_nttInv, val_cast_of_lt (hmat j)]
  have hs' : s.cast.val = s := funext fun j ↦ val_cast_of_lt (hs j)
  have hprod := polyNttInverse_mult t.cast c.cast
  have hrow := polyNttInverse_matrixRow (fun j ↦ nttInv (mat j).cast) s.cast
  have hdiff := polyNttInverse_sub (fun j ↦ nttInv (mat j).cast) s.cast c.cast t.cast
  rw [val_cast_of_lt hc, val_cast_of_lt ht] at hprod hdiff
  rw [← hmat', hs'] at hrow hdiff
  refine ⟨hprod, hrow, hdiff.trans ?_⟩
  rw [nttMult, polySub_val]

theorem transforms_exact_top :
    polyNttInverse (polyNttMult (polyNtt fun _ ↦ q - 1) (polyNtt fun _ ↦ q - 1)) =
        nttMult (fun _ ↦ q - 1) (fun _ ↦ q - 1) ∧
      polyNttInverse (matrixRow (fun _ : Fin 7 ↦ fun _ ↦ q - 1) fun _ ↦ polyNtt fun _ ↦ q - 1) =
        (dot (fun _ : Fin 7 ↦ nttInv (Poly.cast fun _ ↦ q - 1))
          (PolyVec.cast fun _ _ ↦ q - 1)).val ∧
      polyNttInverse (polySub
          (matrixRow (fun _ : Fin 7 ↦ fun _ ↦ q - 1) fun _ ↦ polyNtt fun _ ↦ q - 1)
          (polyNttMult (polyNtt fun _ ↦ q - 1) (polyNtt fun _ ↦ q - 1))) =
        polySub (dot (fun _ : Fin 7 ↦ nttInv (Poly.cast fun _ ↦ q - 1))
          (PolyVec.cast fun _ _ ↦ q - 1)).val (nttMult (fun _ ↦ q - 1) fun _ ↦ q - 1) :=
  transforms_exact (fun _ _ ↦ by decide) (fun _ _ ↦ by decide) (fun _ ↦ by decide)
    fun _ ↦ by decide

end Ossl

end MlDsa
