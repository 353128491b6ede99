import QudoPqc.Arith.Montgomery
import QudoPqc.MlDsa.Engine
import QudoPqc.MlDsa.Ntt

/-!
# The engine's number-theoretic transform

`mld_poly_ntt`, `mld_poly_invntt_tomont` and the products between them, in the portable C version of
`poly.c` and `polyvec.c`. Coefficients are 32-bit words and products 64-bit words; a sum that is
stored is cut to its width (`intN`), and so would show a wrong result if it ever left the range.

Coefficients are not kept reduced. A layer of the transform adds less than `q` to their absolute
values, so that after eight layers they are below `9 * q`; a layer of the inverse doubles them, up
to `256 * q`. Each value is followed together with the residue it stands for (`Lifts`).

## Main results

* `product_exact` : between the transforms, the entrywise Montgomery product is the product in the
  ring, for all factors with coefficients below `q` in absolute value.
* `rowSub_exact` : the same for a row of verification, with a matrix in the transformed domain.
* `engineProducts` : so the engine's transforms are one choice of `Products`.
-/

namespace MlDsa

open Transform Fips204

namespace Native

variable {x B B' x' : ℤ} {y y' : ZMod q} {d l : ℕ} {c : ℕ → ℤ} {f : Poly (ZMod q)} {p : Poly ℤ}

/-! ## Words -/

/-- A number cut to a signed word of `w` bits. -/
def intN (w : ℕ) (x : ℤ) : ℤ := x.bmod (2 ^ w)

theorem intN_eq {w : ℕ} (h : 2 * |x| < 2 ^ w) : intN w x = x := by
  obtain ⟨hge, hlt⟩ := abs_lt.mp (show |x| < 2 ^ w / 2 + 2 ^ w % 2 by omega)
  refine Int.bmod_eq_of_le ?_ ?_ <;> push_cast <;> omega

/-! ## Montgomery multiplication -/

/-- `mld_montgomery_reduce`. -/
def montgomeryReduce (a : ℤ) : ℤ :=
  let aReduced := a % 2 ^ 32
  let aInverted := aReduced * 58728449 % 2 ^ 32
  let t := intN 32 aInverted
  let r := intN 64 (a - t * q)
  intN 32 (r / 2 ^ 32)

/-- `mld_fqmul`. -/
def fqmul (a b : ℤ) : ℤ := montgomeryReduce (a * b)

/-- `mld_fqscale`. -/
def fqscale (a : ℤ) : ℤ := montgomeryReduce (a * 41978)

/-- The reduction is exact, and its result a representative below `q`. -/
theorem montgomeryReduce_spec {a : ℤ} (ha : |a| < 2 ^ 31 * q) :
    |montgomeryReduce a| < q ∧ (montgomeryReduce a : ZMod q) * mont = a := by
  have hinv : (2 ^ 32 : ℤ) ∣ (q : ℤ) * 58728449 - 1 := by decide +kernel
  have hfactor : intN 32 (a % 2 ^ 32 * 58728449 % 2 ^ 32) = (a * 58728449).bmod (2 ^ 32) := by
    have hcast : ((2 ^ 32 : ℕ) : ℤ) = 2 ^ 32 := rfl
    rw [intN, ← hcast, Int.emod_bmod, Int.mul_bmod, Int.emod_bmod, ← Int.mul_bmod]
  have hlt : |Montgomery.signed 32 q 58728449 a| < q :=
    Montgomery.abs_signed_lt hinv a (by omega)
  have hexact := Montgomery.signed_mul hinv a
  have hmont : montgomeryReduce a = Montgomery.signed 32 q 58728449 a := by
    rw [montgomeryReduce, hfactor, ← hexact]
    rw [q_int] at hlt
    generalize Montgomery.signed 32 q 58728449 a = r at hlt ⊢
    have hprod : |r * 2 ^ 32| = |r| * 2 ^ 32 := by rw [abs_mul]; rfl
    have h64 : intN 64 (r * 2 ^ 32) = r * 2 ^ 32 := intN_eq (by omega)
    have hshift : r * 2 ^ 32 / 2 ^ 32 = r := Int.mul_ediv_cancel r (by decide)
    rw [h64, hshift]
    exact intN_eq (by omega)
  rw [hmont]
  refine ⟨hlt, ?_⟩
  have hcast := congrArg (Int.cast : ℤ → ZMod q) hexact
  rw [Int.cast_mul, Int.cast_sub, Int.cast_mul, Int.cast_natCast, ZMod.natCast_self, mul_zero,
    sub_zero, Int.cast_pow] at hcast
  exact hcast

/-! ## The table -/

/-- `mld_zetas`. -/
def mldZetas : List ℤ :=
  [0, 25847, -2608894, -518909, 237124, -777960, -876248, 466468, 1826347, 2353451, -359251,
  -2091905, 3119733, -2884855, 3111497, 2680103, 2725464, 1024112, -1079900, 3585928, -549488,
  -1119584, 2619752, -2108549, -2118186, -3859737, -1399561, -3277672, 1757237, -19422, 4010497,
  280005, 2706023, 95776, 3077325, 3530437, -1661693, -3592148, -2537516, 3915439, -3861115,
  -3043716, 3574422, -2867647, 3539968, -300467, 2348700, -539299, -1699267, -1643818, 3505694,
  -3821735, 3507263, -2140649, -1600420, 3699596, 811944, 531354, 954230, 3881043, 3900724,
  -2556880, 2071892, -2797779, -3930395, -1528703, -3677745, -3041255, -1452451, 3475950, 2176455,
  -1585221, -1257611, 1939314, -4083598, -1000202, -3190144, -3157330, -3632928, 126922, 3412210,
  -983419, 2147896, 2715295, -2967645, -3693493, -411027, -2477047, -671102, -1228525, -22981,
  -1308169, -381987, 1349076, 1852771, -1430430, -3343383, 264944, 508951, 3097992, 44288,
  -1100098, 904516, 3958618, -3724342, -8578, 1653064, -3249728, 2389356, -210977, 759969,
  -1316856, 189548, -3553272, 3159746, -1851402, -2409325, -177440, 1315589, 1341330, 1285669,
  -1584928, -812732, -1439742, -3019102, -3881060, -3628969, 3839961, 2091667, 3407706, 2316500,
  3817976, -3342478, 2244091, -2446433, -3562462, 266997, 2434439, -1235728, 3513181, -3520352,
  -3759364, -1197226, -3193378, 900702, 1859098, 909542, 819034, 495491, -1613174, -43260,
  -522500, -655327, -3122442, 2031748, 3207046, -3556995, -525098, -768622, -3595838, 342297,
  286988, -2437823, 4108315, 3437287, -3342277, 1735879, 203044, 2842341, 2691481, -2590150,
  1265009, 4055324, 1247620, 2486353, 1595974, -3767016, 1250494, 2635921, -3548272, -2994039,
  1869119, 1903435, -1050970, -1333058, 1237275, -3318210, -1430225, -451100, 1312455, 3306115,
  -1962642, -1279661, 1917081, -2546312, -1374803, 1500165, 777191, 2235880, 3406031, -542412,
  -2831860, -1671176, -1846953, -2584293, -3724270, 594136, -3776993, -2013608, 2432395, 2454455,
  -164721, 1957272, 3369112, 185531, -1207385, -3183426, 162844, 1616392, 3014001, 810149,
  1652634, -3694233, -1799107, -3038916, 3523897, 3866901, 269760, 2213111, -975884, 1717735,
  472078, -426683, 1723600, -1803090, 1910376, -1667432, -1104333, -260646, -3833893, -2939036,
  -2235985, -420899, -2286327, 183443, -976891, 1612842, -3545687, -554416, 3919660, -48306,
  -1362209, 3937738, 1400424, -846154, 1976782]

/-- The table holds the roots of FIPS 204 in Montgomery form, as representatives closest to zero. -/
theorem mldZetas_spec {k : ℕ} (h1 : 1 ≤ k) (hk : k < 256) :
    2 * |mldZetas.getD k 0| < q ∧ (mldZetas.getD k 0 : ZMod q) = zetas k * mont := by
  have htable : ∀ k < 256, 1 ≤ k → 2 * |mldZetas.getD k 0| < q ∧
      (q : ℤ) ∣ mldZetas.getD k 0 - (1753 ^ bitRev8 k * 2 ^ 32 : ℕ) := by decide +kernel
  obtain ⟨hlt, hdvd⟩ := htable k hk h1
  refine ⟨hlt, ?_⟩
  rw [← ZMod.intCast_zmod_eq_zero_iff_dvd, Int.cast_sub, sub_eq_zero] at hdvd
  rw [hdvd, zetas, zeta, mont]
  push_cast
  rfl

/-! ## The functions -/

/-- The loop body of `mld_ntt_butterfly_block`. -/
def nttButterfly (zeta a b : ℤ) : ℤ × ℤ :=
  let t := fqmul b zeta
  (intN 32 (a + t), intN 32 (a - t))

/-- `mld_ntt_layer`. -/
def nttLayer (r : ℕ → ℤ) (layer : ℕ) : ℕ → ℤ :=
  (Butterfly.pass (fun k ↦ nttButterfly (mldZetas.getD k 0)) (2 ^ (layer - 1)) (256 >>> layer)
    (2 ^ (layer - 1) - 1, r)).2

/-- `mld_poly_ntt_c`. -/
def polyNtt (a : Poly ℤ) : Poly ℤ := fun j ↦ [1, 2, 3, 4, 5, 6, 7, 8].foldl nttLayer (extend a) j

/-- The inner loop body of `mld_invntt_layer`. -/
def invnttButterfly (zeta a b : ℤ) : ℤ × ℤ := (intN 32 (a + b), fqmul (intN 32 (a - b)) zeta)

/-- `mld_invntt_layer`; the table is read downwards from `2 ^ layer - 1`. -/
def invnttLayer (r : ℕ → ℤ) (layer : ℕ) : ℕ → ℤ :=
  (Butterfly.pass (fun k ↦ invnttButterfly (-mldZetas.getD (2 ^ layer - k) 0)) (2 ^ (layer - 1))
    (256 >>> layer) (0, r)).2

/-- `mld_poly_invntt_tomont_c`. -/
def polyInvnttTomont (a : Poly ℤ) : Poly ℤ := fun j ↦
  fqscale ([8, 7, 6, 5, 4, 3, 2, 1].foldl invnttLayer (extend a) j)

/-- `mld_poly_pointwise_montgomery_c`. -/
def polyPointwiseMontgomery (a b : Poly ℤ) : Poly ℤ := fun j ↦ montgomeryReduce (a j * b j)

/-- `mld_polyvecl_pointwise_acc_montgomery_c`, with its 64-bit accumulator. -/
def polyveclPointwiseAccMontgomery {l : ℕ} (u v : PolyVec l ℤ) : Poly ℤ := fun i ↦
  montgomeryReduce ((List.finRange l).foldl (fun t j ↦ intN 64 (t + u j i * v j i)) 0)

/-- `mld_poly_sub`. -/
def polySub (r b : Poly ℤ) : Poly ℤ := fun j ↦ intN 32 (r j - b j)

/-! ## Layers -/

/-- A representative of a residue, below `B` in absolute value. -/
def Lift (B x : ℤ) (y : ZMod q) : Prop := |x| < B ∧ (x : ZMod q) = y

/-- The array holds representatives of residues. -/
def Lifts (B : ℤ) (c : ℕ → ℤ) (f : ℕ → ZMod q) : Prop := ∀ i < 256, Lift B (c i) (f i)

theorem Lift.add (h : Lift B x y) (h' : Lift B' x' y')
    (hB : B + B' ≤ 2 ^ 31) : Lift (B + B') (intN 32 (x + x')) (y + y') := by
  obtain ⟨hx, rfl⟩ := h
  obtain ⟨hx', rfl⟩ := h'
  have hsum : |x + x'| < B + B' := (abs_add_le x x').trans_lt (add_lt_add hx hx')
  rw [intN_eq (by omega)]
  exact ⟨hsum, Int.cast_add x x'⟩

theorem Lift.sub (h : Lift B x y) (h' : Lift B' x' y')
    (hB : B + B' ≤ 2 ^ 31) : Lift (B + B') (intN 32 (x - x')) (y - y') := by
  obtain ⟨hx, rfl⟩ := h
  obtain ⟨hx', rfl⟩ := h'
  have hsum : |x - x'| < B + B' := (abs_sub x x').trans_lt (add_lt_add hx hx')
  rw [intN_eq (by omega)]
  exact ⟨hsum, Int.cast_sub x x'⟩

/-- Multiplying with a constant in Montgomery form multiplies with the constant. -/
theorem Lift.fqmul {b zm : ℤ} {z : ZMod q} (hb : Lift (2 ^ 31) b y) (hzm : 2 * |zm| < q)
    (hz : (zm : ZMod q) = z * mont) : Lift q (fqmul b zm) (z * y) := by
  obtain ⟨hb, rfl⟩ := hb
  have hlt : |b * zm| < 2 ^ 31 * q := by
    rw [abs_mul]
    exact mul_lt_mul'' hb (by linarith [abs_nonneg zm]) (abs_nonneg b) (abs_nonneg zm)
  obtain ⟨habs, hcast⟩ := montgomeryReduce_spec hlt
  refine ⟨habs, eq_of_mul_mont ?_⟩
  rw [Native.fqmul, hcast, Int.cast_mul, hz]
  ring

theorem Lift.mono (h : Lift B x y) (hB : B ≤ B') : Lift B' x y :=
  ⟨h.1.trans_le hB, h.2⟩

theorem shift_eq (hd : d < 8) : 256 >>> (d + 1) = 2 ^ (8 - (d + 1)) := by
  interval_cases d <;> rfl

theorem blocks_eq (hd : d < 8) : 2 * 2 ^ (8 - (d + 1)) * 2 ^ d = 256 := by
  interval_cases d <;> rfl

/-- A layer adds less than `q`. -/
theorem Lifts.nttLayer (hd : d < 8) {f : ℕ → ZMod q}
    (h : Lifts ((d + 1) * q) c f) :
    Lifts ((d + 1) * q + q) (nttLayer c (d + 1))
      (layer zetas d (2 ^ (8 - (d + 1))) f) := by
  have hsize := blocks_eq hd
  have hpow : 2 ^ d ≤ 2 ^ 7 := Nat.pow_le_pow_right two_pos (by omega)
  have hB : ((d + 1) * q : ℤ) ≤ 8 * q :=
    mul_le_mul_of_nonneg_right (by omega) (Int.natCast_nonneg q)
  rw [q_int] at hB
  rw [Lifts, ← hsize] at h ⊢
  rw [Native.nttLayer, Nat.add_sub_cancel, shift_eq hd, layer]
  refine Butterfly.pass_rel (Nat.two_pow_pos _) rfl ?_ h
  intro k hk hk' u v u' v' hu hv
  have hpos : 0 < 2 ^ d := Nat.two_pow_pos d
  obtain ⟨hzlt, hz⟩ := mldZetas_spec (show 1 ≤ k by omega) (show k < 256 by omega)
  have ht := (hv.mono (by rw [q_int]; omega)).fqmul hzlt hz
  exact ⟨hu.add ht (by rw [q_int]; omega), hu.sub ht (by rw [q_int]; omega)⟩

/-- A layer of the inverse doubles the bound. -/
theorem Lifts.invnttLayer (hd : d < 8) {f : ℕ → ZMod q}
    (h : Lifts (2 ^ (7 - d) * q) c f) :
    Lifts (2 ^ (8 - d) * q) (invnttLayer c (d + 1))
      (unlayer (zetasInv d) d (2 ^ (8 - (d + 1))) f) := by
  have hsize := blocks_eq hd
  have hpow : 2 ^ d ≤ 2 ^ 7 := Nat.pow_le_pow_right two_pos (by omega)
  have hone : (1 : ℤ) ≤ 2 ^ (7 - d) := one_le_pow₀ one_le_two
  have hle : (2 ^ (7 - d) : ℤ) ≤ 2 ^ 7 := pow_le_pow_right₀ one_le_two (by omega)
  have hdouble : (2 ^ (8 - d) * q : ℤ) = 2 ^ (7 - d) * q + 2 ^ (7 - d) * q := by
    rw [show 8 - d = 7 - d + 1 by omega, pow_succ]
    ring
  have hq := q_int
  rw [Lifts, ← hsize] at h ⊢
  rw [Native.invnttLayer, Nat.add_sub_cancel, shift_eq hd, unlayer, hdouble]
  refine Butterfly.pass_rel (Nat.two_pow_pos _) rfl ?_ h
  intro k hk hk' u v u' v' hu hv
  have hdouble' : 2 ^ (d + 1) = 2 * 2 ^ d := pow_succ' 2 d
  obtain ⟨hzlt, hz⟩ := mldZetas_spec (k := 2 ^ (d + 1) - k) (by omega) (by omega)
  have hz' : ((-mldZetas.getD (2 ^ (d + 1) - k) 0 : ℤ) : ZMod q) = zetasInv d k * mont := by
    rw [Int.cast_neg, hz, zetasInv, neg_mul]
  have hsum := hu.add hv (by rw [q_int]; omega)
  have hdiff := hu.sub hv (by rw [q_int]; omega)
  have ht := (hdiff.mono (by rw [q_int]; omega)).fqmul (by rwa [abs_neg]) hz'
  exact ⟨hsum, ht.mono (by rw [q_int]; omega)⟩

/-! ## The transforms -/

theorem lifts_foldl_nttLayer {f : ℕ → ZMod q} (h : Lifts q c f) (hd : d ≤ 8) :
    Lifts ((d + 1) * q) ((List.range' 1 d).foldl nttLayer c) (forward zetas 8 d f) := by
  induction d with
  | zero =>
    rwa [List.range'_zero, List.foldl_nil, forward, Nat.cast_zero, zero_add, one_mul]
  | succ d ih =>
    have hnext : ((d + 1 : ℕ) + 1 : ℤ) * q = (d + 1) * q + q := by
      push_cast
      ring
    rw [List.range'_1_concat, List.foldl_append, List.foldl_cons, List.foldl_nil, forward, hnext,
      Nat.add_comm 1 d]
    exact (ih (by omega)).nttLayer hd

theorem lifts_foldl_invnttLayer {f : ℕ → ZMod q} (hd : d ≤ 8)
    (h : Lifts (2 ^ (8 - d) * q) c f) :
    Lifts (2 ^ 8 * q) ((List.range' 1 d).reverse.foldl invnttLayer c)
      (backward zetasInv 8 d f) := by
  induction d generalizing c f with
  | zero => exact h
  | succ d ih =>
    rw [List.range'_1_concat, List.reverse_append, List.reverse_singleton, List.singleton_append,
      List.foldl_cons, backward, Nat.add_comm 1 d]
    rw [show 8 - (d + 1) = 7 - d by omega] at h
    exact ih (by omega) (h.invnttLayer hd)

/-- Representatives of the residues of a polynomial. -/
def PolyLift (B : ℤ) (p : Poly ℤ) (f : Poly (ZMod q)) : Prop := ∀ j, Lift B (p j) (f j)

theorem PolyLift.residue (h : PolyLift B p f) :
    p.residue = f := funext fun j ↦ (h j).2

theorem polyLift_residue (h : ∀ j, |p j| < B) : PolyLift B p p.residue :=
  fun j ↦ ⟨h j, rfl⟩

theorem PolyLift.extend (h : PolyLift B p f) :
    Lifts B (extend p) (extend f) := by
  intro i (hi : i < numCoeff)
  rw [extend_of_lt _ hi, extend_of_lt _ hi]
  exact h ⟨i, hi⟩

/-- `mld_poly_ntt` is NTT; its results are below `9 * q`. -/
theorem PolyLift.polyNtt (h : PolyLift q p f) :
    PolyLift (9 * q) (polyNtt p) (ntt f) := fun j ↦ lifts_foldl_nttLayer h.extend le_rfl j j.isLt

/-- `mld_poly_invntt_tomont` is the inverse of NTT, in Montgomery form. -/
theorem PolyLift.polyInvnttTomont (h : PolyLift q p f) :
    PolyLift q (polyInvnttTomont p) fun j ↦ mont * nttInv f j := by
  have hscale : ((41978 : ℤ) : ZMod q) = 8347681 * mont * mont := by decide +kernel
  intro j
  have hbound : (2 ^ (8 - 8) * q : ℤ) = q := by norm_num
  have hback := lifts_foldl_invnttLayer le_rfl (hbound.symm ▸ h.extend) j j.isLt
  have hscaled := (hback.mono (by rw [q_int]; omega)).fqmul (by decide) hscale
  rw [mul_comm 8347681 mont, mul_assoc] at hscaled
  exact hscaled

/-! ## Products -/

/-- A Montgomery product of values below `9 * q`. -/
theorem Lift.montgomeryReduce (h : Lift (2 ^ 31 * q) x y) :
    Lift q (montgomeryReduce x) (montInv * y) := by
  obtain ⟨hx, rfl⟩ := h
  obtain ⟨hlt, hcast⟩ := montgomeryReduce_spec hx
  refine ⟨hlt, ?_⟩
  rw [← hcast, mul_comm _ mont, ← mul_assoc, montInv_mul_mont, one_mul]

theorem Lift.mul (h : Lift B x y) (h' : Lift B' x' y') :
    Lift (B * B') (x * x') (y * y') := by
  obtain ⟨hx, rfl⟩ := h
  obtain ⟨hx', rfl⟩ := h'
  refine ⟨?_, Int.cast_mul x x'⟩
  rw [abs_mul]
  exact mul_lt_mul'' hx hx' (abs_nonneg x) (abs_nonneg x')

theorem PolyLift.pointwise {p' : Poly ℤ} {f' : Poly (ZMod q)} (h : PolyLift (9 * q) p f)
    (h' : PolyLift (9 * q) p' f') :
    PolyLift q (polyPointwiseMontgomery p p') fun j ↦ montInv * (f * f') j := fun j ↦
  (((h j).mul (h' j)).mono (by rw [q_int]; norm_num)).montgomeryReduce

/-- The 64-bit accumulator holds the sum. -/
theorem foldl_accumulate {ι : Type} (x : ι → ℤ) (hx : ∀ j, |x j| < B) (js : List ι) (t : ℤ)
    (hroom : |t| + js.length * B < 2 ^ 63) :
    js.foldl (fun t j ↦ intN 64 (t + x j)) t = t + (js.map x).sum := by
  induction js generalizing t with
  | nil => rw [List.foldl_nil, List.map_nil, List.sum_nil, add_zero]
  | cons j js ih =>
    have hlen : ((j :: js).length : ℤ) * B = js.length * B + B := by
      rw [List.length_cons]
      push_cast
      ring
    have hpos : 0 ≤ (js.length : ℤ) * B :=
      mul_nonneg (Int.natCast_nonneg _) ((abs_nonneg _).trans (hx j).le)
    have hstep := abs_add_le t (x j)
    have hj := hx j
    rw [List.foldl_cons, intN_eq (by omega), ih _ (by omega), List.map_cons, List.sum_cons,
      add_assoc]

theorem abs_sum_le {ι : Type} (x : ι → ℤ) (hx : ∀ j, |x j| < B) (js : List ι) :
    |(js.map x).sum| ≤ js.length * B := by
  induction js with
  | nil => simp
  | cons j js ih =>
    have hstep := abs_add_le (x j) (js.map x).sum
    have hj := hx j
    rw [List.map_cons, List.sum_cons, List.length_cons]
    push_cast
    linarith

/-- A row of the matrix times a vector, in the transformed domain. -/
theorem polyLift_acc (hl : l ≤ 7) {u v : PolyVec l ℤ} {f g : PolyVec l (ZMod q)}
    (hu : ∀ j, PolyLift q (u j) (f j)) (hv : ∀ j, PolyLift (9 * q) (v j) (g j)) :
    PolyLift q (polyveclPointwiseAccMontgomery u v)
      fun i ↦ montInv * (∑ j, f j * g j) i := by
  intro i
  have hterm : ∀ j, Lift (q * (9 * q)) (u j i * v j i) (f j i * g j i) := fun j ↦
    (hu j i).mul (hv j i)
  have hbound : ∀ j, |u j i * v j i| < q * (9 * q) := fun j ↦ (hterm j).1
  have hlen : ((List.finRange l).length : ℤ) ≤ 7 := by
    rw [List.length_finRange]
    omega
  have hroom : ((List.finRange l).length : ℤ) * (q * (9 * q)) < 2 ^ 31 * q :=
    (mul_le_mul_of_nonneg_right hlen (by positivity)).trans_lt (by rw [q_int]; norm_num)
  have hfold := foldl_accumulate (fun j ↦ u j i * v j i) hbound (List.finRange l) 0
    (by rw [abs_zero, zero_add]; exact hroom.trans (by rw [q_int]; norm_num))
  have hsum := abs_sum_le (fun j ↦ u j i * v j i) hbound (List.finRange l)
  rw [polyveclPointwiseAccMontgomery, hfold, zero_add]
  refine Lift.montgomeryReduce ⟨hsum.trans_lt hroom, ?_⟩
  rw [Finset.sum_apply, ← List.sum_ofFn, List.ofFn_eq_map, Int.cast_list_sum, List.map_map]
  congr 1
  exact List.map_congr_left fun j _ ↦ (hterm j).2

/-! ## The products of signing and verification -/

/-- The product of two polynomials: the second is the one from the key. -/
def product (c s : Poly ℤ) : Poly ℤ :=
  polyInvnttTomont (polyPointwiseMontgomery (polyNtt s) (polyNtt c))

/-- A row of `mld_polyvec_matrix_pointwise_montgomery_yvec_eager`; the matrix is in the transformed
domain. -/
def row {l : ℕ} (mat y : PolyVec l ℤ) : Poly ℤ :=
  polyInvnttTomont (polyveclPointwiseAccMontgomery mat fun j ↦ polyNtt (y j))

/-- A row of `mld_sign_verify_internal`. -/
def rowSub {l : ℕ} (mat z : PolyVec l ℤ) (c t : Poly ℤ) : Poly ℤ :=
  polyInvnttTomont (polyReduce (polySub (polyveclPointwiseAccMontgomery mat fun j ↦ polyNtt (z j))
    (polyPointwiseMontgomery (polyNtt t) (polyNtt c))))

theorem product_spec {c s : Poly ℤ} (hc : ∀ j, |c j| < q) (hs : ∀ j, |s j| < q) :
    PolyLift q (product c s) (negacyclic c.residue s.residue) := by
  have h := ((polyLift_residue hs).polyNtt.pointwise (polyLift_residue hc).polyNtt).polyInvnttTomont
  rw [mont_nttInv, mul_comm, nttInv_mul] at h
  exact h

theorem row_spec (hl : l ≤ 7) {mat y : PolyVec l ℤ} {f : PolyVec l (ZMod q)}
    (hmat : ∀ j, PolyLift q (mat j) (ntt (f j))) (hy : ∀ i j, |y i j| < q) :
    PolyLift q (row mat y) (dot f y.residue) := by
  have h := (polyLift_acc hl hmat fun j ↦ (polyLift_residue (hy j)).polyNtt).polyInvnttTomont
  rw [mont_nttInv, nttInv_dot] at h
  exact h

theorem reduce32_lift (h : Lift (q + q) x y) : Lift q (reduce32 x) y := by
  obtain ⟨hx, rfl⟩ := h
  refine ⟨?_, reduce32_cast x⟩
  obtain ⟨hge, hlt⟩ := abs_lt.mp hx
  rw [reduce32, abs_lt]
  rw [q_int] at *
  omega

theorem rowSub_spec (hl : l ≤ 7) {mat z : PolyVec l ℤ} {f : PolyVec l (ZMod q)}
    {c t : Poly ℤ} (hmat : ∀ j, PolyLift q (mat j) (ntt (f j)))
    (hz : ∀ i j, |z i j| < q) (hc : ∀ j, |c j| < q) (ht : ∀ j, |t j| < q) :
    PolyLift q (rowSub mat z c t)
      (dot f z.residue - negacyclic c.residue t.residue) := by
  have hacc := polyLift_acc hl hmat fun j ↦ (polyLift_residue (hz j)).polyNtt
  have hprod := (polyLift_residue ht).polyNtt.pointwise (polyLift_residue hc).polyNtt
  have hdiff : PolyLift q (polyReduce (polySub _ _)) _ := fun j ↦
    reduce32_lift ((hacc j).sub (hprod j) (by rw [q_int]; norm_num))
  have h := hdiff.polyInvnttTomont
  simp only [← mul_sub, ← Pi.sub_apply] at h
  rw [mont_nttInv, nttInv_sub, nttInv_dot, mul_comm (ntt _), nttInv_mul] at h
  exact h

theorem l_le (v : Variant) : v.l ≤ 7 := by
  cases v <;> decide

/-- What signing computes for `c s1`, `c s2` and `c t0`: some representative below `q` of the exact
product, and no word has overflowed on the way. -/
theorem product_exact {c s : Poly ℤ} (hc : ∀ j, |c j| < q) (hs : ∀ j, |s j| < q) :
    (∀ j, |product c s j| < q) ∧ (product c s).residue = negacyclic c.residue s.residue :=
  ⟨fun j ↦ (product_spec hc hs j).1, (product_spec hc hs).residue⟩

theorem product_exact_const :
    (∀ j, |product (fun _ ↦ -1) (fun _ ↦ 4096) j| < q) ∧
      (product (fun _ ↦ -1) fun _ ↦ 4096).residue =
        negacyclic (Poly.residue fun _ ↦ -1) (Poly.residue fun _ ↦ 4096) :=
  product_exact (fun _ ↦ by decide) fun _ ↦ by decide

/-- What verification computes for a row of `A z - c t1 2 ^ d`, with the matrix as it is sampled: in
the transformed domain. -/
theorem rowSub_exact (v : Variant) {mat z : PolyVec v.l ℤ} {c t : Poly ℤ}
    (hmat : ∀ i j, 0 ≤ mat i j ∧ mat i j < q) (hz : ∀ i j, |z i j| < q) (hc : ∀ j, |c j| < q)
    (ht : ∀ j, |t j| < q) :
    (∀ j, |rowSub mat z c t j| < q) ∧
      (rowSub mat z c t).residue =
        dot (fun i ↦ nttInv (mat i).residue) z.residue -
          negacyclic c.residue t.residue := by
  have hlift : ∀ i, PolyLift q (mat i) (ntt (nttInv (mat i).residue)) := by
    intro i
    rw [ntt_nttInv]
    refine polyLift_residue fun j ↦ ?_
    rw [abs_of_nonneg (hmat i j).1]
    exact (hmat i j).2
  have h := rowSub_spec (l_le v) hlift hz hc ht
  exact ⟨fun j ↦ (h j).1, h.residue⟩

theorem rowSub_exact_const :
    (∀ j, |rowSub (fun _ : Fin 7 ↦ fun _ ↦ 8380416) (fun _ _ ↦ 524287) (fun _ ↦ 1)
        (fun _ ↦ 8380416) j| < q) ∧
      (rowSub (fun _ : Fin 7 ↦ fun _ ↦ 8380416) (fun _ _ ↦ 524287) (fun _ ↦ 1)
          fun _ ↦ 8380416).residue =
        dot (fun _ : Fin 7 ↦ nttInv (Poly.residue fun _ ↦ 8380416))
            (PolyVec.residue fun _ _ ↦ 524287) -
          negacyclic (Poly.residue fun _ ↦ 1) (Poly.residue fun _ ↦ 8380416) :=
  rowSub_exact .mlDsa87 (fun _ _ ↦ by decide) (fun _ _ ↦ by decide) (fun _ ↦ by decide)
    fun _ ↦ by decide

/-! ### An instance of the products

The engine's functions are only asked about coefficients below `q`; elsewhere the instance has the
representatives in `[0, q)`. -/

/-- The representatives in `[0, q)`. -/
def canonical (f : Poly (ZMod q)) : Poly ℤ := fun j ↦ ((f j).val : ℤ)

theorem polyLift_canonical (f : Poly (ZMod q)) : PolyLift q (canonical f) f := fun j ↦
  ⟨by rw [canonical, Nat.abs_cast]; exact_mod_cast (f j).val_lt,
    by rw [canonical, Int.cast_natCast, ZMod.natCast_zmod_val]⟩

/-- The coefficients are below `q`. -/
def Small (p : Poly ℤ) : Prop := ∀ j, |p j| < q

instance (p : Poly ℤ) : Decidable (Small p) := inferInstanceAs (Decidable (∀ j, |p j| < q))

section Instance

variable {v : Variant}

/-- A row of the matrix as the engine holds it. -/
def hat (a : PolyVec v.l (ZMod q)) : PolyVec v.l ℤ := fun j ↦ canonical (ntt (a j))

/-- A product through the transforms; where a factor is not small, the exact one. -/
def engineProduct (c s : Poly ℤ) : Poly ℤ :=
  if Small c ∧ Small s then product c s else canonical (negacyclic c.residue s.residue)

/-- A row of the matrix times a vector, likewise. -/
def engineRow (a : PolyVec v.l (ZMod q)) (y : PolyVec v.l ℤ) : Poly ℤ :=
  if ∀ j, Small (y j) then row (hat a) y else canonical (dot a y.residue)

/-- A row of the matrix times a vector minus a product, likewise. -/
def engineRowSub (a : PolyVec v.l (ZMod q)) (z : PolyVec v.l ℤ) (c t : Poly ℤ) : Poly ℤ :=
  if (∀ j, Small (z j)) ∧ Small c ∧ Small t then rowSub (hat a) z c t
  else canonical (dot a z.residue - negacyclic c.residue t.residue)

theorem engineProduct_spec (c s : Poly ℤ) :
    PolyLift q (engineProduct c s) (negacyclic c.residue s.residue) := by
  rw [engineProduct]
  split
  next h => exact product_spec h.1 h.2
  · exact polyLift_canonical _

theorem engineRow_spec (a : PolyVec v.l (ZMod q)) (y : PolyVec v.l ℤ) :
    PolyLift q (engineRow a y) (dot a y.residue) := by
  rw [engineRow]
  split
  next h => exact row_spec (l_le v) (fun j ↦ polyLift_canonical _) h
  · exact polyLift_canonical _

theorem engineRowSub_spec (a : PolyVec v.l (ZMod q)) (z : PolyVec v.l ℤ) (c t : Poly ℤ) :
    PolyLift q (engineRowSub a z c t)
      (dot a z.residue - negacyclic c.residue t.residue) := by
  rw [engineRowSub]
  split
  next h => exact rowSub_spec (l_le v) (fun j ↦ polyLift_canonical _) h.1 h.2.1 h.2.2
  · exact polyLift_canonical _

/-- The products of the engine. -/
def engineProducts (v : Variant) : Products v where
  product := engineProduct
  row := engineRow
  rowSub := engineRowSub
  abs_product_lt := fun c s j ↦ (engineProduct_spec c s j).1
  product_residue := fun c s ↦ (engineProduct_spec c s).residue
  abs_row_lt := fun a y j ↦ (engineRow_spec a y j).1
  row_residue := fun a y ↦ (engineRow_spec a y).residue
  abs_rowSub_lt := fun a z c t j ↦ (engineRowSub_spec a z c t j).1
  rowSub_residue := fun a z c t ↦ (engineRowSub_spec a z c t).residue

end Instance

end Native

end MlDsa
