import QudoPqc.Arith.Butterfly
import QudoPqc.MlKem.Fips203

/-!
# Arithmetic of scalars

The arithmetic of `ml_kem.c` on coefficients in `[0, q)`: reduction without branches or divisions,
the transforms, and products in the transformed domain. Machine words are numbers with the
truncations written out.

Every function is related to the operation of FIPS 203 it stands for on representatives: applied to
the representatives of residues it returns the representatives of the result. So all coefficients
stay below `q`, and no truncation ever takes effect.
-/

namespace MlKem

open Fips203

namespace Ossl

/-! ## Reduction -/

/-- `kBarrettMultiplier`. -/
def kBarrettMultiplier : ℕ := (1 <<< 24) / q

/-- `reduce_once`. -/
def reduceOnce (x : ℕ) : ℕ :=
  let x := x % 2 ^ 16
  let subtracted := (x + (2 ^ 16 - q)) % 2 ^ 16
  let mask := (2 ^ 16 - subtracted >>> 15) % 2 ^ 16
  (mask &&& x) ||| ((2 ^ 16 - 1 - mask) &&& subtracted)

/-- `reduce`. -/
def reduce (x : ℕ) : ℕ :=
  let x := x % 2 ^ 32
  let product := x * kBarrettMultiplier
  let quotient := (product >>> 24) % 2 ^ 32
  let remainder := (x + 2 ^ 32 - quotient * q % 2 ^ 32) % 2 ^ 32
  reduceOnce remainder

theorem reduceOnce_eq {x : ℕ} (h : x < 2 * q) : reduceOnce x = x % q := by
  have hall {y : ℕ} (hy : y < 2 ^ 16) : (2 ^ 16 - 1) &&& y = y := by
    rw [Nat.and_comm, Nat.and_two_pow_sub_one_eq_mod, Nat.mod_eq_of_lt hy]
  have hq : q = 3329 := rfl
  rw [reduceOnce, Nat.mod_eq_of_lt (show x < 2 ^ 16 by omega)]
  rcases lt_or_ge x q with hx | hx
  · have hsub : (x + (2 ^ 16 - q)) % 2 ^ 16 = x + 62207 := by omega
    have hmask : (2 ^ 16 - (x + 62207) >>> 15) % 2 ^ 16 = 2 ^ 16 - 1 := by
      rw [Nat.shiftRight_eq_div_pow]
      omega
    rw [hsub, hmask, hall (by omega), Nat.mod_eq_of_lt hx]
    simp
  · have hsub : (x + (2 ^ 16 - q)) % 2 ^ 16 = x - q := by omega
    have hmask : (2 ^ 16 - (x - q) >>> 15) % 2 ^ 16 = 0 := by
      rw [Nat.shiftRight_eq_div_pow]
      omega
    rw [hsub, hmask, Nat.sub_zero, hall (by omega)]
    rw [Nat.zero_and, Nat.zero_or, hq]
    omega

/-- The bound is that of the comment in the source. -/
theorem reduce_eq {x : ℕ} (h : x < q + 2 * q * q) : reduce x = x % q := by
  have hmul : kBarrettMultiplier = 5039 := rfl
  have hq : q = 3329 := rfl
  rw [hq] at h ⊢
  rw [reduce, Nat.mod_eq_of_lt (show x < 2 ^ 32 by omega), hmul, Nat.shiftRight_eq_div_pow]
  generalize hquot : x * 5039 / 2 ^ 24 % 2 ^ 32 = k
  have hk : k = x * 5039 / 2 ^ 24 := by omega
  have hrem : (x + 2 ^ 32 - k * 3329 % 2 ^ 32) % 2 ^ 32 = x - k * 3329 := by omega
  rw [hq, hrem, reduceOnce_eq (by omega), hq]
  omega

theorem mod_eq_val {x : ℕ} {y : ZMod q} (h : (x : ZMod q) = y) : x % q = y.val := by
  rw [← h, ZMod.val_natCast]

theorem reduceOnce_add (a b : ZMod q) : reduceOnce (a.val + b.val) = (a + b).val := by
  have ha := a.val_lt
  have hb := b.val_lt
  rw [reduceOnce_eq (by omega)]
  exact mod_eq_val (by rw [Nat.cast_add, ZMod.natCast_zmod_val, ZMod.natCast_zmod_val])

theorem cast_add_sub_val (a b : ZMod q) : ((a.val + q - b.val : ℕ) : ZMod q) = a - b := by
  have hb := b.val_lt
  rw [Nat.cast_sub (by omega), Nat.cast_add, ZMod.natCast_zmod_val, ZMod.natCast_zmod_val,
    ZMod.natCast_self, add_zero]

theorem reduceOnce_sub (a b : ZMod q) : reduceOnce (a.val + q - b.val) = (a - b).val := by
  have ha := a.val_lt
  have hb := b.val_lt
  have hpos : b = 0 ∨ 0 < b.val := by
    rw [Nat.pos_iff_ne_zero, Ne, ZMod.val_eq_zero]
    exact Classical.em (b = 0)
  rw [reduceOnce_eq (by omega)]
  exact mod_eq_val (cast_add_sub_val a b)

theorem val_mul_val_le (a b : ZMod q) : a.val * b.val ≤ 3328 * 3328 :=
  Nat.mul_le_mul (Nat.le_of_lt_succ a.val_lt) (Nat.le_of_lt_succ b.val_lt)

theorem reduce_mul (a b : ZMod q) : reduce (a.val * b.val) = (a * b).val := by
  have hle := val_mul_val_le a b
  rw [reduce_eq (hle.trans_lt (by decide))]
  exact mod_eq_val (by rw [Nat.cast_mul, ZMod.natCast_zmod_val, ZMod.natCast_zmod_val])

/-! ## Roots of unity -/

/-- `kNTTRoots`. -/
def kNttRoots : List ℕ :=
  [1, 1729, 2580, 3289, 2642, 630, 1897, 848, 1062, 1919, 193, 797, 2786, 3260, 569, 1746, 296,
  2447, 1339, 1476, 3046, 56, 2240, 1333, 1426, 2094, 535, 2882, 2393, 2879, 1974, 821, 289, 331,
  3253, 1756, 1197, 2304, 2277, 2055, 650, 1977, 2513, 632, 2865, 33, 1320, 1915, 2319, 1435, 807,
  452, 1438, 2868, 1534, 2402, 2647, 2617, 1481, 648, 2474, 3110, 1227, 910, 17, 2761, 583, 2649,
  1637, 723, 2288, 1100, 1409, 2662, 3281, 233, 756, 2156, 3015, 3050, 1703, 1651, 2789, 1789,
  1847, 952, 1461, 2687, 939, 2308, 2437, 2388, 733, 2337, 268, 641, 1584, 2298, 2037, 3220, 375,
  2549, 2090, 1645, 1063, 319, 2773, 757, 2099, 561, 2466, 2594, 2804, 1092, 403, 1026, 1143,
  2150, 2775, 886, 1722, 1212, 1874, 1029, 2110, 2935, 885, 2154]

/-- `kInverseNTTRoots`. -/
def kInverseNttRoots : List ℕ :=
  [1, 1175, 2444, 394, 1219, 2300, 1455, 2117, 1607, 2443, 554, 1179, 2186, 2303, 2926, 2237, 525,
  735, 863, 2768, 1230, 2572, 556, 3010, 2266, 1684, 1239, 780, 2954, 109, 1292, 1031, 1745, 2688,
  3061, 992, 2596, 941, 892, 1021, 2390, 642, 1868, 2377, 1482, 1540, 540, 1678, 1626, 279, 314,
  1173, 2573, 3096, 48, 667, 1920, 2229, 1041, 2606, 1692, 680, 2746, 568, 3312, 2419, 2102, 219,
  855, 2681, 1848, 712, 682, 927, 1795, 461, 1891, 2877, 2522, 1894, 1010, 1414, 2009, 3296, 464,
  2697, 816, 1352, 2679, 1274, 1052, 1025, 2132, 1573, 76, 2998, 3040, 2508, 1355, 450, 936, 447,
  2794, 1235, 1903, 1996, 1089, 3273, 283, 1853, 1990, 882, 3033, 1583, 2760, 69, 543, 2532, 3136,
  1410, 2267, 2481, 1432, 2699, 687, 40, 749, 1600]

/-- `kModRoots`. -/
def kModRoots : List ℕ :=
  [17, 3312, 2761, 568, 583, 2746, 2649, 680, 1637, 1692, 723, 2606, 2288, 1041, 1100, 2229, 1409,
  1920, 2662, 667, 3281, 48, 233, 3096, 756, 2573, 2156, 1173, 3015, 314, 3050, 279, 1703, 1626,
  1651, 1678, 2789, 540, 1789, 1540, 1847, 1482, 952, 2377, 1461, 1868, 2687, 642, 939, 2390,
  2308, 1021, 2437, 892, 2388, 941, 733, 2596, 2337, 992, 268, 3061, 641, 2688, 1584, 1745, 2298,
  1031, 2037, 1292, 3220, 109, 375, 2954, 2549, 780, 2090, 1239, 1645, 1684, 1063, 2266, 319,
  3010, 2773, 556, 757, 2572, 2099, 1230, 561, 2768, 2466, 863, 2594, 735, 2804, 525, 1092, 2237,
  403, 2926, 1026, 2303, 1143, 2186, 2150, 1179, 2775, 554, 886, 2443, 1722, 1607, 1212, 2117,
  1874, 1455, 1029, 2300, 2110, 1219, 2935, 394, 885, 2444, 2154, 1175]

theorem val_zeta_pow (n : ℕ) : (zeta ^ n).val = 17 ^ n % q := by
  refine (mod_eq_val ?_).symm
  rw [Nat.cast_pow]
  rfl

theorem kNttRoots_eq {k : ℕ} (hk : k < 128) : kNttRoots.getD k 0 = (zeta ^ bitRev7 k).val := by
  have htable : ∀ k < 128, kNttRoots.getD k 0 = 17 ^ bitRev7 k % q := by decide +kernel
  rw [htable k hk, val_zeta_pow]

theorem kInverseNttRoots_eq {k : ℕ} (hk : k < 128) (hpos : 0 < k) :
    kInverseNttRoots.getD k 0 = (-zeta ^ bitRev7 (128 - k)).val := by
  have htable : ∀ k < 128, 0 < k →
      (kInverseNttRoots.getD k 0 + 17 ^ bitRev7 (128 - k)) % q = 0 ∧
        kInverseNttRoots.getD k 0 < q := by decide +kernel
  obtain ⟨hsum, hlt⟩ := htable k hk hpos
  rw [← Nat.mod_eq_of_lt hlt]
  refine mod_eq_val (eq_neg_of_add_eq_zero_left ?_)
  rw [← ZMod.natCast_zmod_val (zeta ^ bitRev7 (128 - k)), val_zeta_pow, ZMod.natCast_mod,
    ← Nat.cast_add, ZMod.natCast_eq_zero_iff]
  exact Nat.dvd_of_mod_eq_zero hsum

theorem kModRoots_eq {i : ℕ} (hi : i < 128) :
    kModRoots.getD i 0 = (zeta ^ (2 * bitRev7 i + 1)).val := by
  have htable : ∀ i < 128, kModRoots.getD i 0 = 17 ^ (2 * bitRev7 i + 1) % q := by decide +kernel
  rw [htable i hi, val_zeta_pow]

/-! ## The transform -/

/-- The coefficients of a scalar, as an array. -/
def words (s : Scalar ℕ) (j : ℕ) : ℕ := if h : j < degree then s ⟨j, h⟩ else 0

/-- The innermost loop of `scalar_ntt`. -/
def nttButterfly (zeta even peer : ℕ) : ℕ × ℕ :=
  let odd := reduce (peer * zeta)
  (reduceOnce (odd + even), reduceOnce (even + q - odd))

/-- `scalar_ntt`. -/
def scalarNtt (s : Scalar ℕ) : Scalar ℕ := fun j ↦
  ([128, 64, 32, 16, 8, 4, 2].foldl
    (fun st offset ↦ Butterfly.pass (fun k ↦ nttButterfly (kNttRoots.getD k 0)) (128 / offset)
      offset st)
    (0, words s)).2 j

/-- The innermost loop of `scalar_inverse_ntt`. -/
def inverseNttButterfly (zeta even odd : ℕ) : ℕ × ℕ :=
  (reduceOnce (odd + even), reduce (zeta * (even + q - odd)))

/-- `kInverseDegree`. -/
def kInverseDegree : ℕ := q - 2 * 13

/-- `scalar_mult_const`. -/
def scalarMultConst (s : Scalar ℕ) (a : ℕ) : Scalar ℕ := fun j ↦ reduce (s j * a)

/-- `scalar_inverse_ntt`. -/
def scalarInverseNtt (s : Scalar ℕ) : Scalar ℕ :=
  scalarMultConst (fun j ↦
    ([2, 4, 8, 16, 32, 64, 128].foldl
      (fun st offset ↦ Butterfly.pass (fun k ↦ inverseNttButterfly (kInverseNttRoots.getD k 0))
        (128 / offset) offset st)
      (0, words s)).2 j)
    kInverseDegree

theorem extend_coe (f : Scalar (ZMod q)) (j : Fin degree) : extend f j = f j := dif_pos j.isLt

theorem words_repr (f : Scalar (ZMod q)) : words f.repr = fun j ↦ (extend f j).val := by
  funext j
  rw [words, extend]
  split
  · rfl
  · exact ZMod.val_zero.symm

theorem nttButterfly_eq (root a b : ZMod q) :
    nttButterfly root.val a.val b.val = ((a + root * b).val, (a - root * b).val) := by
  rw [nttButterfly, reduce_mul, reduceOnce_add, reduceOnce_sub, add_comm (b * root), mul_comm b]

theorem inverseNttButterfly_eq (root a b : ZMod q) :
    inverseNttButterfly (-root).val a.val b.val = ((a + b).val, (root * (b - a)).val) := by
  have hle : (-root).val * (a.val + q - b.val) ≤ 3328 * (2 * 3329) := by
    have ha := a.val_lt
    have hroot := (-root).val_lt
    have hq : q = 3329 := rfl
    exact Nat.mul_le_mul (by omega) (by omega)
  rw [inverseNttButterfly, reduceOnce_add, add_comm b, reduce_eq (hle.trans_lt (by decide))]
  refine congrArg _ (mod_eq_val ?_)
  rw [Nat.cast_mul, cast_add_sub_val, ZMod.natCast_zmod_val, neg_mul, ← mul_neg, neg_sub]

/-! ### Passes

Past the end of the array there is nothing, on both sides. -/

/-- Nothing but zeros past the coefficients. -/
def Ends (f : ℕ → ZMod q) : Prop := ∀ j, 256 ≤ j → f j = 0

theorem ends_extend (f : Scalar (ZMod q)) : Ends (extend f) := fun _ hj ↦
  dif_neg (Nat.not_lt.mpr hj)

section Passes

variable {f : ℕ → ZMod q} (hf : Ends f) (len n : ℕ) (hn : 2 * len * n = 256)

include hn in
/-- The second half of a block past the end has its first half past the end. -/
theorem le_sub_of_le_mod {j : ℕ} (hj : 256 ≤ j) (hmod : len ≤ j % (2 * len)) : 256 ≤ j - len := by
  have hlen : 0 < 2 * len := by
    rcases Nat.eq_zero_or_pos (2 * len) with h | h
    · rw [h, Nat.zero_mul] at hn
      omega
    · exact h
  have hdiv : n ≤ j / (2 * len) := by
    rw [Nat.le_div_iff_mul_le hlen, Nat.mul_comm, hn]
    exact hj
  have hle : 2 * len * n ≤ 2 * len * (j / (2 * len)) := Nat.mul_le_mul_left _ hdiv
  have hsum := Nat.div_add_mod j (2 * len)
  omega

include hf hn in
theorem ends_nttLayer : Ends (nttLayer len f) := by
  intro j hj
  rw [nttLayer]
  split
  · rw [hf j hj, hf (j + len) (by omega), mul_zero, add_zero]
  next h =>
    rw [hf j hj, hf (j - len) (le_sub_of_le_mod len n hn hj (Nat.not_lt.mp h)), mul_zero, sub_zero]

include hf hn in
theorem ends_nttInvLayer : Ends (nttInvLayer len f) := by
  intro j hj
  rw [nttInvLayer]
  split
  · rw [hf j hj, hf (j + len) (by omega), add_zero]
  next h =>
    rw [hf j hj, hf (j - len) (le_sub_of_le_mod len n hn hj (Nat.not_lt.mp h)), sub_zero, mul_zero]

include hf hn in
/-- One pass of `scalar_ntt`. -/
theorem pass_ntt {k : ℕ} (hk : k + 1 = n) (hle : n ≤ 64) :
    Butterfly.pass (fun k ↦ nttButterfly (kNttRoots.getD k 0)) n len (k, fun j ↦ (f j).val) =
      (k + n, fun j ↦ (nttLayer len f j).val) := by
  have hlen : 0 < len := Nat.pos_of_ne_zero fun h ↦ by rw [h] at hn; omega
  have hroots : n = 128 / len := by
    rw [Nat.div_eq_of_eq_mul_left hlen (show 128 = n * len by nlinarith)]
  refine Prod.ext (Butterfly.pass_fst ..) (funext fun j ↦ ?_)
  change _ = (nttLayer len f j).val
  rw [Butterfly.pass_apply hlen, hn, hk]
  rcases lt_or_ge j 256 with hj | hj
  · have hblock : j / (2 * len) < n := by
      rw [Nat.div_lt_iff_lt_mul (by omega), Nat.mul_comm, hn]
      exact hj
    rw [if_pos hj, kNttRoots_eq (by omega), nttButterfly_eq, nttButterfly_eq, nttLayer, ← hroots,
      apply_ite ZMod.val]
  · rw [if_neg (Nat.not_lt.mpr hj)]
    exact congrArg ZMod.val ((hf j hj).trans (ends_nttLayer hf len n hn j hj).symm)

include hf hn in
/-- One pass of `scalar_inverse_ntt`. -/
theorem pass_inverseNtt {k : ℕ} (hk : k + 2 * n = 128) :
    Butterfly.pass (fun k ↦ inverseNttButterfly (kInverseNttRoots.getD k 0)) n len
        (k, fun j ↦ (f j).val) = (k + n, fun j ↦ (nttInvLayer len f j).val) := by
  have hlen : 0 < len := Nat.pos_of_ne_zero fun h ↦ by rw [h] at hn; omega
  have hroots : 256 / len = 2 * n :=
    Nat.div_eq_of_eq_mul_left hlen (by rw [← hn]; ring)
  refine Prod.ext (Butterfly.pass_fst ..) (funext fun j ↦ ?_)
  change _ = (nttInvLayer len f j).val
  rw [Butterfly.pass_apply hlen, hn]
  rcases lt_or_ge j 256 with hj | hj
  · have hblock : j / (2 * len) < n := by
      rw [Nat.div_lt_iff_lt_mul (by omega), Nat.mul_comm, hn]
      exact hj
    have hpos : 0 < n := Nat.zero_lt_of_lt hblock
    have hroot : 128 - (k + 1 + j / (2 * len)) = 256 / len - 1 - j / (2 * len) := by omega
    have htable := kInverseNttRoots_eq (k := k + 1 + j / (2 * len)) (by omega)
      (Nat.add_pos_left k.succ_pos _)
    rw [if_pos hj, htable, inverseNttButterfly_eq, inverseNttButterfly_eq, nttInvLayer, hroot,
      apply_ite ZMod.val]
  · rw [if_neg (Nat.not_lt.mpr hj)]
    exact congrArg ZMod.val ((hf j hj).trans (ends_nttInvLayer hf len n hn j hj).symm)

end Passes

/-- `scalar_ntt` is NTT. -/
theorem scalarNtt_repr (f : Scalar (ZMod q)) : scalarNtt f.repr = (ntt f).repr := by
  have h₁ := ends_extend f
  have h₂ := ends_nttLayer h₁ 128 1 rfl
  have h₃ := ends_nttLayer h₂ 64 2 rfl
  have h₄ := ends_nttLayer h₃ 32 4 rfl
  have h₅ := ends_nttLayer h₄ 16 8 rfl
  have h₆ := ends_nttLayer h₅ 8 16 rfl
  have h₇ := ends_nttLayer h₆ 4 32 rfl
  funext j
  simp only [scalarNtt, List.foldl_cons, List.foldl_nil, words_repr, Nat.reduceDiv]
  rw [pass_ntt h₁ 128 1 rfl rfl (by decide), pass_ntt h₂ 64 2 rfl rfl (by decide),
    pass_ntt h₃ 32 4 rfl rfl (by decide), pass_ntt h₄ 16 8 rfl rfl (by decide),
    pass_ntt h₅ 8 16 rfl rfl (by decide), pass_ntt h₆ 4 32 rfl rfl (by decide),
    pass_ntt h₇ 2 64 rfl rfl (by decide)]
  rfl

/-- `scalar_inverse_ntt` is its inverse. -/
theorem scalarInverseNtt_repr (f : Scalar (ZMod q)) :
    scalarInverseNtt f.repr = (nttInv f).repr := by
  have h₁ := ends_extend f
  have h₂ := ends_nttInvLayer h₁ 2 64 rfl
  have h₃ := ends_nttInvLayer h₂ 4 32 rfl
  have h₄ := ends_nttInvLayer h₃ 8 16 rfl
  have h₅ := ends_nttInvLayer h₄ 16 8 rfl
  have h₆ := ends_nttInvLayer h₅ 32 4 rfl
  have h₇ := ends_nttInvLayer h₆ 64 2 rfl
  funext j
  simp only [scalarInverseNtt, scalarMultConst, List.foldl_cons, List.foldl_nil, words_repr,
    Nat.reduceDiv]
  rw [pass_inverseNtt h₁ 2 64 rfl rfl, pass_inverseNtt h₂ 4 32 rfl rfl,
    pass_inverseNtt h₃ 8 16 rfl rfl, pass_inverseNtt h₄ 16 8 rfl rfl,
    pass_inverseNtt h₅ 32 4 rfl rfl, pass_inverseNtt h₆ 64 2 rfl rfl,
    pass_inverseNtt h₇ 128 1 rfl rfl]
  have hdegree : kInverseDegree = (3303 : ZMod q).val := rfl
  rw [hdegree]
  exact (reduce_mul _ _).trans (congrArg ZMod.val (mul_comm _ _))

/-! ## Sums and products -/

/-- `scalar_add`. -/
def scalarAdd (lhs rhs : Scalar ℕ) : Scalar ℕ := fun j ↦ reduceOnce (lhs j + rhs j)

/-- `scalar_sub`. -/
def scalarSub (lhs rhs : Scalar ℕ) : Scalar ℕ := fun j ↦ reduceOnce (lhs j + q - rhs j)

theorem scalarAdd_repr (f g : Scalar (ZMod q)) : scalarAdd f.repr g.repr = (f + g).repr :=
  funext fun _ ↦ reduceOnce_add ..

theorem scalarSub_repr (f g : Scalar (ZMod q)) : scalarSub f.repr g.repr = (f - g).repr :=
  funext fun _ ↦ reduceOnce_sub ..

/-- One round of `scalar_mult`. -/
def multRound (l0 l1 r0 r1 zetapow : ℕ) : ℕ × ℕ :=
  (reduce (l0 * r0 + reduce (l1 * r1) * zetapow), reduce (l0 * r1 + l1 * r0))

/-- `scalar_mult`. -/
def scalarMult (lhs rhs : Scalar ℕ) : Scalar ℕ := fun j ↦
  let i : ℕ := j / 2
  let r := multRound (words lhs (2 * i)) (words lhs (2 * i + 1)) (words rhs (2 * i))
    (words rhs (2 * i + 1)) (kModRoots.getD i 0)
  if (j : ℕ) % 2 = 0 then r.1 else r.2

/-- One round of `scalar_mult_add`. -/
def multAddRound (c0 c1 l0 l1 r0 r1 zetapow : ℕ) : ℕ × ℕ :=
  (reduce (c0 + l0 * r0 + reduce (l1 * r1) * zetapow), reduce (c1 + l0 * r1 + l1 * r0))

/-- `scalar_mult_add`. -/
def scalarMultAdd (out lhs rhs : Scalar ℕ) : Scalar ℕ := fun j ↦
  let i : ℕ := j / 2
  let r := multAddRound (words out (2 * i)) (words out (2 * i + 1)) (words lhs (2 * i))
    (words lhs (2 * i + 1)) (words rhs (2 * i)) (words rhs (2 * i + 1)) (kModRoots.getD i 0)
  if (j : ℕ) % 2 = 0 then r.1 else r.2

theorem multAddRound_eq (c₀ c₁ a₀ a₁ b₀ b₁ root : ZMod q) :
    multAddRound c₀.val c₁.val a₀.val a₁.val b₀.val b₁.val root.val =
      ((c₀ + (a₀ * b₀ + a₁ * b₁ * root)).val, (c₁ + (a₀ * b₁ + a₁ * b₀)).val) := by
  have h₁ := val_mul_val_le a₀ b₀
  have h₂ := val_mul_val_le (a₁ * b₁) root
  have h₃ := val_mul_val_le a₀ b₁
  have h₄ := val_mul_val_le a₁ b₀
  have h₅ := c₀.val_lt
  have h₆ := c₁.val_lt
  have hq : q = 3329 := rfl
  have hbound : q + 2 * q * q = 22167811 := rfl
  rw [multAddRound, reduce_mul, reduce_eq (by omega), reduce_eq (by omega)]
  refine Prod.ext (mod_eq_val ?_) (mod_eq_val ?_)
  · push_cast [ZMod.natCast_zmod_val]
    exact add_assoc ..
  · push_cast [ZMod.natCast_zmod_val]
    exact add_assoc ..

theorem multRound_eq (a₀ a₁ b₀ b₁ root : ZMod q) :
    multRound a₀.val a₁.val b₀.val b₁.val root.val =
      ((a₀ * b₀ + a₁ * b₁ * root).val, (a₀ * b₁ + a₁ * b₀).val) := by
  have h := multAddRound_eq 0 0 a₀ a₁ b₀ b₁ root
  rwa [multAddRound, ZMod.val_zero, Nat.zero_add, Nat.zero_add, zero_add, zero_add] at h

/-- `scalar_mult` is MultiplyNTTs. -/
theorem scalarMult_repr (f g : Scalar (ZMod q)) :
    scalarMult f.repr g.repr = (multiplyNtts f g).repr := by
  funext j
  have hj : (j : ℕ) / 2 < 128 := Nat.div_lt_of_lt_mul (show (j : ℕ) < 2 * 128 from j.isLt)
  simp only [scalarMult, words_repr, kModRoots_eq hj, multRound_eq]
  exact (apply_ite ZMod.val _ _ _).symm

/-- `scalar_mult_add` adds it to a scalar. -/
theorem scalarMultAdd_repr (o f g : Scalar (ZMod q)) :
    scalarMultAdd o.repr f.repr g.repr = (o + multiplyNtts f g).repr := by
  funext j
  have hj : (j : ℕ) / 2 < 128 := Nat.div_lt_of_lt_mul (show (j : ℕ) < 2 * 128 from j.isLt)
  simp only [scalarMultAdd, words_repr, kModRoots_eq hj, multAddRound_eq]
  rw [Scalar.repr, Pi.add_apply, multiplyNtts]
  split
  next h =>
    rw [show 2 * ((j : ℕ) / 2) = j by omega, extend_coe o]
  next h =>
    rw [show 2 * ((j : ℕ) / 2) + 1 = j by omega, extend_coe o]

/-! ## Vectors and matrices -/

/-- `inner_product`. -/
def innerProduct {n : ℕ} (lhs rhs : Vec n ℕ) : Scalar ℕ :=
  match List.ofFn fun j ↦ (lhs j, rhs j) with
  | [] => 0
  | (l, r) :: rest => rest.foldl (fun out p ↦ scalarMultAdd out p.1 p.2) (scalarMult l r)

/-- `matrix_mult_intt`. -/
def matrixMultIntt {n : ℕ} (m : Matrix n ℕ) (a : Vec n ℕ) : Vec n ℕ := fun i ↦
  scalarInverseNtt (innerProduct (m i) a)

/-- `matrix_mult_transpose_add`. -/
def matrixMultTransposeAdd {n : ℕ} (out : Vec n ℕ) (m : Matrix n ℕ) (a : Vec n ℕ) : Vec n ℕ :=
  fun i ↦ (List.ofFn fun j ↦ (m j i, a j)).foldl (fun out p ↦ scalarMultAdd out p.1 p.2) (out i)

/-- `vector_add`. -/
def vectorAdd {n : ℕ} (lhs rhs : Vec n ℕ) : Vec n ℕ := fun i ↦ scalarAdd (lhs i) (rhs i)

theorem foldl_scalarMultAdd (ps : List (Scalar (ZMod q) × Scalar (ZMod q)))
    (o : Scalar (ZMod q)) :
    (ps.map fun p ↦ (p.1.repr, p.2.repr)).foldl (fun out p ↦ scalarMultAdd out p.1 p.2) o.repr =
      (o + (ps.map fun p ↦ multiplyNtts p.1 p.2).sum).repr := by
  induction ps generalizing o with
  | nil => rw [List.map_nil, List.map_nil, List.foldl_nil, List.sum_nil, add_zero]
  | cons p ps ih =>
    rw [List.map_cons, List.map_cons, List.foldl_cons, List.sum_cons, scalarMultAdd_repr, ih,
      add_assoc]

section Vectors

variable {n : ℕ} (f g : Vec n (ZMod q))

theorem dot_eq_sum : dot f g = ((List.ofFn fun j ↦ (f j, g j)).map fun p ↦
    multiplyNtts p.1 p.2).sum := by
  rw [List.map_ofFn, List.sum_ofFn]
  rfl

theorem ofFn_repr : (List.ofFn fun j ↦ (f.repr j, g.repr j)) =
    (List.ofFn fun j ↦ (f j, g j)).map fun p ↦ (p.1.repr, p.2.repr) := by
  rw [List.map_ofFn]
  rfl

theorem innerProduct_repr : innerProduct f.repr g.repr = (dot f g).repr := by
  rw [innerProduct, ofFn_repr, dot_eq_sum]
  cases List.ofFn fun j ↦ (f j, g j) with
  | nil => exact funext fun _ ↦ ZMod.val_zero.symm
  | cons p ps =>
    rw [List.map_cons, List.map_cons, List.sum_cons, ← foldl_scalarMultAdd, ← scalarMult_repr]

/-- The representatives of the entries of a matrix. -/
def Matrix.repr (m : Matrix n (ZMod q)) : Matrix n ℕ := fun i j ↦ (m i j).repr

theorem matrixMultIntt_repr (m : Matrix n (ZMod q)) :
    matrixMultIntt (Matrix.repr m) f.repr = Vec.repr fun i ↦ nttInv (dot (m i) f) := by
  funext i
  rw [matrixMultIntt, show Matrix.repr m i = Vec.repr (m i) from rfl, innerProduct_repr,
    scalarInverseNtt_repr]
  rfl

theorem matrixMultTransposeAdd_repr (m : Matrix n (ZMod q)) :
    matrixMultTransposeAdd f.repr (Matrix.repr m) g.repr =
      Vec.repr fun i ↦ f i + dot (fun j ↦ m j i) g := by
  funext i
  have hfold := foldl_scalarMultAdd (List.ofFn fun j ↦ (m j i, g j)) (f i)
  rw [← ofFn_repr, ← dot_eq_sum] at hfold
  exact hfold

theorem vectorAdd_repr : vectorAdd f.repr g.repr = Vec.repr (f + g) :=
  funext fun i ↦ scalarAdd_repr (f i) (g i)

end Vectors

end Ossl

end MlKem
