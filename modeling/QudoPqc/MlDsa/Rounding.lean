import QudoPqc.MlDsa.Params

/-!
# Modular arithmetic and rounding of ML-DSA

One coefficient at a time, three times over: the specification (`Fips204`, on residues), OpenSSL's
unsigned arithmetic (`Ossl`: `ml_dsa_local.h` and `ml_dsa_key_compress.c`, on representatives in
`[0, q)`) and the engine's signed arithmetic (`Native`: `reduce.h` and `rounding.h`).

The specification's Decompose is a division with remainder and the special case of `q - 1`; both
implementations compute the high part with a multiplication and a shift. All three are the split of
the residue on the same grid (`decompose_isSplit`, one each), hence equal.

## Main results

* `Ossl.highBits_val`, `Ossl.lowBits_val`, `Ossl.power2Round_val` : OpenSSL refines the
specification.
* `Native.decompose_eq` : the engine refines the specification on `[0, q)`.
* `Native.useHint_eq`, `Ossl.useHint_val` : so do the two UseHint.
* `Native.abs_reduce32_lt_iff` : the engine's norm test does not depend on the representative.
-/

namespace MlDsa

/-! ## The specification -/

namespace Fips204

/-- `r mod± α`: the representative in `(-α/2, α/2]`. -/
def modPm (r α : ℤ) : ℤ := if r % α ≤ α / 2 then r % α else r % α - α

/-- Power2Round: the high and the low part of `r` for `2 ^ d`. -/
def power2Round (r : ZMod q) : ℤ × ℤ :=
  let r0 := modPm r.val (2 ^ dBits)
  ((r.val - r0) / 2 ^ dBits, r0)

/-- Decompose: the high and the low part of `r` for `2 * gamma2`. -/
def decompose (v : Variant) (r : ZMod q) : ℤ × ℤ :=
  let r0 := modPm r.val (2 * v.gamma2)
  if r.val - r0 = q - 1 then (0, r0 - 1) else ((r.val - r0) / (2 * v.gamma2), r0)

def highBits (v : Variant) (r : ZMod q) : ℤ := (decompose v r).1

def lowBits (v : Variant) (r : ZMod q) : ℤ := (decompose v r).2

/-- MakeHint: does adding `z` to `r` change its high part? -/
def makeHint (v : Variant) (z r : ZMod q) : Bool := decide (highBits v r ≠ highBits v (r + z))

/-- UseHint: the high part of `r`, or its neighbour on the side `r` leans to. -/
def useHint (v : Variant) (h : Bool) (r : ZMod q) : ℤ :=
  if h then
    if 0 < lowBits v r then (highBits v r + 1) % v.m else (highBits v r - 1) % v.m
  else highBits v r

/-- `mod±` is a remainder: it is small and leaves a multiple of `α`. -/
theorem modPm_spec (r : ℤ) {α : ℤ} (hα : 0 < α) :
    -α < 2 * modPm r α ∧ 2 * modPm r α ≤ α ∧ ∃ t, r = α * t + modPm r α := by
  have hlt := Int.emod_lt_of_pos r hα
  have hge := Int.emod_nonneg r hα.ne'
  have hdiv := Int.mul_ediv_add_emod r α
  rw [modPm]
  split
  · exact ⟨by omega, by omega, r / α, hdiv.symm⟩
  · refine ⟨by omega, by omega, r / α + 1, ?_⟩
    rw [mul_add, mul_one]
    omega

theorem power2Round_range (r : ZMod q) :
    (0 ≤ (power2Round r).1 ∧ (power2Round r).1 < 2 ^ 10) ∧
      -2 ^ 12 < (power2Round r).2 ∧ (power2Round r).2 ≤ 2 ^ 12 := by
  have hlt : (r.val : ℤ) < 8380417 := by exact_mod_cast r.val_lt
  have hd : (2 : ℤ) ^ dBits = 8192 := by norm_num
  rw [power2Round, hd]
  obtain ⟨hlo, hhi, t, ht⟩ := modPm_spec r.val (by norm_num : (0 : ℤ) < 8192)
  dsimp only
  omega

theorem decompose_isSplit (v : Variant) (r : ZMod q) :
    v.grid.IsSplit r (decompose v r).1 (decompose v r).2 := by
  have hγ : (0 : ℤ) < v.grid.γ := by exact_mod_cast v.grid.γ_pos
  have hq := v.grid.modulus_int
  have hlt : (r.val : ℤ) < q := by exact_mod_cast r.val_lt
  have hge : (0 : ℤ) ≤ r.val := Int.natCast_nonneg _
  have hcast : ((r.val : ℤ) : ZMod q) = r := by rw [Int.cast_natCast, ZMod.natCast_zmod_val]
  have hgamma : (v.gamma2 : ℤ) = v.grid.γ := rfl
  rw [decompose, hgamma]
  generalize (r.val : ℤ) = x at hlt hge hcast
  obtain ⟨hlo, hhi, t, ht⟩ := modPm_spec x (mul_pos two_pos hγ)
  generalize modPm x (2 * v.grid.γ) = r0 at hlo hhi ht
  have ht0 : 0 ≤ t := by
    by_contra hneg
    nlinarith
  have htm : t ≤ v.grid.m := by
    by_contra hgt
    nlinarith
  rw [← hcast, show x - r0 = 2 * v.grid.γ * t by omega]
  by_cases htop : t = v.grid.m
  · rw [if_pos (by rw [htop]; omega), show r0 - 1 = x - q by rw [ht, htop]; omega]
    exact Grid.isSplit_of_top (by rw [ht, htop]; omega) hlt
  · have hne : 2 * (v.grid.γ : ℤ) * t ≠ q - 1 := by
      intro heq
      exact htop (mul_left_cancel₀ (mul_pos two_pos hγ).ne' (by omega))
    rw [if_neg hne, Int.mul_ediv_cancel_left _ (mul_pos two_pos hγ).ne',
      show r0 = x - 2 * v.grid.γ * t by omega]
    change v.grid.IsSplit (x : ZMod q) t (x - 2 * v.grid.γ * t)
    exact Grid.isSplit_of_mem ht0 (by omega) (by omega) (by omega)

theorem highBits_range (v : Variant) (r : ZMod q) :
    0 ≤ highBits v r ∧ highBits v r < v.m :=
  ⟨(decompose_isSplit v r).hi_nonneg, (decompose_isSplit v r).hi_lt⟩

theorem useHint_range (v : Variant) (h : Bool) (r : ZMod q) :
    0 ≤ useHint v h r ∧ useHint v h r < v.m := by
  have hm : (0 : ℤ) < v.m := by cases v <;> decide
  have hmod : ∀ x : ℤ, 0 ≤ x % v.m ∧ x % v.m < v.m := fun x ↦
    ⟨Int.emod_nonneg x hm.ne', Int.emod_lt_of_pos x hm⟩
  rw [useHint]
  split_ifs
  · exact hmod _
  · exact hmod _
  · exact highBits_range v r

end Fips204

/-! ## OpenSSL -/

namespace Ossl

/-- `reduce_once`, for `x < 2 * q`. -/
def reduceOnce (x : ℕ) : ℕ := if x < q then x else x - q

/-- `mod_sub`. -/
def modSub (a b : ℕ) : ℕ := reduceOnce (q + a - b)

/-- `abs_signed`, of a 32-bit word read as a signed one. -/
def absSigned (x : ℤ) : ℕ := if 0 ≤ x then x.toNat else (-x).toNat

/-- `abs_mod_prime`. -/
def absModPrime (x : ℕ) : ℕ := if (q - 1) / 2 < x then q - x else x

/-- `maximum`. -/
def maximum (x y : ℕ) : ℕ := if x < y then y else x

/-- `ossl_ml_dsa_key_compress_power2_round`: `r1` and `r0`. -/
def power2Round (r : ℕ) : ℕ × ℕ :=
  let r1 := r >>> dBits
  let r0 := r - r1 <<< dBits
  if 1 <<< (dBits - 1) < r0 then (r1 + 1, modSub r0 (1 <<< dBits)) else (r1, r0)

/-- `ossl_ml_dsa_key_compress_high_bits`. -/
def highBits (r gamma2 : ℕ) : ℕ :=
  let r1 := (r + 127) >>> 7
  if gamma2 = gamma2QMinus1Div32 then ((r1 * 1025 + 1 <<< 21) >>> 22) &&& 15
  else
    let r1 := (r1 * 11275 + 1 <<< 23) >>> 24
    -- `r1 ^= ((43 - r1) >> 31) & r1` clears a value above 43
    if 43 < r1 then 0 else r1

/-- `ossl_ml_dsa_key_compress_decompose`: `r1` and `r0`. -/
def decompose (r gamma2 : ℕ) : ℕ × ℤ :=
  let r1 := highBits r gamma2
  let r0 : ℤ := r - r1 * 2 * gamma2
  (r1, if (q - 1) / 2 - r0 < 0 then r0 - q else r0)

/-- `ossl_ml_dsa_key_compress_low_bits`. -/
def lowBits (r gamma2 : ℕ) : ℤ := (decompose r gamma2).2

/-- `ossl_ml_dsa_key_compress_make_hint`. -/
def makeHint (ct0 cs2 gamma2 w : ℕ) : ℕ :=
  let rPlusZ := modSub w cs2
  let r := reduceOnce (rPlusZ + ct0)
  if highBits r gamma2 ≠ highBits rPlusZ gamma2 then 1 else 0

/-- `ossl_ml_dsa_key_compress_use_hint`. The subtraction wraps around, which the mask undoes. -/
def useHint (hint r gamma2 : ℕ) : ℕ :=
  let r1 := (decompose r gamma2).1
  let r0 := (decompose r gamma2).2
  if hint = 0 then r1
  else if gamma2 = gamma2QMinus1Div32 then
    if 0 < r0 then (r1 + 1) &&& 15 else (r1 + 2 ^ 32 - 1) % 2 ^ 32 &&& 15
  else if 0 < r0 then (if r1 = 43 then 0 else r1 + 1)
  else if r1 = 0 then 43 else r1 - 1

theorem reduceOnce_lt {x : ℕ} (h : x < 2 * q) : reduceOnce x < q := by
  rw [reduceOnce]
  split
  · assumption
  · omega

theorem modSub_lt {a : ℕ} (b : ℕ) (ha : a < q) : modSub a b < q :=
  reduceOnce_lt (by omega)

theorem reduceOnce_cast (x : ℕ) : (reduceOnce x : ZMod q) = x := by
  rw [reduceOnce]
  split
  · rfl
  · rw [Nat.cast_sub (by omega), ZMod.natCast_self, sub_zero]

/-- A representative in `[0, q)` is the one of its residue. -/
theorem eq_val_of_cast {x : ℕ} {r : ZMod q} (hlt : x < q) (hcast : (x : ZMod q) = r) :
    x = r.val := by
  rw [← hcast, ZMod.val_natCast_of_lt hlt]

theorem reduceOnce_val_add (a b : ZMod q) : reduceOnce (a.val + b.val) = (a + b).val := by
  have ha := a.val_lt
  have hb := b.val_lt
  refine eq_val_of_cast (reduceOnce_lt (by omega)) ?_
  rw [reduceOnce_cast, Nat.cast_add, ZMod.natCast_zmod_val, ZMod.natCast_zmod_val]

theorem modSub_val (a b : ZMod q) : modSub a.val b.val = (a - b).val := by
  have ha := a.val_lt
  have hb := b.val_lt
  refine eq_val_of_cast (reduceOnce_lt (by omega)) ?_
  rw [modSub, reduceOnce_cast, Nat.cast_sub (by omega), Nat.cast_add,
    ZMod.natCast_self, zero_add, ZMod.natCast_zmod_val, ZMod.natCast_zmod_val]

theorem absModPrime_val (a : ZMod q) : (absModPrime a.val : ℤ) = |a.valMinAbs| := by
  have ha := a.val_lt
  rw [ZMod.valMinAbs_def_pos, absModPrime]
  have hhalf : q / 2 = (q - 1) / 2 := by decide
  rw [hhalf]
  split
  · rw [if_neg (by omega), abs_of_neg (by omega)]
    omega
  · rw [if_pos (by omega), abs_of_nonneg (by omega)]

theorem absSigned_eq (x : ℤ) : (absSigned x : ℤ) = |x| := by
  rw [absSigned]
  split
  · rw [abs_of_nonneg (by assumption)]
    omega
  · rw [abs_of_neg (by omega)]
    omega

/-- Division by `2 * gamma2` as a multiplication and a shift, for `gamma2 = (q - 1) / 32`. -/
theorem div_shift_32 {r : ℕ} (hr : r < 8380417) :
    ((r + 127) / 128 * 1025 + 2097152) / 4194304 ≤ 16 ∧
      r ≤ 523776 * (((r + 127) / 128 * 1025 + 2097152) / 4194304) + 261888 ∧
      523776 * (((r + 127) / 128 * 1025 + 2097152) / 4194304) < r + 261888 := by
  omega

/-- Division by `2 * gamma2` as a multiplication and a shift, for `gamma2 = (q - 1) / 88`. -/
theorem div_shift_88 {r : ℕ} (hr : r < 8380417) :
    ((r + 127) / 128 * 11275 + 8388608) / 16777216 ≤ 44 ∧
      r ≤ 190464 * (((r + 127) / 128 * 11275 + 8388608) / 16777216) + 95232 ∧
      190464 * (((r + 127) / 128 * 11275 + 8388608) / 16777216) < r + 95232 := by
  omega

/-- The high part is a rounded quotient, with the quotient `m` read as `0`. -/
theorem highBits_quotient (v : Variant) {r : ℕ} (hr : r < q) :
    ∃ t : ℕ, t ≤ v.m ∧ r ≤ 2 * v.gamma2 * t + v.gamma2 ∧ 2 * v.gamma2 * t < r + v.gamma2 ∧
      highBits r v.gamma2 = if t = v.m then 0 else t := by
  rcases eq_or_ne v .mlDsa44 with rfl | hv
  · obtain ⟨hle, hhi, hlo⟩ := div_shift_88 hr
    refine ⟨_, hle, hhi, hlo, ?_⟩
    rw [highBits, if_neg (by decide), Nat.shiftRight_eq_div_pow, Nat.shiftRight_eq_div_pow]
    change (if 43 < ((r + 127) / 128 * 11275 + 8388608) / 16777216 then _ else _) =
      if ((r + 127) / 128 * 11275 + 8388608) / 16777216 = 44 then _ else _
    refine if_congr ?_ rfl rfl
    omega
  · obtain ⟨hle, hhi, hlo⟩ := div_shift_32 hr
    have hgamma : v.gamma2 = gamma2QMinus1Div32 := by cases v <;> first | rfl | exact absurd rfl hv
    have hm : v.m = 16 := by cases v <;> first | rfl | exact absurd rfl hv
    rw [hgamma, hm]
    refine ⟨_, hle, hhi, hlo, ?_⟩
    rw [highBits, if_pos rfl, Nat.shiftRight_eq_div_pow, Nat.shiftRight_eq_div_pow,
      Nat.and_two_pow_sub_one_eq_mod _ 4]
    change ((r + 127) / 128 * 1025 + 2097152) / 4194304 % 16 = _
    split
    · omega
    · exact Nat.mod_eq_of_lt (by omega)

theorem decompose_isSplit (v : Variant) {r : ℕ} (hr : r < q) :
    v.grid.IsSplit (r : ZMod q) (decompose r v.gamma2).1 (decompose r v.gamma2).2 := by
  obtain ⟨t, htm, hle, hgt, hhi⟩ := highBits_quotient v hr
  have hhi' : (highBits r v.gamma2 : ℤ) = if (t : ℤ) = v.grid.m then 0 else (t : ℤ) := by
    rw [hhi, Nat.cast_ite, Nat.cast_zero]
    exact if_congr (by rw [Nat.cast_inj]; rfl) rfl rfl
  have h := v.grid.isSplit_of_quotient (x := r) (t := t) (by exact_mod_cast hr)
    (Int.natCast_nonneg t) (by exact_mod_cast htm) (by exact_mod_cast hle)
    (by exact_mod_cast hgt) hhi'
  have hr0 : (r : ℤ) - highBits r v.gamma2 * 2 * v.gamma2 =
      r - 2 * v.grid.γ * highBits r v.gamma2 := by
    rw [mul_assoc, mul_comm]
    rfl
  rw [← Int.cast_natCast r, decompose, hr0]
  simp only [sub_neg]
  exact h

/-! OpenSSL's functions are the specification's, on the representatives in `[0, q)`. -/

theorem highBits_val (v : Variant) (r : ZMod q) :
    (highBits r.val v.gamma2 : ℤ) = Fips204.highBits v r := by
  have h := decompose_isSplit v r.val_lt
  rw [ZMod.natCast_zmod_val] at h
  exact (h.unique (Fips204.decompose_isSplit v r)).1

theorem lowBits_val (v : Variant) (r : ZMod q) :
    lowBits r.val v.gamma2 = Fips204.lowBits v r := by
  have h := decompose_isSplit v r.val_lt
  rw [ZMod.natCast_zmod_val] at h
  exact (h.unique (Fips204.decompose_isSplit v r)).2

theorem makeHint_val (v : Variant) (ct0 cs2 w : ZMod q) :
    makeHint ct0.val cs2.val v.gamma2 w.val =
      if Fips204.makeHint v (-ct0) (w - cs2 + ct0) then 1 else 0 := by
  rw [makeHint, modSub_val, reduceOnce_val_add, Fips204.makeHint, add_neg_cancel_right]
  refine if_congr ?_ rfl rfl
  rw [decide_eq_true_iff, ← highBits_val, ← highBits_val, Ne, Ne, Nat.cast_inj]

theorem power2Round_eq (x : ℕ) :
    power2Round x =
      if 4096 < x % 8192 then (x / 8192 + 1, modSub (x % 8192) 8192) else (x / 8192, x % 8192) := by
  have hshift : x >>> dBits = x / 8192 := Nat.shiftRight_eq_div_pow _ _
  have hback : (x / 8192) <<< dBits = x / 8192 * 8192 := Nat.shiftLeft_eq _ _
  have hmod : x - x / 8192 * 8192 = x % 8192 := by omega
  rw [power2Round, hshift, hback, hmod]
  rfl

theorem power2Round_val (r : ZMod q) :
    ((power2Round r.val).1 : ℤ) = (Fips204.power2Round r).1 ∧
      (power2Round r.val).2 = ((Fips204.power2Round r).2 : ZMod q).val := by
  have hlt : r.val < 8380417 := r.val_lt
  have hd : (2 : ℤ) ^ dBits = 8192 := by norm_num
  rw [power2Round_eq, Fips204.power2Round, Fips204.modPm, hd]
  generalize r.val = x at hlt
  by_cases hlow : 4096 < x % 8192
  · have hsub : modSub (x % 8192) 8192 < q :=
      modSub_lt _ ((Nat.mod_lt x (by decide)).trans (by decide))
    have hcast : (modSub (x % 8192) 8192 : ZMod q) = (((x : ℤ) % 8192 - 8192 : ℤ) : ZMod q) := by
      have hle : 8192 ≤ q + x % 8192 := le_add_right (by decide)
      rw [modSub, reduceOnce_cast, Nat.cast_sub hle, Nat.cast_add, ZMod.natCast_self, zero_add]
      push_cast
      rfl
    rw [if_pos hlow, if_neg (by omega), ← eq_val_of_cast hsub hcast]
    dsimp only
    refine ⟨?_, rfl⟩
    push_cast
    omega
  · rw [if_neg hlow, if_pos (by omega)]
    refine ⟨by push_cast; omega, eq_val_of_cast (by change x % 8192 < 8380417; omega) ?_⟩
    push_cast
    rfl

theorem useHint_val (v : Variant) (h : Bool) (r : ZMod q) :
    (useHint (if h then 1 else 0) r.val v.gamma2 : ℤ) = Fips204.useHint v h r := by
  have hm : Fips204.highBits v r < v.m := (Fips204.decompose_isSplit v r).hi_lt
  have hhi : (decompose r.val v.gamma2).1 = highBits r.val v.gamma2 := rfl
  have hlo : (decompose r.val v.gamma2).2 = lowBits r.val v.gamma2 := rfl
  rw [useHint, Fips204.useHint, hhi, hlo, lowBits_val, ← highBits_val]
  rw [← highBits_val, Nat.cast_lt] at hm
  generalize highBits r.val v.gamma2 = n at hm
  generalize Fips204.lowBits v r = d
  cases h with
  | false => rw [if_neg Bool.false_ne_true, if_pos rfl, if_neg Bool.false_ne_true]
  | true =>
    rw [if_pos rfl, if_neg one_ne_zero, if_pos rfl]
    rcases eq_or_ne v .mlDsa44 with rfl | hv
    · have hm44 : Variant.m .mlDsa44 = 44 := rfl
      rw [hm44] at hm ⊢
      rw [if_neg (by decide)]
      split_ifs <;> omega
    · have hgamma : v.gamma2 = gamma2QMinus1Div32 := by
        cases v <;> first | rfl | exact absurd rfl hv
      have hm16 : v.m = 16 := by cases v <;> first | rfl | exact absurd rfl hv
      rw [hm16] at hm ⊢
      rw [if_pos hgamma, Nat.and_two_pow_sub_one_eq_mod _ 4, Nat.and_two_pow_sub_one_eq_mod _ 4]
      split_ifs <;> omega

end Ossl

/-! ## The engine

An arithmetic shift to the right is a division that rounds down, and `& 15` is the remainder of
division by 16, also of a negative number. -/

namespace Native

/-- `mld_reduce32`. -/
def reduce32 (a : ℤ) : ℤ := a - ((a + 2 ^ 22) / 2 ^ 23) * q

/-- `mld_caddq`. -/
def caddq (a : ℤ) : ℤ := if a < 0 then a + q else a

/-- `mld_power2round`: `a1` and `a0`. -/
def power2round (a : ℤ) : ℤ × ℤ :=
  let a1 := (a + 2 ^ (dBits - 1) - 1) / 2 ^ dBits
  (a1, a - a1 * 2 ^ dBits)

/-- `mld_decompose`: `a1` and `a0`. -/
def decompose (v : Variant) (a : ℤ) : ℤ × ℤ :=
  let a1 := (a + 127) / 2 ^ 7
  let a1 :=
    if v = .mlDsa44 then
      let a1 := (a1 * 11275 + 2 ^ 23) / 2 ^ 24
      if 43 - a1 < 0 then 0 else a1
    else (a1 * 1025 + 2 ^ 21) / 2 ^ 22 % 16
  let a0 := a - a1 * 2 * v.gamma2
  (a1, if (q - 1) / 2 - a0 < 0 then a0 - q else a0)

/-- `mld_make_hint`. -/
def makeHint (v : Variant) (a0 a1 : ℤ) : ℕ :=
  if a0 > v.gamma2 ∨ a0 < -v.gamma2 ∨ (a0 = -v.gamma2 ∧ a1 ≠ 0) then 1 else 0

/-- `mld_use_hint`. -/
def useHint (v : Variant) (a : ℤ) (hint : ℕ) : ℤ :=
  let a1 := (decompose v a).1
  let a0 := (decompose v a).2
  if hint = 0 then a1
  else if v = .mlDsa44 then
    if 0 < a0 then (if a1 = 43 then 0 else a1 + 1) else if a1 = 0 then 43 else a1 - 1
  else if 0 < a0 then (a1 + 1) % 16
  else (a1 - 1) % 16

theorem caddq_range {a : ℤ} (h : |a| < q) :
    0 ≤ caddq a ∧ caddq a < q ∧ (caddq a : ZMod q) = a := by
  obtain ⟨hlo, hhi⟩ := abs_lt.mp h
  rw [caddq]
  split
  · refine ⟨by omega, by omega, ?_⟩
    rw [Int.cast_add, Int.cast_natCast, ZMod.natCast_self, add_zero]
  · exact ⟨by omega, hhi, rfl⟩

/-- After `mld_caddq` a coefficient is the representative of its residue. -/
theorem caddq_eq_val {a : ℤ} (h : |a| < q) : caddq a = ((a : ZMod q).val : ℤ) := by
  obtain ⟨hlo, hhi, hcast⟩ := caddq_range h
  rw [← hcast, ZMod.val_intCast, Int.emod_eq_of_lt hlo hhi]

/-- On a natural number the engine's high part is OpenSSL's. -/
theorem decompose_fst_natCast (v : Variant) (n : ℕ) :
    (decompose v n).1 = Ossl.highBits n v.gamma2 := by
  rw [decompose, Ossl.highBits, Nat.shiftRight_eq_div_pow, Nat.shiftRight_eq_div_pow,
    Nat.shiftRight_eq_div_pow, Nat.shiftLeft_eq, Nat.shiftLeft_eq,
    Nat.and_two_pow_sub_one_eq_mod _ 4]
  dsimp only
  rcases eq_or_ne v .mlDsa44 with rfl | hv
  · have hne : Variant.gamma2 .mlDsa44 ≠ gamma2QMinus1Div32 := by decide
    rw [if_pos rfl, if_neg hne, one_mul]
    push_cast
    refine if_congr ?_ rfl rfl
    rw [sub_neg]
    norm_cast
  · have hgamma : v.gamma2 = gamma2QMinus1Div32 := by
      cases v <;> first | rfl | exact absurd rfl hv
    rw [if_neg hv, if_pos hgamma, one_mul]
    push_cast
    rfl

/-- The engine refines the specification's Decompose. -/
theorem decompose_eq (v : Variant) (r : ZMod q) :
    decompose v r.val = (Fips204.highBits v r, Fips204.lowBits v r) := by
  have hhi := decompose_fst_natCast v r.val
  refine Prod.ext (hhi.trans (Ossl.highBits_val v r)) ?_
  rw [← Ossl.lowBits_val, Ossl.lowBits, Ossl.decompose, ← hhi]
  rfl

theorem useHint_eq (v : Variant) (h : Bool) (r : ZMod q) :
    useHint v r.val (if h then 1 else 0) = Fips204.useHint v h r := by
  have h0 : 0 ≤ Fips204.highBits v r := (Fips204.decompose_isSplit v r).hi_nonneg
  have hm : Fips204.highBits v r < v.m := (Fips204.decompose_isSplit v r).hi_lt
  rw [useHint, Fips204.useHint, decompose_eq]
  dsimp only
  generalize Fips204.highBits v r = n at h0 hm
  generalize Fips204.lowBits v r = d
  cases h with
  | false => rw [if_neg Bool.false_ne_true, if_pos rfl, if_neg Bool.false_ne_true]
  | true =>
    rw [if_pos rfl, if_neg one_ne_zero, if_pos rfl]
    rcases eq_or_ne v .mlDsa44 with rfl | hv
    · have hm44 : Variant.m .mlDsa44 = 44 := rfl
      rw [hm44] at hm ⊢
      rw [if_pos rfl]
      split_ifs <;> omega
    · have hm16 : v.m = 16 := by cases v <;> first | rfl | exact absurd rfl hv
      rw [if_neg hv, hm16]
      rfl

theorem reduce32_cast (a : ℤ) : (reduce32 a : ZMod q) = a := by
  rw [reduce32, Int.cast_sub, Int.cast_mul, Int.cast_natCast q, ZMod.natCast_self, mul_zero,
    sub_zero]

/-- `mld_reduce32` returns the small representative, if there is one. -/
theorem reduce32_eq {a c : ℤ} (hc : |c| ≤ 2 ^ 20) (ha : |a| ≤ 3 * q)
    (hcast : (a : ZMod q) = c) : reduce32 a = c := by
  obtain ⟨n, hn⟩ := (ZMod.intCast_eq_intCast_iff_dvd_sub _ _ _).mp hcast
  obtain ⟨hc1, hc2⟩ := abs_le.mp hc
  rw [q_int] at ha hn
  obtain ⟨ha1, ha2⟩ := abs_le.mp ha
  rw [reduce32, q_int]
  omega

/-- A small integer is the representative of its residue closest to zero. -/
theorem valMinAbs_intCast {c : ℤ} (hc : |c| ≤ 2 ^ 20) : (c : ZMod q).valMinAbs = c := by
  obtain ⟨h1, h2⟩ := abs_le.mp hc
  rw [ZMod.valMinAbs_spec, q_int]
  exact ⟨rfl, by omega, by omega⟩

/-- A norm test after `mld_reduce32` tests the residue. -/
theorem abs_reduce32_lt_iff {a B : ℤ} (hB : B ≤ 2 ^ 20) (ha : |a| ≤ 3 * q) :
    |reduce32 a| < B ↔ |(a : ZMod q).valMinAbs| < B := by
  constructor
  · intro h
    rwa [← reduce32_cast, valMinAbs_intCast (h.le.trans hB)]
  · intro h
    rw [reduce32_eq (h.le.trans hB) ha (ZMod.coe_valMinAbs _).symm]
    exact h

/-! ### The rejection test and the hint

The engine tests `LowBits(w) - cs2`, the specification `LowBits(w - cs2)`; and the engine makes the
hint from `LowBits(w) - cs2 + ct0` and `HighBits(w)`, the specification by comparing high parts. -/

variable (v : Variant)

theorem reduce32_lowBits_sub (w : ZMod q) {s e : ℤ} (hs : |s| ≤ v.beta) (he : |e| < q)
    (hcast : (e : ZMod q) = s) :
    reduce32 (Fips204.lowBits v w - e) = Fips204.lowBits v w - s := by
  have hsplit := Fips204.decompose_isSplit v w
  have hge : -(v.gamma2 : ℤ) ≤ Fips204.lowBits v w := hsplit.lo_ge
  have hle : Fips204.lowBits v w ≤ v.gamma2 := hsplit.lo_le
  have hγ : (v.gamma2 : ℤ) ≤ 2 ^ 18 := by exact_mod_cast v.gamma2_le
  have hβ : (v.beta : ℤ) < v.gamma2 := by exact_mod_cast v.beta_lt_gamma2
  rw [abs_le] at hs
  rw [q_int, abs_lt] at he
  refine reduce32_eq ?_ ?_ ?_
  · rw [abs_le]
    omega
  · rw [q_int, abs_le]
    omega
  · rw [Int.cast_sub, Int.cast_sub, hcast]

theorem isSplit_sub (w : ZMod q) (s : ℤ) :
    v.grid.IsSplit (w + ((-s : ℤ) : ZMod q)) (Fips204.highBits v (w - (s : ZMod q)))
      (Fips204.lowBits v (w - (s : ZMod q))) := by
  rw [Int.cast_neg, ← sub_eq_add_neg]
  exact Fips204.decompose_isSplit v _

theorem low_test_iff (w : ZMod q) {s e : ℤ} (hs : |s| ≤ v.beta) (he : |e| < q)
    (hcast : (e : ZMod q) = s) :
    |reduce32 (Fips204.lowBits v w - e)| < v.gamma2 - v.beta ↔
      |Fips204.lowBits v (w - (s : ZMod q))| < v.gamma2 - v.beta := by
  rw [reduce32_lowBits_sub v w hs he hcast]
  exact (Fips204.decompose_isSplit v w).low_test_iff (isSplit_sub v w s) (by rwa [abs_neg])

/-- Where the test passes, the engine's value is the low part of `w - cs2`, and `w - cs2` has the
high part of `w`. -/
theorem low_test_eq (w : ZMod q) {s e : ℤ} (hs : |s| ≤ v.beta) (he : |e| < q)
    (hcast : (e : ZMod q) = s)
    (htest : |reduce32 (Fips204.lowBits v w - e)| < v.gamma2 - v.beta) :
    reduce32 (Fips204.lowBits v w - e) = Fips204.lowBits v (w - (s : ZMod q)) ∧
      Fips204.highBits v w = Fips204.highBits v (w - (s : ZMod q)) := by
  rw [reduce32_lowBits_sub v w hs he hcast] at htest ⊢
  exact ((Fips204.decompose_isSplit v w).eq_of_low_test (isSplit_sub v w s)
    (Int.natCast_nonneg v.beta) htest).symm

/-- The engine's hint is the specification's MakeHint. -/
theorem makeHint_eq (r : ZMod q) {t : ℤ} (hr : |Fips204.lowBits v r| < v.gamma2 - v.beta)
    (ht : |t| < v.gamma2) :
    makeHint v (Fips204.lowBits v r + t) (Fips204.highBits v r) =
      if Fips204.makeHint v (-(t : ZMod q)) (r + (t : ZMod q)) then 1 else 0 := by
  have hsplit := Fips204.decompose_isSplit v r
  have hmoved := Fips204.decompose_isSplit v (r + (t : ZMod q))
  have hsum : |Fips204.lowBits v r + t| < 2 * v.gamma2 := by
    have := abs_add_le (Fips204.lowBits v r) t
    omega
  rw [makeHint, Fips204.makeHint, add_neg_cancel_right]
  refine if_congr ?_ rfl rfl
  rw [decide_eq_true_iff]
  exact (hsplit.high_ne_iff hmoved hsum).symm

end Native

end MlDsa
