import QudoPqc.Fallible.Loop
import QudoPqc.MlDsa.Ntt
import QudoPqc.MlDsa.Ring

/-!
# The samplers of ML-DSA

The rejection loops of `ml_dsa_sample.c` over given output streams of SHAKE128 and SHAKE256. In the
source a loop goes on until it has enough coefficients; here it has no result after `left` blocks.

What the loops return is in the ranges that `Sampling` asks for. So they make up a `Sampling`, and
what is proved about all samplers holds for those of the source.
-/

namespace MlDsa

open Fallible Function

/-- The integers of least absolute value that have these representatives. -/
def Poly.centred (p : Poly ℕ) : Poly ℤ := fun i ↦ (p i : ZMod q).valMinAbs

@[simp] theorem Poly.centred_zero (i : Fin numCoeff) : Poly.centred 0 i = 0 := by
  simp [centred]

theorem Poly.repr_centred {p : Poly ℕ} (h : ∀ i, p i < q) : p.centred.repr = p := by
  funext i
  rw [repr, centred, ZMod.coe_valMinAbs, ZMod.val_cast_of_lt (h i)]

namespace Ossl

/-! ## Loops -/

/-- `coeff_from_three_bytes`. -/
def coeffFromThreeBytes (s : ℕ → UInt8) : Option ℕ :=
  let out := (s 0).toNat ||| (s 1).toNat <<< 8 ||| ((s 2).toNat &&& 0x7f) <<< 16
  if out < q then some out else none

/-- `MOD5`. -/
def mod5 (n : ℕ) : ℕ := n - 5 * ((0x3335 * n) >>> 16)

/-- `coeff_from_nibble_4`. -/
def coeffFromNibble4 (nibble : ℕ) : Option ℕ :=
  if nibble < 9 then some (modSub 4 nibble) else none

/-- `coeff_from_nibble_2`. -/
def coeffFromNibble2 (nibble : ℕ) : Option ℕ :=
  if nibble < 15 then some (modSub 2 (mod5 nibble)) else none

section Streams

variable (left : ℕ) (stream : ℕ → UInt8)

/-- `rej_ntt_poly`. -/
def rejNttPoly : Option (Poly ℕ) :=
  (fill coeffFromThreeBytes numCoeff (fun i ↦ (List.range 56).map fun j k ↦
    stream (168 * i + 3 * j + k)) left 0 []).map Poly.ofList

/-- `rej_bounded_poly`, with `coef_from_nibble_fn`. -/
def rejBoundedPoly (eta : ℕ) : Option (Poly ℕ) :=
  (fill (if eta = 4 then coeffFromNibble4 else coeffFromNibble2) numCoeff (fun i ↦
    (List.range 136).flatMap fun j ↦
      let b := (stream (136 * i + j)).toNat
      [b &&& 0x0f, b >>> 4]) left 0 []).map Poly.ofList

/-- The loop of `ossl_ml_dsa_poly_sample_in_ball`, for the values of `end`. The position in the
stream stands for the block and the offset. -/
def ballLoop : List (Fin numCoeff) → (pos signs : ℕ) → Poly ℕ → Option (Poly ℕ)
  | [], _, _, c => some c
  | last :: rest, pos, signs, c => do
    let pos ← firstSome (fun pos ↦ if (stream pos).toNat ≤ last then some pos else none) left pos
    let index : Fin numCoeff := ⟨(stream pos).toNat, (stream pos).toNat_lt⟩
    ballLoop rest (pos + 1) (signs >>> 1)
      (update (update c last (c index)) index (modSub 1 (2 * (signs &&& 1))))

/-- `ossl_ml_dsa_poly_sample_in_ball`. -/
def polySampleInBall (tau : ℕ) : Option (Poly ℕ) :=
  ballLoop left stream ((List.finRange numCoeff).drop (numCoeff - tau)) 8
    (Codec.loadLe (List.ofFn fun i : Fin 8 ↦ stream i)) 0

end Streams

section Seeds

variable (v : Variant) (left : ℕ) (shake128 shake256 : Bytes → ℕ → UInt8) (seed : Bytes)

/-- `ossl_ml_dsa_matrix_expand_A`. -/
def matrixExpandA : Option (Fin v.k → PolyVec v.l ℕ) :=
  forRows fun i ↦ forRows fun j ↦
    rejNttPoly left (shake128 (seed ++ [UInt8.ofNat j, UInt8.ofNat i]))

/-- `ossl_ml_dsa_vector_expand_S`. -/
def vectorExpandS : Option (PolyVec v.l ℕ × PolyVec v.k ℕ) := do
  let poly (i : ℕ) := rejBoundedPoly left (shake256 (seed ++ [UInt8.ofNat i, 0])) v.eta
  let s1 ← forRows fun i ↦ poly i
  let s2 ← forRows fun i ↦ poly (v.l + i)
  return (s1, s2)

end Seeds

/-! ## Ranges -/

variable {v : Variant} {left : ℕ} {stream : ℕ → UInt8} {p : Poly ℕ}

theorem rejNttPoly_lt (h : rejNttPoly left stream = some p) (i : Fin numCoeff) : p i < q := by
  obtain ⟨out, hfill, rfl⟩ := Option.map_eq_some_iff.mp h
  obtain ⟨s, hs⟩ := exists_of_fill hfill i.isLt 0
  obtain ⟨hlt, heq⟩ := Option.ite_none_right_eq_some.mp hs
  rwa [Option.some.inj heq] at hlt

theorem rejBoundedPoly_range (h : rejBoundedPoly left stream v.eta = some p) (i : Fin numCoeff) :
    p i < q ∧ |p.centred i| ≤ v.eta := by
  have h4 : ∀ n < 9, modSub 4 n < q ∧ |((modSub 4 n : ℕ) : ZMod q).valMinAbs| ≤ 4 := by
    decide +kernel
  have h2 : ∀ n < 15, modSub 2 (mod5 n) < q ∧
      |((modSub 2 (mod5 n) : ℕ) : ZMod q).valMinAbs| ≤ 2 := by
    decide +kernel
  obtain ⟨out, hfill, rfl⟩ := Option.map_eq_some_iff.mp h
  obtain ⟨nibble, hn⟩ := exists_of_fill hfill i.isLt 0
  rw [Poly.centred, Poly.ofList]
  cases v with
  | mlDsa65 =>
    obtain ⟨hlt, heq⟩ := Option.ite_none_right_eq_some.mp hn
    exact Option.some.inj heq ▸ h4 nibble hlt
  | _ =>
    obtain ⟨hlt, heq⟩ := Option.ite_none_right_eq_some.mp hn
    exact Option.some.inj heq ▸ h2 nibble hlt

/-- The coefficients stand for `-1`, `0` and `1`, and at most `n` of them are not zero. -/
structure InBall (n : ℕ) (c : Poly ℕ) : Prop where
  lt : ∀ i, c i < q
  abs_le_one : ∀ i, |c.centred i| ≤ 1
  weight_le : ∑ i, |c.centred i| ≤ n

theorem inBall_zero (n : ℕ) : InBall n 0 := by
  refine ⟨fun _ ↦ (by decide : 0 < q), fun i ↦ ?_, ?_⟩ <;> simp

/-- A round exchanges two coefficients and overwrites one of them. -/
theorem InBall.round {n x : ℕ} {c : Poly ℕ} (h : InBall n c) (last index : Fin numCoeff)
    (hx : x < q ∧ |(x : ZMod q).valMinAbs| = 1) :
    InBall (n + 1) (update (update c last (c index)) index x) := by
  have hswap : update (update c last (c index)) index x =
      update (c ∘ Equiv.swap last index) index x := by
    funext i
    simp only [update_apply, comp_apply, Equiv.swap_apply_def]
    split_ifs <;> rfl
  have hforall : ∀ P : ℕ → Prop, P x → (∀ i, P (c i)) →
      ∀ i, P (update (c ∘ Equiv.swap last index) index x i) := fun P hPx hP ↦
    (forall_update_iff _ fun _ ↦ P).mpr ⟨hPx, fun i _ ↦ hP _⟩
  let weight (x : ℕ) : ℤ := |(x : ZMod q).valMinAbs|
  rw [hswap]
  -- the exchange keeps the sum, so that only the new coefficient counts
  refine ⟨hforall (· < q) hx.1 h.lt, hforall (weight · ≤ 1) hx.2.le h.abs_le_one, ?_⟩
  calc ∑ i, weight (update (c ∘ Equiv.swap last index) index x i)
      = ∑ i, update (weight ∘ c ∘ Equiv.swap last index) index (weight x) i := by
        rw [← comp_update]
        rfl
    _ ≤ weight x + ∑ i, weight (c (Equiv.swap last index i)) := by
        rw [Finset.sum_update_of_mem (Finset.mem_univ index)]
        gcongr
        exact Finset.sum_le_sum_of_subset_of_nonneg Finset.sdiff_subset fun i _ _ ↦ abs_nonneg _
    _ ≤ (n + 1 : ℕ) := by
        rw [Equiv.sum_comp (Equiv.swap last index) fun i ↦ weight (c i), Nat.cast_succ, add_comm]
        exact add_le_add h.weight_le hx.2.le

theorem ballLoop_inBall {rounds : List (Fin numCoeff)} {pos signs n : ℕ} {c : Poly ℕ}
    (hc : InBall n c) (h : ballLoop left stream rounds pos signs c = some p) :
    InBall (n + rounds.length) p := by
  -- every round allows for one more coefficient that is not zero
  induction rounds generalizing pos signs n c with
  | nil => exact Option.some.inj h ▸ hc
  | cons last rest ih =>
    have hsign : ∀ s < 2, modSub 1 (2 * s) < q ∧
        |((modSub 1 (2 * s) : ℕ) : ZMod q).valMinAbs| = 1 := by
      decide +kernel
    obtain ⟨pos, -, hrest⟩ := Option.bind_eq_some_iff.mp h
    rw [List.length_cons, ← Nat.succ_add_eq_add_succ]
    exact ih (hc.round last _ (hsign _ (by rw [Nat.and_one_is_mod]; omega))) hrest

theorem polySampleInBall_inBall (h : polySampleInBall left stream v.tau = some p) :
    InBall v.tau p := by
  have hp := ballLoop_inBall (inBall_zero 0) h
  rwa [List.length_drop, List.length_finRange, Nat.zero_add,
    Nat.sub_sub_self (by cases v <;> decide)] at hp

/-! ## The samplers of the source -/

theorem getD_of_some {α : Type} {x : Option α} {a : α} {P : α → Prop} (h : ∀ b, x = some b → P b)
    (ha : P a) : P (x.getD a) := by
  cases x with
  | none => exact ha
  | some b => exact h b rfl

section Sampling

variable (v left) (shake128 shake256 : Bytes → ℕ → UInt8)

/-- The samplers, with zero for the result of a loop that has none. -/
def sampling : Sampling v where
  shake256 := shake256
  expandA rho i j := Fips204.nttInv
    ((rejNttPoly left (shake128 (rho ++ [UInt8.ofNat j, UInt8.ofNat i]))).getD 0).cast
  expandS seed :=
    let poly (i : ℕ) : ShortPoly v.eta :=
      ⟨((rejBoundedPoly left (shake256 (seed ++ [UInt8.ofNat i, 0])) v.eta).getD 0).centred,
        getD_of_some (P := fun p : Poly ℕ ↦ ∀ i, |p.centred i| ≤ v.eta)
          (fun _ h i ↦ (rejBoundedPoly_range h i).2) (by simp)⟩
    (fun i ↦ poly i, fun i ↦ poly (v.l + i))
  sampleInBall seed :=
    have h : InBall v.tau ((polySampleInBall left (shake256 seed) v.tau).getD 0) :=
      getD_of_some (fun _ ↦ polySampleInBall_inBall) (inBall_zero _)
    ⟨_, h.abs_le_one, h.weight_le⟩

variable {v left shake128 shake256} {seed : Bytes}

/-- Where the loops of the source have results, the samplers return these. The matrix is
transformed in the source. -/
theorem matrixExpandA_eq {m : Fin v.k → PolyVec v.l ℕ}
    (h : matrixExpandA v left shake128 seed = some m) (i : Fin v.k) (j : Fin v.l) :
    Poly.val (Fips204.ntt ((sampling v left shake128 shake256).expandA seed i j)) = m i j := by
  have hpoly := forRows_eq_some.mp (forRows_eq_some.mp h i) j
  simp only [sampling, hpoly, Option.getD_some, Fips204.ntt_nttInv]
  exact funext fun i ↦ ZMod.val_cast_of_lt (rejNttPoly_lt hpoly i)

theorem repr_centred_rejBoundedPoly (h : rejBoundedPoly left stream v.eta = some p) :
    ((rejBoundedPoly left stream v.eta).getD 0).centred.repr = p := by
  rw [h]
  exact Poly.repr_centred fun i ↦ (rejBoundedPoly_range h i).1

theorem vectorExpandS_eq {s : PolyVec v.l ℕ × PolyVec v.k ℕ}
    (h : vectorExpandS v left shake256 seed = some s) :
    let S := (sampling v left shake128 shake256).expandS seed
    (∀ i, (S.1 i).1.repr = s.1 i) ∧ ∀ i, (S.2 i).1.repr = s.2 i := by
  obtain ⟨s1, h1, h⟩ := Option.bind_eq_some_iff.mp h
  obtain ⟨s2, h2, h⟩ := Option.bind_eq_some_iff.mp h
  obtain rfl := Option.some.inj h
  exact ⟨fun i ↦ repr_centred_rejBoundedPoly (forRows_eq_some.mp h1 i),
    fun i ↦ repr_centred_rejBoundedPoly (forRows_eq_some.mp h2 i)⟩

theorem polySampleInBall_eq {c : Poly ℕ}
    (h : polySampleInBall left (shake256 seed) v.tau = some c) :
    ((sampling v left shake128 shake256).sampleInBall seed).coeff.repr = c := by
  simp only [sampling, h, Option.getD_some]
  exact Poly.repr_centred (polySampleInBall_inBall h).lt

end Sampling

end Ossl

end MlDsa
