import Mathlib.Data.ZMod.Basic
import Mathlib.Tactic.Linarith
import Mathlib.Tactic.Ring

/-!
# Splitting residues into high and low parts

For `q = 2γm + 1`, every residue modulo `q` is `2γ · hi + lo` for one of `m` high parts and a low
part of absolute value at most `γ`. The topmost interval would need the high part `m`; since
`2γm = -1` it is folded onto the high part `0`, whose low parts therefore reach down to `-γ`
itself while all other low parts stay above. With that convention the split is unique
(`IsSplit.unique`), which is what every comparison of two ways to compute it rests on.

Rounding signature schemes compare the split of `r` with that of a nearby `r + t`. `IsSplit.add`
says when the low part just moves; `low_test_iff` and `high_ne_iff` are the two consequences: a
norm test on the moved low part sees the same residues as one on the low part of the moved
residue, and the high part changes exactly when the moved low part leaves its interval.
-/

/-- The shape of a split: `m` intervals of length `2γ` around the multiples of `2γ`, with the one
residue left over at the top. -/
structure Grid (q : ℕ) where
  γ : ℕ
  m : ℕ
  γ_pos : 0 < γ
  one_lt_m : 1 < m
  modulus : 2 * γ * m + 1 = q

namespace Grid

variable {q : ℕ} (G : Grid q)

/-- `hi` and `lo` are the high and the low part of `r`. -/
structure IsSplit (r : ZMod q) (hi lo : ℤ) : Prop where
  sum : ((2 * G.γ * hi + lo : ℤ) : ZMod q) = r
  hi_nonneg : 0 ≤ hi
  hi_lt : hi < G.m
  lo_ge : -(G.γ : ℤ) ≤ lo
  lo_le : lo ≤ G.γ
  lo_edge : lo = -G.γ → hi = 0

variable {G}

theorem modulus_int (G : Grid q) : (q : ℤ) = 2 * G.γ * G.m + 1 := by
  have h := G.modulus
  exact_mod_cast h.symm

/-- A high part whose interval contains the representative. -/
theorem isSplit_of_mem {x hi : ℤ} (h0 : 0 ≤ hi) (hm : hi < G.m)
    (hgt : -(G.γ : ℤ) < x - 2 * G.γ * hi) (hle : x - 2 * G.γ * hi ≤ G.γ) :
    G.IsSplit (x : ZMod q) hi (x - 2 * G.γ * hi) where
  sum := by rw [add_sub_cancel]
  hi_nonneg := h0
  hi_lt := hm
  lo_ge := hgt.le
  lo_le := hle
  lo_edge hedge := absurd hedge hgt.ne'

/-- A representative in the topmost interval. -/
theorem isSplit_of_top {x : ℤ} (hgt : 2 * G.γ * G.m - G.γ < x) (hlt : x < q) :
    G.IsSplit (x : ZMod q) 0 (x - q) where
  sum := by
    rw [mul_zero, zero_add, Int.cast_sub, Int.cast_natCast q, ZMod.natCast_self, sub_zero]
  hi_nonneg := le_rfl
  hi_lt := by exact_mod_cast zero_lt_one.trans G.one_lt_m
  lo_ge := by
    have := G.modulus_int
    omega
  lo_le := by omega
  lo_edge _ := rfl

/-- The split from a rounded quotient `t`: the quotient `m` is read as `0`, and the remainder is
brought below half of `q`. -/
theorem isSplit_of_quotient {x t hi : ℤ} (hx : x < q) (ht0 : 0 ≤ t) (htm : t ≤ G.m)
    (hle : x ≤ 2 * G.γ * t + G.γ) (hgt : 2 * G.γ * t < x + G.γ)
    (hhi : hi = if t = G.m then 0 else t) :
    G.IsSplit (x : ZMod q) hi
      (if ((q : ℤ) - 1) / 2 < x - 2 * G.γ * hi then x - 2 * G.γ * hi - q
      else x - 2 * G.γ * hi) := by
  have hq := G.modulus_int
  have hγ : (0 : ℤ) < G.γ := by exact_mod_cast G.γ_pos
  have hm : (1 : ℤ) < G.m := by exact_mod_cast G.one_lt_m
  have hhalf : ((q : ℤ) - 1) / 2 = G.γ * G.m := by
    rw [hq, add_sub_cancel_right, mul_assoc, Int.mul_ediv_cancel_left _ two_ne_zero]
  have hγm : (G.γ : ℤ) ≤ G.γ * G.m := by nlinarith
  rw [hhalf, hhi]
  by_cases htop : t = G.m
  · rw [htop] at hgt
    rw [if_pos htop, mul_zero, sub_zero, if_pos (by nlinarith)]
    exact isSplit_of_top (by linarith) hx
  · rw [if_neg htop, if_neg (by linarith)]
    exact isSplit_of_mem ht0 (lt_of_le_of_ne htm htop) (by linarith) (by linarith)

namespace IsSplit

variable {r : ZMod q} {hi lo hi' lo' t : ℤ}

theorem unique (h : G.IsSplit r hi lo) (h' : G.IsSplit r hi' lo') : hi = hi' ∧ lo = lo' := by
  have hq := G.modulus_int
  have hγ : (0 : ℤ) < G.γ := by exact_mod_cast G.γ_pos
  obtain ⟨hsum, h0, hm, hge, hle, hedge⟩ := h
  obtain ⟨hsum', h0', hm', hge', hle', hedge'⟩ := h'
  -- the two sums differ by a multiple of `q`, and are too close for any but zero
  have hdvd : (q : ℤ) ∣ (2 * G.γ * hi' + lo') - (2 * G.γ * hi + lo) :=
    (ZMod.intCast_eq_intCast_iff_dvd_sub _ _ _).mp (hsum.trans hsum'.symm)
  have hbound : |(2 * G.γ * hi' + lo') - (2 * G.γ * hi + lo)| < q := by
    rw [abs_lt, hq]
    constructor <;> nlinarith
  have hzero := Int.eq_zero_of_abs_lt_dvd hdvd hbound
  -- so the high parts differ by at most one, and the edge convention excludes that
  have hup : hi' - hi < 2 := by
    by_contra hge2
    nlinarith
  have hdown : hi - hi' < 2 := by
    by_contra hge2
    nlinarith
  rcases lt_trichotomy hi hi' with hlt | heq | hgt
  · have hstep : hi' = hi + 1 := by omega
    rw [hstep] at hzero
    have hlo' : lo' = -G.γ := by linarith
    have := hedge' hlo'
    omega
  · rw [heq] at hzero
    exact ⟨heq, by linarith⟩
  · have hstep : hi = hi' + 1 := by omega
    rw [hstep] at hzero
    have hlo : lo = -G.γ := by linarith
    have := hedge hlo
    omega

/-- As long as the low part stays inside its interval, moving the residue moves only it. -/
theorem add (h : G.IsSplit r hi lo) (hge : -(G.γ : ℤ) < lo + t) (hle : lo + t ≤ G.γ) :
    G.IsSplit (r + (t : ZMod q)) hi (lo + t) where
  sum := by
    rw [← h.sum]
    push_cast
    ring
  hi_nonneg := h.hi_nonneg
  hi_lt := h.hi_lt
  lo_ge := hge.le
  lo_le := hle
  lo_edge hedge := absurd hedge hge.ne'

theorem add_of_abs_lt (h : G.IsSplit r hi lo) (ht : |lo + t| < G.γ) :
    G.IsSplit (r + (t : ZMod q)) hi (lo + t) :=
  h.add (abs_lt.mp ht).1 (abs_lt.mp ht).2.le

/-- Testing the moved low part and testing the low part of the moved residue are the same test. -/
theorem low_test_iff {β : ℤ} (h : G.IsSplit r hi lo) (h' : G.IsSplit (r + (t : ZMod q)) hi' lo')
    (ht : |t| ≤ β) : |lo + t| < G.γ - β ↔ |lo'| < G.γ - β := by
  have hβ : 0 ≤ β := (abs_nonneg t).trans ht
  constructor
  · intro hlo
    have hmoved := h.add_of_abs_lt (hlo.trans_le (by linarith))
    rw [(hmoved.unique h').2] at hlo
    exact hlo
  · intro hlo
    have hback : |lo' + -t| < G.γ := by
      have := abs_add_le lo' (-t)
      rw [abs_neg] at this
      linarith
    have hmoved := h'.add_of_abs_lt hback
    rw [Int.cast_neg, add_neg_cancel_right] at hmoved
    rw [(h.unique hmoved).2, neg_add_cancel_right]
    exact hlo

/-- A residue whose moved low part is small keeps its high part. -/
theorem eq_of_low_test {β : ℤ} (h : G.IsSplit r hi lo)
    (h' : G.IsSplit (r + (t : ZMod q)) hi' lo') (hβ : 0 ≤ β) (hlo : |lo + t| < G.γ - β) :
    hi = hi' ∧ lo + t = lo' :=
  (h.add_of_abs_lt (hlo.trans_le (by linarith))).unique h'

/-- The low part leaves its interval through the top: the next high part, or zero after the last. -/
theorem add_carry (h : G.IsSplit r hi lo) (hgt : G.γ < lo + t) (hlt : lo + t < 2 * G.γ) :
    ∃ lo', G.IsSplit (r + (t : ZMod q)) ((hi + 1) % G.m) lo' := by
  have hq : ((2 * G.γ * G.m + 1 : ℤ) : ZMod q) = 0 := by
    rw [← G.modulus_int, Int.cast_natCast, ZMod.natCast_self]
  have hm : (1 : ℤ) < G.m := by exact_mod_cast G.one_lt_m
  obtain ⟨hsum, h0, hlm, -, -, -⟩ := h
  by_cases hlast : hi + 1 < G.m
  · rw [Int.emod_eq_of_lt (by omega) hlast]
    refine ⟨lo + t - 2 * G.γ, ⟨?_, by omega, hlast, by omega, by omega, ?_⟩⟩
    · rw [← hsum]
      push_cast
      ring
    · intro hedge
      omega
  · have hhi : hi + 1 = G.m := by omega
    rw [hhi, Int.emod_self]
    refine ⟨lo + t - 2 * G.γ - 1, ⟨?_, le_rfl, by omega, by omega, by omega, ?_⟩⟩
    · rw [← hsum, eq_sub_of_add_eq hhi, ← sub_zero (_ + (t : ZMod q)), ← hq]
      push_cast
      ring
    · exact fun _ ↦ rfl

/-- The low part leaves its interval through the bottom: the high part below, or the last one
below zero. -/
theorem add_borrow (h : G.IsSplit r hi lo) (hgt : -(2 * G.γ : ℤ) < lo + t)
    (hlt : lo + t < -G.γ ∨ lo + t = -G.γ ∧ hi ≠ 0) :
    ∃ lo', G.IsSplit (r + (t : ZMod q)) ((hi - 1) % G.m) lo' := by
  have hq : ((2 * G.γ * G.m + 1 : ℤ) : ZMod q) = 0 := by
    rw [← G.modulus_int, Int.cast_natCast, ZMod.natCast_self]
  have hm : (1 : ℤ) < G.m := by exact_mod_cast G.one_lt_m
  obtain ⟨hsum, h0, hlm, -, -, -⟩ := h
  by_cases hfirst : hi = 0
  · have hlt' : lo + t < -G.γ := by
      rcases hlt with hlt | ⟨-, hne⟩
      · exact hlt
      · exact absurd hfirst hne
    have hlast : (hi - 1) % (G.m : ℤ) = G.m - 1 := by
      rw [hfirst, ← Int.add_emod_right, Int.emod_eq_of_lt (by omega) (by omega)]
      omega
    rw [hlast]
    refine ⟨lo + t + 2 * G.γ + 1, ⟨?_, by omega, by omega, by omega, by omega, ?_⟩⟩
    · rw [← hsum, hfirst, ← add_zero (_ + (t : ZMod q)), ← hq]
      push_cast
      ring
    · intro hedge
      omega
  · have hle : lo + t ≤ -G.γ := by
      rcases hlt with hlt | ⟨heq, -⟩
      · exact hlt.le
      · exact heq.le
    rw [Int.emod_eq_of_lt (by omega) (by omega)]
    refine ⟨lo + t + 2 * G.γ, ⟨?_, by omega, by omega, by omega, by omega, ?_⟩⟩
    · rw [← hsum]
      push_cast
      ring
    · intro hedge
      omega

/-- The neighbours of a high part are others. -/
theorem neighbour_ne (h : G.IsSplit r hi lo) : (hi + 1) % G.m ≠ hi ∧ (hi - 1) % G.m ≠ hi := by
  have hm : (1 : ℤ) < G.m := by exact_mod_cast G.one_lt_m
  have h0 := h.hi_nonneg
  have hlm := h.hi_lt
  refine ⟨fun heq ↦ ?_, fun heq ↦ ?_⟩
  · rcases eq_or_ne (hi + 1) G.m with hlast | hlast
    · rw [hlast, Int.emod_self] at heq
      omega
    · rw [Int.emod_eq_of_lt (by omega) (by omega)] at heq
      omega
  · rcases eq_or_ne hi 0 with rfl | hfirst
    · rw [← Int.add_emod_right, Int.emod_eq_of_lt (by omega) (by omega)] at heq
      omega
    · rw [Int.emod_eq_of_lt (by omega) (by omega)] at heq
      omega

/-- The high part changes exactly when the moved low part leaves the interval of its high part. -/
theorem high_ne_iff (h : G.IsSplit r hi lo) (h' : G.IsSplit (r + (t : ZMod q)) hi' lo')
    (ht : |lo + t| < 2 * G.γ) :
    hi' ≠ hi ↔ G.γ < lo + t ∨ lo + t < -G.γ ∨ lo + t = -G.γ ∧ hi ≠ 0 := by
  obtain ⟨hgt, hlt⟩ := abs_lt.mp ht
  constructor
  · intro hne
    by_contra hin
    push Not at hin
    obtain ⟨hle, hge, hedge⟩ := hin
    have hmoved : G.IsSplit (r + (t : ZMod q)) hi (lo + t) := by
      rcases hge.eq_or_lt with heq | hgt'
      · refine ⟨?_, h.hi_nonneg, h.hi_lt, hge, hle, fun _ ↦ hedge heq.symm⟩
        rw [← h.sum]
        push_cast
        ring
      · exact h.add hgt' hle
    exact hne (h'.unique hmoved).1
  · intro hout
    rcases hout with hup | hdown
    · obtain ⟨lo'', hsplit⟩ := h.add_carry hup hlt
      rw [(h'.unique hsplit).1]
      exact h.neighbour_ne.1
    · obtain ⟨lo'', hsplit⟩ := h.add_borrow hgt hdown
      rw [(h'.unique hsplit).1]
      exact h.neighbour_ne.2

/-- A high part that changes under a move of less than half an interval becomes the neighbour on the
side the low part leans to. -/
theorem high_eq_neighbour (h : G.IsSplit r hi lo) (h' : G.IsSplit (r + (t : ZMod q)) hi' lo')
    (ht : |t| < G.γ) (hne : hi' ≠ hi) :
    hi' = if 0 < lo then (hi + 1) % (G.m : ℤ) else (hi - 1) % G.m := by
  obtain ⟨hgt, hlt⟩ := abs_lt.mp ht
  have hge := h.lo_ge
  have hle := h.lo_le
  have hout := (h.high_ne_iff h' (abs_lt.mpr ⟨by omega, by omega⟩)).mp hne
  split
  next hpos =>
    obtain ⟨lo'', hsplit⟩ := h.add_carry (t := t) (by omega) (by omega)
    exact (h'.unique hsplit).1
  next hneg =>
    obtain ⟨lo'', hsplit⟩ := h.add_borrow (t := t) (by omega) (by omega)
    exact (h'.unique hsplit).1

end IsSplit

end Grid
