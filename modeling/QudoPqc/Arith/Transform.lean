import QudoPqc.Arith.Butterfly
import QudoPqc.Arith.Negacyclic
import Mathlib.Algebra.Ring.GeomSum
import Mathlib.Tactic.LinearCombination

/-!
# Number-theoretic transforms

A transform of `n = 2 ^ K` coefficients works in layers. Before the layer of depth `d` the array
holds `2 ^ d` blocks, and each block is the residue of the polynomial modulo some `X ^ len - γ`. The
layer takes a square root `z` of each `γ` and splits the residue into one modulo `X ^ h - z` and one
modulo `X ^ h + z`, where `h` is half of `len`.

The roots sit in one table in the order of a binary heap: the block `b` of depth `d` has the index
`2 ^ d + b`, and what it splits into has twice that index, and one more. So a table is good for a
transform if the square of each entry is what the entry above it hands down (`node`), which is the
only thing asked of it.

A transform may stop before the last layer. `residues_forward` says what the blocks are at every
depth; `forward_negacyclic` is its consequence for a transform that goes to the end, where every
block is a single value and products are taken entry by entry.
-/

open Polynomial Finset

namespace Transform

variable {R : Type*} [CommRing R]

/-! ## Layers -/

/-- The butterfly of the transform. -/
def split (z u v : R) : R × R := (u + z * v, u - z * v)

/-- The butterfly of the inverse. -/
def merge (z u v : R) : R × R := (u + v, z * (u - v))

/-- The layer of depth `d`, which leaves blocks of `len` entries. -/
def layer (z : ℕ → R) (d len : ℕ) (c : ℕ → R) : ℕ → R :=
  (Butterfly.pass (fun k ↦ split (z k)) (2 ^ d) len (2 ^ d - 1, c)).2

/-- The layer of depth `d` of the inverse, which takes blocks of `len` entries; the factor of the
block `b` is `y (b + 1)`. -/
def unlayer (y : ℕ → R) (d len : ℕ) (c : ℕ → R) : ℕ → R :=
  (Butterfly.pass (fun k ↦ merge (y k)) (2 ^ d) len (0, c)).2

/-- The first `d` layers on `2 ^ K` entries. -/
def forward (z : ℕ → R) (K : ℕ) : ℕ → (ℕ → R) → ℕ → R
  | 0, c => c
  | d + 1, c => layer z d (2 ^ (K - (d + 1))) (forward z K d c)

/-- The layers of depth below `d` of the inverse, from the deepest on. -/
def backward (y : ℕ → ℕ → R) (K : ℕ) : ℕ → (ℕ → R) → ℕ → R
  | 0, c => c
  | d + 1, c => backward y K d (unlayer (y d) d (2 ^ (K - (d + 1))) c)

section Entries

variable {z : ℕ → R} {y : ℕ → R} {d len b j : ℕ} (c : ℕ → R)

theorem block_div (hlen : 0 < len) (hj : j < len) {e : ℕ} (he : e < 2) :
    ((2 * b + e) * len + j) / (2 * len) = b ∧
      ((2 * b + e) * len + j) % (2 * len) = e * len + j := by
  have hsum : (2 * b + e) * len + j = e * len + j + 2 * len * b := by ring
  have hlt : e * len + j < 2 * len := by
    have hle : e * len ≤ 1 * len := Nat.mul_le_mul_right _ (by omega)
    omega
  rw [hsum, Nat.add_mul_div_left _ _ (by omega), Nat.add_mul_mod_self_left,
    Nat.div_eq_of_lt hlt, Nat.mod_eq_of_lt hlt, Nat.zero_add]
  exact ⟨rfl, rfl⟩

theorem block_lt (hb : b < 2 ^ d) (hj : j < len) {e : ℕ} (he : e < 2) :
    (2 * b + e) * len + j < 2 * len * 2 ^ d := by
  have hle : 2 * len * (b + 1) ≤ 2 * len * 2 ^ d := Nat.mul_le_mul_left _ hb
  have hsum : (2 * b + e) * len + j = e * len + j + 2 * len * b := by ring
  have hle' : e * len ≤ 1 * len := Nat.mul_le_mul_right _ (by omega)
  rw [Nat.mul_succ] at hle
  omega

theorem layer_low (hb : b < 2 ^ d) (hj : j < len) :
    layer z d len c (2 * b * len + j) =
      c (b * (2 * len) + j) + z (2 ^ d + b) * c (b * (2 * len) + (len + j)) := by
  have hpow : 0 < 2 ^ d := Nat.two_pow_pos d
  obtain ⟨hdiv, hmod⟩ := block_div (b := b) (by omega) hj (show 0 < 2 by decide)
  have hlt := block_lt hb hj (show 0 < 2 by decide)
  rw [Nat.zero_mul, Nat.zero_add] at hmod
  rw [Nat.add_zero] at hdiv hmod hlt
  rw [layer, Butterfly.pass_apply (by omega), if_pos hlt, hmod, if_pos hj, hdiv,
    Nat.sub_add_cancel hpow, split]
  rw [show 2 * b * len + j = b * (2 * len) + j by ring, Nat.add_assoc _ j len, Nat.add_comm j len]

theorem layer_high (hb : b < 2 ^ d) (hj : j < len) :
    layer z d len c ((2 * b + 1) * len + j) =
      c (b * (2 * len) + j) - z (2 ^ d + b) * c (b * (2 * len) + (len + j)) := by
  have hpow : 0 < 2 ^ d := Nat.two_pow_pos d
  obtain ⟨hdiv, hmod⟩ := block_div (b := b) (by omega) hj (show 1 < 2 by decide)
  have hlt := block_lt hb hj (show 1 < 2 by decide)
  have hlow : (2 * b + 1) * len + j - len = b * (2 * len) + j := by
    rw [show (2 * b + 1) * len + j = b * (2 * len) + j + len by ring, Nat.add_sub_cancel]
  rw [layer, Butterfly.pass_apply (by omega), if_pos hlt, hmod, if_neg (by omega), hdiv,
    Nat.sub_add_cancel hpow, hlow, split]
  rw [show (2 * b + 1) * len + j = b * (2 * len) + (len + j) by ring]

theorem unlayer_low (hb : b < 2 ^ d) (hj : j < len) :
    unlayer y d len c (b * (2 * len) + j) =
      c (2 * b * len + j) + c ((2 * b + 1) * len + j) := by
  obtain ⟨hdiv, hmod⟩ := block_div (b := b) (by omega) hj (show 0 < 2 by decide)
  have hlt := block_lt hb hj (show 0 < 2 by decide)
  rw [Nat.zero_mul, Nat.zero_add] at hmod
  rw [Nat.add_zero] at hdiv hmod hlt
  rw [show b * (2 * len) + j = 2 * b * len + j by ring, unlayer, Butterfly.pass_apply (by omega),
    if_pos hlt, hmod, if_pos hj, merge]
  rw [show 2 * b * len + j + len = (2 * b + 1) * len + j by ring]

theorem unlayer_high (hb : b < 2 ^ d) (hj : j < len) :
    unlayer y d len c (b * (2 * len) + (len + j)) =
      y (b + 1) * (c (2 * b * len + j) - c ((2 * b + 1) * len + j)) := by
  obtain ⟨hdiv, hmod⟩ := block_div (b := b) (by omega) hj (show 1 < 2 by decide)
  have hlt := block_lt hb hj (show 1 < 2 by decide)
  have hlow : (2 * b + 1) * len + j - len = 2 * b * len + j := by
    rw [show (2 * b + 1) * len + j = 2 * b * len + j + len by ring, Nat.add_sub_cancel]
  rw [show b * (2 * len) + (len + j) = (2 * b + 1) * len + j by ring, unlayer,
    Butterfly.pass_apply (by omega), if_pos hlt, hmod, if_neg (by omega), hdiv, hlow, merge,
    Nat.zero_add, Nat.add_comm 1 b]

end Entries

/-- Every entry is in one of the halves of a block. -/
theorem exists_block {d len i : ℕ} (hi : i < 2 ^ d * (2 * len)) :
    ∃ b < 2 ^ d, ∃ j < len, i = b * (2 * len) + j ∨ i = b * (2 * len) + (len + j) := by
  have hlen : 0 < 2 * len := Nat.pos_of_ne_zero fun h ↦ by rw [h] at hi; omega
  have hmod := Nat.mod_lt i hlen
  have hsum : i = i / (2 * len) * (2 * len) + i % (2 * len) := (Nat.div_add_mod' i (2 * len)).symm
  refine ⟨i / (2 * len), (Nat.div_lt_iff_lt_mul hlen).mpr hi, ?_⟩
  rcases lt_or_ge (i % (2 * len)) len with h | h
  · exact ⟨i % (2 * len), h, .inl hsum⟩
  · refine ⟨i % (2 * len) - len, by omega, .inr ?_⟩
    rwa [Nat.add_sub_cancel' h]

/-! ## There and back -/

section Inverse

variable {z : ℕ → R} {d len : ℕ} {c c' : ℕ → R}

/-- A layer of the inverse undoes the layer up to a factor of two. -/
theorem unlayer_layer {y : ℕ → R} (hy : ∀ b < 2 ^ d, y (b + 1) * z (2 ^ d + b) = 1) {i : ℕ}
    (hi : i < 2 ^ d * (2 * len)) : unlayer y d len (layer z d len c) i = 2 * c i := by
  obtain ⟨b, hb, j, hj, rfl | rfl⟩ := exists_block hi
  · rw [unlayer_low _ hb hj, layer_low _ hb hj, layer_high _ hb hj]
    ring
  · rw [unlayer_high _ hb hj, layer_low _ hb hj, layer_high _ hb hj]
    linear_combination (2 * c (b * (2 * len) + (len + j))) * hy b hb

theorem unlayer_congr {y : ℕ → R} (h : ∀ i < 2 ^ d * (2 * len), c i = c' i) {i : ℕ}
    (hi : i < 2 ^ d * (2 * len)) : unlayer y d len c i = unlayer y d len c' i := by
  obtain ⟨b, hb, j, hj, hij⟩ := exists_block hi
  have hlow := block_lt hb hj (show 0 < 2 by decide)
  have hhigh := block_lt hb hj (show 1 < 2 by decide)
  rw [Nat.mul_comm (2 * len)] at hlow hhigh
  have h₀ := h _ hlow
  have h₁ := h _ hhigh
  rw [Nat.add_zero] at h₀
  rcases hij with rfl | rfl
  · rw [unlayer_low _ hb hj, unlayer_low _ hb hj, h₀, h₁]
  · rw [unlayer_high _ hb hj, unlayer_high _ hb hj, h₀, h₁]

theorem unlayer_smul {y : ℕ → R} (s : R) {i : ℕ} (hi : i < 2 ^ d * (2 * len)) :
    unlayer y d len (fun i ↦ s * c i) i = s * unlayer y d len c i := by
  obtain ⟨b, hb, j, hj, rfl | rfl⟩ := exists_block hi
  · rw [unlayer_low _ hb hj, unlayer_low _ hb hj, mul_add]
  · rw [unlayer_high _ hb hj, unlayer_high _ hb hj]
    ring

variable {y : ℕ → ℕ → R} {K : ℕ}

/-- The blocks before and after a layer cover the array. -/
theorem pow_eq_blocks (hd : d < K) : 2 ^ d * (2 * 2 ^ (K - (d + 1))) = 2 ^ K := by
  rw [← pow_succ', ← pow_add]
  congr 1
  omega

theorem backward_congr (hd : d ≤ K) (h : ∀ i < 2 ^ K, c i = c' i) :
    ∀ i < 2 ^ K, backward y K d c i = backward y K d c' i := by
  induction d generalizing c c' with
  | zero => exact h
  | succ d ih =>
    rw [← pow_eq_blocks hd] at h
    refine ih (by omega) fun i hi ↦ unlayer_congr h ?_
    rwa [pow_eq_blocks hd]

theorem backward_smul (hd : d ≤ K) (s : R) :
    ∀ i < 2 ^ K, backward y K d (fun i ↦ s * c i) i = s * backward y K d c i := by
  induction d generalizing c with
  | zero => exact fun _ _ ↦ rfl
  | succ d ih =>
    intro i hi
    rw [backward, backward, ← ih (by omega) i hi]
    refine backward_congr (by omega) (fun i hi ↦ unlayer_smul s ?_) i hi
    rwa [pow_eq_blocks hd]

/-- The inverse gives the coefficients back, up to the number of blocks. -/
theorem backward_forward (hd : d ≤ K)
    (hy : ∀ e < d, ∀ b < 2 ^ e, y e (b + 1) * z (2 ^ e + b) = 1) :
    ∀ i < 2 ^ K, backward y K d (forward z K d c) i = 2 ^ d * c i := by
  induction d with
  | zero => exact fun i _ ↦ by rw [backward, forward, pow_zero, one_mul]
  | succ d ih =>
    intro i hi
    rw [backward, forward]
    have hlayer : ∀ i < 2 ^ K, unlayer (y d) d (2 ^ (K - (d + 1)))
        (layer z d (2 ^ (K - (d + 1))) (forward z K d c)) i = 2 * forward z K d c i := by
      intro i hi
      refine unlayer_layer (hy d (by omega)) ?_
      rwa [pow_eq_blocks hd]
    rw [backward_congr (by omega) hlayer i hi, backward_smul (by omega) 2 i hi,
      ih (by omega) (fun e he ↦ hy e (by omega)) i hi, pow_succ']
    ring

end Inverse

/-! ## Residues -/

/-- What the root `γ` of a block is, by the index of the block: the root of the whole is `-1`, and a
block hands `z` and `-z` down to its halves. -/
def node (z : ℕ → R) (k : ℕ) : R :=
  if k = 1 then -1 else if k % 2 = 0 then z (k / 2) else -z (k / 2)

/-- The table has a square root of the root of every block of depth below `d`. -/
def IsTable (z : ℕ → R) (d : ℕ) : Prop := ∀ k, 1 ≤ k → k < 2 ^ d → z k ^ 2 = node z k

/-- The polynomial of the `len` entries from `s` on. -/
noncomputable def chunk (c : ℕ → R) (s len : ℕ) : R[X] := ∑ j ∈ range len, C (c (s + j)) * X ^ j

/-- The blocks of depth `d` are the residues of the polynomial `p`. -/
def Residues (z : ℕ → R) (p : R[X]) (d len : ℕ) (c : ℕ → R) : Prop :=
  ∀ b < 2 ^ d, X ^ len - C (node z (2 ^ d + b)) ∣ p - chunk c (b * len) len

section Residues

variable {z : ℕ → R} {p : R[X]} {d len K : ℕ} {c : ℕ → R}

theorem node_low {b : ℕ} : node z (2 ^ (d + 1) + 2 * b) = z (2 ^ d + b) := by
  have hpow : 0 < 2 ^ d := Nat.two_pow_pos d
  rw [show 2 ^ (d + 1) + 2 * b = 2 * (2 ^ d + b) by ring, node, if_neg (by omega),
    if_pos (by omega), Nat.mul_div_cancel_left _ two_pos]

theorem node_high {b : ℕ} : node z (2 ^ (d + 1) + (2 * b + 1)) = -z (2 ^ d + b) := by
  have hpow : 0 < 2 ^ d := Nat.two_pow_pos d
  rw [show 2 ^ (d + 1) + (2 * b + 1) = 2 * (2 ^ d + b) + 1 by ring, node, if_neg (by omega),
    if_neg (by omega)]
  congr 2
  omega

/-- A block of twice the length, as its halves. -/
theorem chunk_two_mul (c : ℕ → R) (s len : ℕ) :
    chunk c s (2 * len) = chunk c s len + X ^ len * chunk c (s + len) len := by
  rw [chunk, two_mul, sum_range_add, chunk, chunk, mul_sum]
  congr 1
  refine sum_congr rfl fun j _ ↦ ?_
  rw [pow_add, Nat.add_assoc]
  ring

/-- A block of a layer: the halves before it, combined. -/
theorem chunk_layer (z : ℕ → R) (len : ℕ) (c : ℕ → R) {b : ℕ} (hb : b < 2 ^ d) :
    chunk (layer z d len c) (2 * b * len) len =
        chunk c (b * (2 * len)) len +
          C (z (2 ^ d + b)) * chunk c (b * (2 * len) + len) len ∧
      chunk (layer z d len c) ((2 * b + 1) * len) len =
        chunk c (b * (2 * len)) len -
          C (z (2 ^ d + b)) * chunk c (b * (2 * len) + len) len := by
  constructor
  · rw [chunk, chunk, chunk, mul_sum, ← sum_add_distrib]
    refine sum_congr rfl fun j hj ↦ ?_
    rw [layer_low _ hb (mem_range.mp hj), C_add, C_mul, Nat.add_assoc]
    ring
  · rw [chunk, chunk, chunk, mul_sum, ← sum_sub_distrib]
    refine sum_congr rfl fun j hj ↦ ?_
    rw [layer_high _ hb (mem_range.mp hj), C_sub, C_mul, Nat.add_assoc]
    ring

/-- A residue modulo `X ^ (2 * len) - z ^ 2`, as one modulo a factor. -/
theorem dvd_of_dvd_sq {a₀ a₁ : R[X]} {r : R}
    (h : X ^ (2 * len) - C (r ^ 2) ∣ p - (a₀ + X ^ len * a₁)) :
    X ^ len - C r ∣ p - (a₀ + C r * a₁) := by
  have hfactor : (X ^ (2 * len) - C (r ^ 2) : R[X]) = (X ^ len - C r) * (X ^ len + C r) := by
    rw [C_pow, pow_mul']
    ring
  have hdvd := (hfactor ▸ Dvd.intro _ rfl : X ^ len - C r ∣ X ^ (2 * len) - C (r ^ 2)).trans h
  have hrest : X ^ len - C r ∣ (X ^ len - C r) * a₁ := Dvd.intro _ rfl
  have hsum := dvd_add hdvd hrest
  rwa [show p - (a₀ + X ^ len * a₁) + (X ^ len - C r) * a₁ = p - (a₀ + C r * a₁) by ring] at hsum

/-- A layer takes residues to residues. -/
theorem Residues.layer (hz : IsTable z (d + 1)) (h : Residues z p d (2 * len) c) :
    Residues z p (d + 1) len (layer z d len c) := by
  intro b hb
  obtain ⟨k, hk⟩ := Nat.even_or_odd' b
  have hlt : k < 2 ^ d := by
    rw [pow_succ] at hb
    omega
  have hpow : 0 < 2 ^ d := Nat.two_pow_pos d
  have hsq : z (2 ^ d + k) ^ 2 = node z (2 ^ d + k) :=
    hz _ (by omega) (by rw [pow_succ]; omega)
  have hblock := h k hlt
  rw [← hsq, chunk_two_mul] at hblock
  obtain ⟨hlow, hhigh⟩ := chunk_layer z len c hlt
  rcases hk with rfl | rfl
  · rw [hlow, node_low]
    exact dvd_of_dvd_sq hblock
  · rw [← neg_sq (z _)] at hblock
    rw [hhigh, node_high, sub_eq_add_neg (chunk _ _ _), ← neg_mul, ← C_neg]
    exact dvd_of_dvd_sq hblock

/-- What the first `d` layers leave. -/
theorem residues_forward (hd : d ≤ K) (hz : IsTable z d) (a : ℕ → R) :
    Residues z (chunk a 0 (2 ^ K)) d (2 ^ (K - d)) (forward z K d a) := by
  induction d with
  | zero =>
    intro b hb
    obtain rfl : b = 0 := by omega
    rw [Nat.zero_mul, forward, Nat.sub_zero, sub_self]
    exact dvd_zero _
  | succ d ih =>
    have hz' : IsTable z d := fun k h1 hlt ↦
      hz k h1 (hlt.trans_le (Nat.pow_le_pow_right two_pos (Nat.le_succ d)))
    have hlen : 2 ^ (K - d) = 2 * 2 ^ (K - (d + 1)) := by
      rw [← pow_succ']
      congr 1
      omega
    have hres := ih (by omega) hz'
    rw [hlen] at hres
    exact hres.layer hz

/-- The root of a block is a root of `-1`. -/
theorem node_pow (hz : IsTable z d) {b : ℕ} (hb : b < 2 ^ d) : node z (2 ^ d + b) ^ 2 ^ d = -1 := by
  induction d generalizing b with
  | zero =>
    obtain rfl : b = 0 := by omega
    rw [node, if_pos (by decide), pow_zero, pow_one]
  | succ d ih =>
    obtain ⟨k, hk⟩ := Nat.even_or_odd' b
    have hlt : k < 2 ^ d := by
      rw [pow_succ] at hb
      omega
    have hpow : 0 < 2 ^ d := Nat.two_pow_pos d
    have hsq : node z (2 ^ (d + 1) + b) ^ 2 = z (2 ^ d + k) ^ 2 := by
      rcases hk with rfl | rfl
      · rw [node_low]
      · rw [node_high, neg_sq]
    have hexp : node z (2 ^ (d + 1) + b) ^ 2 ^ (d + 1) =
        (node z (2 ^ (d + 1) + b) ^ 2) ^ 2 ^ d := by
      rw [← pow_mul, ← pow_succ']
    rw [hexp, hsq, hz _ (by omega) (by rw [pow_succ]; omega)]
    refine ih (fun k h1 hlt ↦ hz k h1 (hlt.trans_le ?_)) hlt
    exact Nat.pow_le_pow_right two_pos (Nat.le_succ d)

/-- The moduli of the blocks divide that of the whole. -/
theorem modulus_dvd (hd : d ≤ K) (hz : IsTable z d) {b : ℕ} (hb : b < 2 ^ d) :
    X ^ 2 ^ (K - d) - C (node z (2 ^ d + b)) ∣ (X ^ 2 ^ K + 1 : R[X]) := by
  have h := sub_dvd_pow_sub_pow (X ^ 2 ^ (K - d) : R[X]) (C (node z (2 ^ d + b))) (2 ^ d)
  rw [← C_pow, node_pow hz hb, C_neg, C_1, sub_neg_eq_add, ← pow_mul, ← pow_add,
    Nat.sub_add_cancel hd] at h
  exact h

end Residues

/-! ## Products -/

/-- Coefficients as an array, with zeros past the end. -/
def extend {α : Type*} [Zero α] {n : ℕ} (a : Fin n → α) (j : ℕ) : α :=
  if h : j < n then a ⟨j, h⟩ else 0

section Extend

variable {α : Type*} [Zero α] {n : ℕ} (a : Fin n → α)

@[simp] theorem extend_coe (j : Fin n) : extend a j = a j := dif_pos j.isLt

theorem extend_of_lt {j : ℕ} (hj : j < n) : extend a j = a ⟨j, hj⟩ := dif_pos hj

end Extend

section Products

variable {n K d : ℕ} {z : ℕ → R} {y : ℕ → ℕ → R}

theorem chunk_extend (a : Fin n → R) : chunk (extend a) 0 n = ∑ i, C (a i) * X ^ (i : ℕ) := by
  rw [chunk, Finset.sum_range]
  refine sum_congr rfl fun i _ ↦ ?_
  rw [Nat.zero_add, extend_coe]

/-- `negacyclic` is the product modulo `X ^ n + 1`. -/
theorem dvd_mul_sub_negacyclic (a b : Fin n → R) :
    (X ^ n + 1 : R[X]) ∣ chunk (extend a) 0 n * chunk (extend b) 0 n -
      chunk (extend (negacyclic a b)) 0 n := by
  have hmk : ∀ c : Fin n → R,
      Negacyclic.toAdjoinRoot c = AdjoinRoot.mk _ (chunk (extend c) 0 n) := by
    intro c
    rw [chunk_extend, Negacyclic.toAdjoinRoot, map_sum]
    refine sum_congr rfl fun i _ ↦ ?_
    rw [map_mul, map_pow, AdjoinRoot.mk_C, AdjoinRoot.mk_X]
  have h := Negacyclic.adjoinRoot_negacyclic a b
  rw [hmk, hmk, hmk, ← map_mul] at h
  exact AdjoinRoot.mk_eq_mk.mp h.symm

/-- The blocks of a product are the products of the blocks, modulo their moduli. -/
theorem dvd_mul_sub_forward (hn : n = 2 ^ K) (hd : d ≤ K) (hz : IsTable z d) (a b : Fin n → R)
    {k : ℕ} (hk : k < 2 ^ d) :
    X ^ 2 ^ (K - d) - C (node z (2 ^ d + k)) ∣
      chunk (forward z K d (extend a)) (k * 2 ^ (K - d)) (2 ^ (K - d)) *
          chunk (forward z K d (extend b)) (k * 2 ^ (K - d)) (2 ^ (K - d)) -
        chunk (forward z K d (extend (negacyclic a b))) (k * 2 ^ (K - d)) (2 ^ (K - d)) := by
  subst hn
  have ha := residues_forward hd hz (extend a) k hk
  have hb := residues_forward hd hz (extend b) k hk
  have hab := residues_forward hd hz (extend (negacyclic a b)) k hk
  have hmod := (modulus_dvd hd hz hk).trans (dvd_mul_sub_negacyclic a b)
  generalize X ^ 2 ^ (K - d) - C (node z (2 ^ d + k)) = M at ha hb hab hmod ⊢
  have hprod := dvd_sub (dvd_add hmod hab)
    (dvd_add (ha.mul_right (chunk (extend b) 0 (2 ^ K)))
      (hb.mul_left (chunk (forward z K d (extend a)) (k * 2 ^ (K - d)) (2 ^ (K - d)))))
  refine hprod.trans (dvd_of_eq ?_)
  ring

/-- A transform that goes to the end takes products to products of entries. -/
theorem forward_negacyclic (hn : n = 2 ^ K) (hz : IsTable z K) (a b : Fin n → R) {i : ℕ}
    (hi : i < n) :
    forward z K K (extend (negacyclic a b)) i =
      forward z K K (extend a) i * forward z K K (extend b) i := by
  have h := dvd_mul_sub_forward hn le_rfl hz a b (hn ▸ hi)
  rw [Nat.sub_self, pow_zero, Nat.mul_one, pow_one] at h
  have hone : ∀ c : ℕ → R, chunk c i 1 = C (c i) := fun c ↦ by
    rw [chunk, sum_range_one, pow_zero, mul_one, Nat.add_zero]
  rw [hone, hone, hone, ← C_mul, ← C_sub, dvd_iff_isRoot, IsRoot, eval_C] at h
  exact (sub_eq_zero.mp h).symm

theorem unlayer_sum {ι : Type*} (s : Finset ι) {y : ℕ → R} {len : ℕ} (c : ι → ℕ → R) {i : ℕ}
    (hi : i < 2 ^ d * (2 * len)) :
    unlayer y d len (fun i ↦ ∑ k ∈ s, c k i) i = ∑ k ∈ s, unlayer y d len (c k) i := by
  obtain ⟨b, hb, j, hj, rfl | rfl⟩ := exists_block hi
  · rw [unlayer_low _ hb hj, ← sum_add_distrib]
    exact sum_congr rfl fun k _ ↦ (unlayer_low _ hb hj).symm
  · rw [unlayer_high _ hb hj, ← sum_sub_distrib, mul_sum]
    exact sum_congr rfl fun k _ ↦ (unlayer_high _ hb hj).symm

theorem backward_sum {ι : Type*} (s : Finset ι) (hd : d ≤ K) (c : ι → ℕ → R) :
    ∀ i < 2 ^ K, backward y K d (fun i ↦ ∑ k ∈ s, c k i) i = ∑ k ∈ s, backward y K d (c k) i := by
  induction d generalizing c with
  | zero => exact fun _ _ ↦ rfl
  | succ d ih =>
    intro i hi
    simp only [backward]
    rw [← ih (by omega) _ i hi]
    refine backward_congr (by omega) (fun i hi ↦ unlayer_sum s c ?_) i hi
    rwa [pow_eq_blocks hd]

end Products

end Transform
