import Mathlib.Data.Nat.Init
import Mathlib.Logic.Function.Basic
import Mathlib.Data.List.Range

/-!
# Butterfly passes

An in-place transform works through an array in passes. A pass cuts the array into blocks of
`2 * len` entries and combines, in each block, every entry of the first half with the one `len`
further on. The parameters of the blocks come from a table, through an index that is advanced by
every block and goes on from pass to pass.

The steps of a pass touch disjoint pairs of entries, so that what a pass computes can be read off
entry by entry (`pass_apply`), whatever the order of the steps.
-/

namespace Butterfly

variable {α : Type*}

/-- The entries at `j` and at `j + len` are combined. -/
def step (op : α → α → α × α) (len : ℕ) (c : ℕ → α) (j : ℕ) : ℕ → α :=
  let r := op (c j) (c (j + len))
  Function.update (Function.update c (j + len) r.2) j r.1

/-- The steps of the block from `start` on. -/
def block (op : α → α → α × α) (len start : ℕ) (c : ℕ → α) : ℕ → α :=
  (List.range' start len).foldl (step op len) c

/-- A pass over `n` blocks; the first component of the state is the index in the table. -/
def pass (op : ℕ → α → α → α × α) (n len : ℕ) (s : ℕ × (ℕ → α)) : ℕ × (ℕ → α) :=
  (List.range n).foldl (fun s b ↦ (s.1 + 1, block (op (s.1 + 1)) len (2 * len * b) s.2)) s

variable {op : α → α → α × α} {len : ℕ}

theorem step_apply_low (c : ℕ → α) (j : ℕ) :
    step op len c j j = (op (c j) (c (j + len))).1 := Function.update_self ..

theorem step_apply_high (hlen : 0 < len) (c : ℕ → α) (j : ℕ) :
    step op len c j (j + len) = (op (c j) (c (j + len))).2 := by
  rw [step, Function.update_of_ne (by omega), Function.update_self]

theorem step_apply_of_ne (c : ℕ → α) {i j : ℕ} (hlow : i ≠ j) (hhigh : i ≠ j + len) :
    step op len c j i = c i := by
  rw [step, Function.update_of_ne hlow, Function.update_of_ne hhigh]

/-- The first `n` steps of a block. -/
theorem foldl_step_apply {n : ℕ} (hn : n ≤ len) (start : ℕ) (c : ℕ → α) (i : ℕ) :
    (List.range' start n).foldl (step op len) c i =
      if start ≤ i ∧ i < start + n then (op (c i) (c (i + len))).1
      else if start + len ≤ i ∧ i < start + len + n then (op (c (i - len)) (c i)).2
      else c i := by
  induction n generalizing i with
  | zero =>
    rw [List.range'_zero, List.foldl_nil, if_neg (by omega), if_neg (by omega)]
  | succ n ih =>
    have hlen : 0 < len := by omega
    rw [List.range'_1_concat, List.foldl_append, List.foldl_cons, List.foldl_nil]
    -- the last step reads entries that the ones before it have left alone
    have hread (k : ℕ) (hk : start + n ≤ k) (hk' : k < start + len ∨ start + len + n ≤ k) :
        (List.range' start n).foldl (step op len) c k = c k := by
      rw [ih (by omega), if_neg (by omega), if_neg (by omega)]
    have hlow := hread (start + n) le_rfl (.inl (by omega))
    have hhigh := hread (start + n + len) (by omega) (.inr (by omega))
    rcases eq_or_ne i (start + n) with rfl | hi
    · rw [step_apply_low, hlow, hhigh, if_pos (by omega)]
    rcases eq_or_ne i (start + n + len) with rfl | hi'
    · rw [step_apply_high hlen, hlow, hhigh, if_neg (by omega), if_pos (by omega),
        Nat.add_sub_cancel]
    rw [step_apply_of_ne _ hi hi', ih (by omega)]
    have h₁ : (start ≤ i ∧ i < start + n) ↔ start ≤ i ∧ i < start + (n + 1) := by omega
    have h₂ : (start + len ≤ i ∧ i < start + len + n) ↔
        start + len ≤ i ∧ i < start + len + (n + 1) := by omega
    simp only [h₁, h₂]

theorem block_apply (start : ℕ) (c : ℕ → α) (i : ℕ) :
    block op len start c i =
      if start ≤ i ∧ i < start + len then (op (c i) (c (i + len))).1
      else if start + len ≤ i ∧ i < start + 2 * len then (op (c (i - len)) (c i)).2
      else c i := by
  rw [block, foldl_step_apply le_rfl, Nat.add_assoc start len len, ← Nat.two_mul]

variable {op : ℕ → α → α → α × α}

theorem pass_fst (n : ℕ) (s : ℕ × (ℕ → α)) : (pass op n len s).1 = s.1 + n := by
  induction n with
  | zero => rfl
  | succ n ih =>
    rw [pass, List.range_succ, List.foldl_append, List.foldl_cons, List.foldl_nil, ← pass]
    exact congrArg (· + 1) ih

/-- What a pass leaves at each entry. -/
theorem pass_apply (hlen : 0 < len) (n : ℕ) (s : ℕ × (ℕ → α)) (i : ℕ) :
    (pass op n len s).2 i =
      if i < 2 * len * n then
        if i % (2 * len) < len then
          (op (s.1 + 1 + i / (2 * len)) (s.2 i) (s.2 (i + len))).1
        else (op (s.1 + 1 + i / (2 * len)) (s.2 (i - len)) (s.2 i)).2
      else s.2 i := by
  induction n generalizing i with
  | zero => rw [Nat.mul_zero, if_neg (Nat.not_lt_zero i)]; rfl
  | succ n ih =>
    have hsucc : (pass op (n + 1) len s).2 =
        block (op ((pass op n len s).1 + 1)) len (2 * len * n) (pass op n len s).2 := by
      rw [pass, List.range_succ, List.foldl_append, List.foldl_cons, List.foldl_nil, ← pass]
    have hmul : 2 * len * (n + 1) = 2 * len * n + 2 * len := Nat.mul_succ ..
    have hread (k : ℕ) (hk : 2 * len * n ≤ k) : (pass op n len s).2 k = s.2 k := by
      rw [ih, if_neg (by omega)]
    rw [hsucc, block_apply, pass_fst, hmul]
    rcases lt_or_ge i (2 * len * n) with hi | hi
    · rw [if_neg (by omega), if_neg (by omega), ih, if_pos hi,
        if_pos (show i < 2 * len * n + 2 * len by omega)]
    rw [hread i hi, hread (i + len) (by omega)]
    rcases lt_or_ge i (2 * len * n + 2 * len) with hi' | hi'
    · have hdiv : i / (2 * len) = n :=
        Nat.div_eq_of_lt_le (by rwa [Nat.mul_comm]) (by rwa [Nat.mul_comm, hmul])
      have hmod : i % (2 * len) = i - 2 * len * n := by
        rw [Nat.mod_def, hdiv]
      rw [if_pos hi', hdiv, hmod, Nat.add_right_comm s.1 1 n]
      rcases lt_or_ge i (2 * len * n + len) with hlow | hhigh
      · rw [if_pos ⟨hi, hlow⟩, if_pos (by omega)]
      · rw [if_neg (by omega), if_pos ⟨hhigh, hi'⟩, if_neg (by omega), hread _ (by omega)]
    · rw [if_neg (by omega), if_neg (by omega), if_neg (by omega)]

/-- Two passes side by side: what one step takes over from its pair of entries, a pass takes over
from the array. -/
theorem pass_rel {β : Type*} {P Q : α → β → Prop} {op' : ℕ → β → β → β × β} (hlen : 0 < len)
    {n : ℕ} {s : ℕ × (ℕ → α)} {t : ℕ × (ℕ → β)} (hindex : s.1 = t.1)
    (hop : ∀ k, s.1 < k → k ≤ s.1 + n → ∀ u v u' v', P u u' → P v v' →
      Q (op k u v).1 (op' k u' v').1 ∧ Q (op k u v).2 (op' k u' v').2)
    (hP : ∀ i < 2 * len * n, P (s.2 i) (t.2 i)) :
    ∀ i < 2 * len * n, Q ((pass op n len s).2 i) ((pass op' n len t).2 i) := by
  intro i hi
  have hblock : i / (2 * len) < n := by
    rwa [Nat.div_lt_iff_lt_mul (by omega), Nat.mul_comm]
  have hend : 2 * len * (i / (2 * len) + 1) ≤ 2 * len * n := Nat.mul_le_mul_left _ hblock
  have hsum := Nat.div_add_mod i (2 * len)
  rw [Nat.mul_succ] at hend
  rw [pass_apply hlen, pass_apply hlen, if_pos hi, if_pos hi, ← hindex]
  have hstep := hop (s.1 + 1 + i / (2 * len)) (Nat.lt_add_right _ s.1.lt_succ_self) (by omega)
  split
  · exact (hstep _ _ _ _ (hP i hi) (hP (i + len) (by omega))).1
  · exact (hstep _ _ _ _ (hP (i - len) (by omega)) (hP i hi)).2

end Butterfly
