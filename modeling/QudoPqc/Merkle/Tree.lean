import Mathlib.Data.List.Basic
import Mathlib.Data.Nat.Bitwise

/-!
# Hash trees

A binary tree over the leaves `leaf 0, leaf 1, …`: the node of height `z + 1` and index `i` joins
the nodes `2 * i` and `2 * i + 1` of height `z`. The joining function also takes the height and the
index of the new node, so that a node may depend on where it is.

* `climb` goes from a leaf up to the root with the sibling at every height, and `climb_eq_node` says
  that it gets there.
* `sweep` is the algorithm with a stack: every new leaf is joined with the nodes on the stack as
long as these are left siblings (`merge`). `frontier` is what is on the stack after some leaves, one
node for every bit of their number, and after all leaves only the root is left (`holds_sweep`). How
the stack is kept is left open (`Stack`).
-/

namespace Merkle

variable {α : Type*} (leaf : ℕ → α) (join : ℕ → ℕ → α → α → α)

/-- The node of a height and an index. -/
def node : ℕ → ℕ → α
  | 0, i => leaf i
  | z + 1, i => join (z + 1) i (node z (2 * i)) (node z (2 * i + 1))

/-! ## Paths -/

/-- From the leaf `idx` up by `z`, with the value `x` there and `auth j` as the sibling of height
`j`. -/
def climb (idx : ℕ) (auth : ℕ → α) : ℕ → α → α
  | 0, x => x
  | z + 1, x =>
    if (idx >>> z) % 2 = 0 then join (z + 1) (idx >>> (z + 1)) (climb idx auth z x) (auth z)
    else join (z + 1) (idx >>> (z + 1)) (auth z) (climb idx auth z x)

variable {leaf join}

/-- With the siblings of the tree, the way up from a leaf leads through the nodes above it. -/
theorem climb_eq_node {idx z : ℕ} {auth : ℕ → α}
    (h : ∀ j < z, auth j = node leaf join j ((idx >>> j) ^^^ 1)) :
    climb join idx auth z (leaf idx) = node leaf join z (idx >>> z) := by
  induction z with
  | zero => rfl
  | succ z ih =>
    have hnode := ih fun j hj ↦ h j (by omega)
    have hhalf : idx >>> (z + 1) = (idx >>> z) / 2 := Nat.shiftRight_succ idx z
    rw [climb, hnode, h z (by omega), node, hhalf]
    rcases Nat.mod_two_eq_zero_or_one (idx >>> z) with heven | hodd
    · have hleft : 2 * ((idx >>> z) / 2) = idx >>> z := by omega
      rw [if_pos heven, Nat.xor_one_of_even (Nat.even_iff.mpr heven), hleft]
    · have hleft : 2 * ((idx >>> z) / 2) = idx >>> z - 1 := by omega
      have hright : idx >>> z - 1 + 1 = idx >>> z := by omega
      rw [if_neg (by omega), Nat.xor_one_of_odd (Nat.odd_iff.mpr hodd), hleft, hright]

/-! ## The algorithm with a stack -/

/-- A way to keep a stack of at most `cap` nodes: `Holds` says which nodes are on it, the last one
first, and the operations are a push, a look at the two nodes on top, the lower one first, and a
replacement of both by one. -/
structure Stack (α S : Type*) where
  cap : ℕ
  push : S → α → S
  operands : S → α × α
  replace : S → α → S
  Holds : S → List α → Prop
  holds_push : ∀ {s nodes}, Holds s nodes → nodes.length < cap → ∀ x, Holds (push s x) (x :: nodes)
  operands_eq : ∀ {s nodes l r}, Holds s (r :: l :: nodes) → operands s = (l, r)
  holds_replace : ∀ {s nodes l r}, Holds s (r :: l :: nodes) → ∀ x, Holds (replace s x) (x :: nodes)

variable {S : Type*} (K : Stack α S) (leaf join)

/-- Join the node on top with what is below it, from height `k` on, for every one at the low end of
`j >>> k`; `i` is the last leaf. -/
def merge (i j : ℕ) : (fuel k : ℕ) → S → S
  | 0, _, s => s
  | fuel + 1, k, s =>
    if (j >>> k) % 2 = 1 then
      merge i j fuel (k + 1)
        (K.replace s (join (k + 1) (i >>> (k + 1)) (K.operands s).1 (K.operands s).2))
    else s

/-- The stack after `j` leaves below the node `i` of height `z`. -/
def sweep (fuel i z : ℕ) (start : S) : ℕ → S
  | 0 => start
  | j + 1 => merge join K (i * 2 ^ z + j) j fuel 0
      (K.push (sweep fuel i z start j) (leaf (i * 2 ^ z + j)))

/-- The nodes on the stack below the node `i` of height `h + r` when `j` of its nodes of height `h`
are done: the largest complete subtrees, the last one on top. -/
def frontier (i : ℕ) : (r h j : ℕ) → List α
  | 0, h, j => if j = 0 then [] else [node leaf join h i]
  | r + 1, h, j =>
    (if j % 2 = 1 then [node leaf join h (i * 2 ^ (r + 1) + (j - 1))] else []) ++
      frontier i r (h + 1) (j / 2)

variable {leaf join K}

theorem frontier_zero (i r h : ℕ) : frontier leaf join i r h 0 = [] := by
  induction r generalizing h with
  | zero => rfl
  | succ r ih => rw [frontier, if_neg (by omega), Nat.zero_div, ih, List.nil_append]

/-- When all nodes are done, the root is. -/
theorem frontier_pow (i r h : ℕ) : frontier leaf join i r h (2 ^ r) =
    [node leaf join (h + r) i] := by
  induction r generalizing h with
  | zero => rfl
  | succ r ih =>
    have hhalf : 2 ^ (r + 1) / 2 = 2 ^ r := by omega
    rw [frontier, if_neg (by omega), hhalf, ih, List.nil_append]
    congr 2
    omega

theorem length_frontier_le {r j : ℕ} (hj : j < 2 ^ r) (i h : ℕ) :
    (frontier leaf join i r h j).length ≤ r := by
  induction r generalizing h j with
  | zero =>
    obtain rfl : j = 0 := by omega
    rfl
  | succ r ih =>
    have hrest := ih (j := j / 2) (by omega) (h + 1)
    rw [frontier, List.length_append]
    split <;> simp <;> omega

/-- What the loop does to the next node of height `h`. Here `j` is the number of nodes of that
height which are done, `j₀` the number of leaves, and `i₀` the last leaf below the next node. -/
theorem holds_merge {i r h j i₀ j₀ fuel : ℕ} {s : S} (hj : j < 2 ^ r) (hfuel : r ≤ fuel)
    (hj₀ : j₀ >>> h = j) (hi₀ : i₀ >>> h = i * 2 ^ r + j)
    (hs : K.Holds s (node leaf join h (i * 2 ^ r + j) :: frontier leaf join i r h j)) :
    K.Holds (merge join K i₀ j₀ fuel h s) (frontier leaf join i r h (j + 1)) := by
  induction r generalizing h j fuel s with
  | zero =>
    obtain rfl : j = 0 := by omega
    have hstop : merge join K i₀ j₀ fuel h s = s := by
      cases fuel with
      | zero => rfl
      | succ fuel => rw [merge, hj₀, if_neg (by omega)]
    rw [pow_zero, mul_one, add_zero] at hs
    rw [hstop]
    exact hs
  | succ r ih =>
    obtain ⟨fuel, rfl⟩ : ∃ f, fuel = f + 1 := ⟨fuel - 1, by omega⟩
    have hpow : 2 ^ (r + 1) = 2 * 2 ^ r := pow_succ' 2 r
    rw [merge, hj₀]
    rcases Nat.mod_two_eq_zero_or_one j with heven | hodd
    · -- a left sibling stays on the stack
      rw [frontier, if_neg (by omega), List.nil_append] at hs
      rw [if_neg (by omega), frontier, if_pos (by omega), Nat.add_sub_cancel,
        show (j + 1) / 2 = j / 2 by omega, List.singleton_append]
      exact hs
    · -- a right sibling is joined with the node on the stack, which gives the next node above
      rw [frontier, if_pos hodd, List.singleton_append] at hs
      have hup : i₀ >>> (h + 1) = i * 2 ^ r + j / 2 := by
        rw [Nat.shiftRight_succ, hi₀, hpow, Nat.mul_left_comm]
        omega
      have hcount : j₀ >>> (h + 1) = j / 2 := by rw [Nat.shiftRight_succ, hj₀]
      have hjoin : join (h + 1) (i₀ >>> (h + 1)) (node leaf join h (i * 2 ^ (r + 1) + (j - 1)))
          (node leaf join h (i * 2 ^ (r + 1) + j)) =
          node leaf join (h + 1) (i * 2 ^ r + j / 2) := by
        rw [node, hup, hpow, Nat.mul_left_comm, mul_add,
          show 2 * (i * 2 ^ r) + 2 * (j / 2) = 2 * (i * 2 ^ r) + (j - 1) by omega,
          show 2 * (i * 2 ^ r) + (j - 1) + 1 = 2 * (i * 2 ^ r) + j by omega]
      have hnext := K.holds_replace hs (node leaf join (h + 1) (i * 2 ^ r + j / 2))
      rw [if_pos hodd, K.operands_eq hs, hjoin, frontier, if_neg (by omega), List.nil_append,
        show (j + 1) / 2 = j / 2 + 1 by omega]
      exact ih (by omega) (by omega) hcount hup hnext

/-- The stack after some leaves. -/
theorem holds_sweep_of_le {fuel i z j : ℕ} {start : S} (hfuel : z ≤ fuel) (hcap : z < K.cap)
    (hstart : K.Holds start []) (hj : j ≤ 2 ^ z) :
    K.Holds (sweep leaf join K fuel i z start j) (frontier leaf join i z 0 j) := by
  induction j with
  | zero =>
    rw [frontier_zero]
    exact hstart
  | succ j ih =>
    have hdepth : (frontier leaf join i z 0 j).length ≤ z := length_frontier_le (by omega) i 0
    have hleaf := K.holds_push (ih (by omega)) (hdepth.trans_lt hcap) (leaf (i * 2 ^ z + j))
    exact holds_merge (by omega) hfuel rfl rfl hleaf

/-- After all leaves there is only the root. -/
theorem holds_sweep {fuel z : ℕ} {start : S} (hfuel : z ≤ fuel) (hcap : z < K.cap)
    (hstart : K.Holds start []) (i : ℕ) :
    K.Holds (sweep leaf join K fuel i z start (2 ^ z)) [node leaf join z i] := by
  have hall : K.Holds (sweep leaf join K fuel i z start (2 ^ z))
      (frontier leaf join i z 0 (2 ^ z)) := holds_sweep_of_le hfuel hcap hstart le_rfl
  rwa [frontier_pow, Nat.zero_add] at hall

end Merkle
