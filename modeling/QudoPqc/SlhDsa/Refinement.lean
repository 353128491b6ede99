import QudoPqc.SlhDsa.Native
import Mathlib.Algebra.Order.BigOperators.Group.List

/-!
# Digits and subtrees

Two parts of `slh_dsa.c` that do not depend on the hash functions. `base_2b` reads the digits from a
word of 32 bits that loses its upper bits on the way, and `wots_csum` adds up the checksum in such a
word; no digit is affected. The buffers of `xmss_node` and `fors_node` are a stack in the sense of
`Merkle.Stack`, so their loops return the node (`returns_treeHash`) if there are enough of them.
-/

namespace SlhDsa

open Fips205

namespace Native

open Codec Stateful

/-! ## Digits -/

theorem toInt_append_singleton (x : Bytes) (b : UInt8) :
    toInt (x ++ [b]) = toInt x * 256 + b.toNat := by
  rw [toInt, List.reverse_append, List.reverse_singleton, List.singleton_append, loadLe, ← toInt]
  omega

theorem toInt_take_succ {x : Bytes} {j : ℕ} (hj : j < x.length) :
    toInt (x.take (j + 1)) = toInt (x.take j) * 256 + (x.getD j 0).toNat := by
  rw [← List.take_append_getElem hj, toInt_append_singleton, List.getD_eq_getElem x 0 hj]

/-- What `refill` leaves: `t` has the bytes so far, and `l` bits of it are unused. -/
theorem refill_eq (x : Bytes) (b fuel : ℕ) {used j l : ℕ} (hl : 8 * j = used + l)
    (hlow : l < b + 8) (hfuel : b ≤ l + fuel) (hx : used + b ≤ 8 * x.length) :
    ∃ j' l', refill x b fuel j l (toInt (x.take j) % 2 ^ 32) =
      (j', l', toInt (x.take j') % 2 ^ 32) ∧ 8 * j' = used + l' ∧ b ≤ l' ∧ l' < b + 8 := by
  induction fuel generalizing j l with
  | zero => exact ⟨j, l, rfl, hl, by omega, hlow⟩
  | succ fuel ih =>
    rw [refill]
    by_cases hb : l < b
    · have ht : ((toInt (x.take j) % 2 ^ 32) <<< 8 + (x.getD j 0).toNat) % 2 ^ 32 =
          toInt (x.take (j + 1)) % 2 ^ 32 := by
        rw [toInt_take_succ (by omega), Nat.shiftLeft_eq]
        omega
      rw [if_pos hb, ht]
      exact ih (by omega) (by omega) (by omega)
    · rw [if_neg hb]
      exact ⟨j, l, rfl, hl, by omega, hlow⟩

theorem and_mask (x b : ℕ) : x &&& ((1 <<< b) - 1) = x % 2 ^ b := by
  rw [Nat.shiftLeft_eq, Nat.one_mul, Nat.and_two_pow_sub_one_eq_mod]

/-- Bits below the width survive the reduction. -/
theorem mod_div_mod {x w s b : ℕ} (h : s + b ≤ w) : x % 2 ^ w / 2 ^ s % 2 ^ b =
    x / 2 ^ s % 2 ^ b := by
  have hw : 2 ^ w = 2 ^ s * 2 ^ (w - s) := by rw [← pow_add, Nat.add_sub_cancel' (by omega)]
  rw [hw, Nat.mod_mul_right_div_self, Nat.mod_mod_of_dvd _ (pow_dvd_pow 2 (by omega))]

theorem base2bFrom_eq {x : Bytes} {b left i j l : ℕ} (hb : b ≤ 24) (hl : 8 * j = b * i + l)
    (hlow : l < 8) (hx : b * (i + left) ≤ 8 * x.length) :
    base2bFrom x b left j l (toInt (x.take j) % 2 ^ 32) =
      (List.range' i left).map (Fips205.base2b x b) := by
  induction left generalizing i j l with
  | zero => rfl
  | succ left ih =>
    have hmul : b * (i + 1) = b * i + b := Nat.mul_succ b i
    have hmul' : b * (i + (left + 1)) = b * (i + 1) + b * left := by ring
    obtain ⟨j', l', hrefill, hj', hb', hl'⟩ := refill_eq x b b hl (by omega) (by omega)
      (by omega)
    have hbytes : (b * (i + 1) + 7) / 8 = j' := by omega
    have hvalue : (toInt (x.take j') % 2 ^ 32) >>> (l' - b) &&& ((1 <<< b) - 1) =
        Fips205.base2b x b i := by
      rw [and_mask, Nat.shiftRight_eq_div_pow,
        mod_div_mod (by omega), Fips205.base2b, hbytes, show 8 * j' - b * (i + 1) = l' - b by omega]
    rw [base2bFrom, hrefill, List.range'_succ, List.map_cons]
    dsimp only
    rw [hvalue, ih (i := i + 1) (by omega) (by omega) (by rw [Nat.add_right_comm i 1]; exact hx)]

theorem base2b_eq {x : Bytes} {b n : ℕ} (hb : b ≤ 24) (hx : b * n ≤ 8 * x.length) :
    base2b x b n = (List.range n).map (Fips205.base2b x b) := by
  rw [List.range_eq_range']
  exact base2bFrom_eq (j := 0) hb rfl (by omega) (by rwa [Nat.zero_add])

section Digits

variable (P : Sizes)

theorem getLen1_eq : getLen1 P = len1 P := by
  rw [getLen1, len1, P.lgW_eq]
  rfl

theorem len1_eq : len1 P = 2 * P.n := by
  rw [len1, P.lgW_eq]
  omega

theorem len2_eq : len2 P = 3 := by
  rw [len2, len1_eq, P.lgW_eq]
  rcases P.n_mem with h | h | h <;> rw [h] <;> decide

theorem genLen2_eq : genLen2 P = len2 P := by
  rw [len2_eq, genLen2, if_pos ⟨P.lgW_eq, by rcases P.n_mem with h | h | h <;> omega⟩]

theorem getLen_eq : getLen P = len P := by
  rw [getLen, getLen1_eq, genLen2_eq, len]

/-- The sum of the checksum does not overflow. -/
theorem foldl_add_mod {l : List ℕ} {g : ℕ → ℕ} {M c : ℕ} (h : c + (l.map g).sum < M) :
    l.foldl (fun c v ↦ (c + g v) % M) c = c + (l.map g).sum := by
  induction l generalizing c with
  | nil => rfl
  | cons v l ih =>
    rw [List.map_cons, List.sum_cons] at h
    rw [List.foldl_cons, Nat.mod_eq_of_lt (by omega), ih (by omega), List.map_cons, List.sum_cons]
    omega

theorem checksum_le (msg : Bytes) : checksum P msg ≤ 2 * P.n * 15 := by
  have hle : ∀ x ∈ (List.range (len1 P)).map fun i ↦
      2 ^ P.lgW - 1 - Fips205.base2b msg P.lgW i, x ≤ 15 := by
    intro x hx
    obtain ⟨i, -, rfl⟩ := List.mem_map.mp hx
    rw [P.lgW_eq]
    omega
  have hsum := List.sum_le_card_nsmul _ 15 hle
  rw [List.length_map, List.length_range] at hsum
  rw [← len1_eq]
  exact hsum

/-- `wots_csum` writes the digits of the message and of its checksum. -/
theorem wotsCsum_eq {msg : Bytes} (hmsg : msg.length = P.n) :
    wotsCsum P msg = (List.range (len P)).map (digits P msg) := by
  have hn : P.n ≤ 32 := by rcases P.n_mem with h | h | h <;> omega
  have hlgW := P.lgW_eq
  have hvm : base2b msg P.lgW (getLen1 P) =
      (List.range (len1 P)).map (Fips205.base2b msg P.lgW) := by
    rw [getLen1_eq]
    exact base2b_eq (by omega) (by rw [len1_eq, hmsg, hlgW]; omega)
  have hcsum : (base2b msg P.lgW (getLen1 P)).foldl
      (fun csum v ↦ (csum + ((1 <<< P.lgW) - 1 - v)) % 2 ^ 32) 0 = checksum P msg := by
    have hsum : ((base2b msg P.lgW (getLen1 P)).map fun v ↦ (1 <<< P.lgW) - 1 - v).sum =
        checksum P msg := by
      rw [hvm, List.map_map, checksum, Nat.shiftLeft_eq, Nat.one_mul]
      rfl
    have hle := checksum_le P msg
    rw [foldl_add_mod (by rw [hsum]; omega), hsum, Nat.zero_add]
  have hshift : checksum P msg <<< ((8 - (3 * 4 &&& 7)) &&& 7) % 2 ^ 32 =
      checksum P msg <<< ((8 - 3 * 4 % 8) % 8) := by
    have hle := checksum_le P msg
    have heq : (8 - (3 * 4 &&& 7)) &&& 7 = 4 := rfl
    have heq' : (8 - 3 * 4 % 8) % 8 = 4 := rfl
    rw [heq, heq', Nat.shiftLeft_eq]
    omega
  have hbuf : ∀ {csum i : ℕ}, i < 3 → Fips205.base2b (toByte csum 2 ++ List.replicate 2 0) 4 i =
      Fips205.base2b (toByte csum 2) 4 i := by
    intro csum i hi
    rw [Fips205.base2b, Fips205.base2b, List.take_append_of_le_length
      (by rw [length_toByte]; omega)]
  have hlen : (3 * 4 + 7) / 8 = 2 := rfl
  rw [wotsCsum, hcsum, hvm, genLen2_eq, len2_eq, hlgW, hshift, hlen, base2b_eq (by omega) (by simp),
    len, len2_eq, List.range_add, List.map_append, List.map_map]
  congr 1
  · refine List.map_congr_left fun i hi ↦ ?_
    rw [digits, if_pos (List.mem_range.mp hi), hlgW]
  · refine List.map_congr_left fun i hi ↦ ?_
    rw [hbuf (List.mem_range.mp hi), Function.comp_apply, digits, if_neg (by omega),
      len2_eq, hlgW, Nat.add_sub_cancel_left]

theorem getD_wotsCsum {msg : Bytes} (hmsg : msg.length = P.n) {i : ℕ} (hi : i < len P) :
    (wotsCsum P msg).getD i 0 = digits P msg i := by
  rw [wotsCsum_eq P hmsg, List.getD_eq_getElem _ _ (by simpa using hi)]
  simp

end Digits

/-! ## Subtrees -/

namespace Nodes

/-- The buffers in the order of the stack. -/
def row (s : Nodes) : List Bytes := s.node :: s.h

theorem row_push {s : Nodes} (hp : -1 ≤ s.p) (x : Bytes) :
    (s.push x).row = s.row.set (s.p + 1).toNat x ∧ (s.push x).p = s.p + 1 := by
  rw [push]
  split
  · have hidx : (s.p + 1).toNat = s.p.toNat + 1 := by omega
    exact ⟨by rw [row, row, hidx, List.set_cons_succ], rfl⟩
  · have hidx : (s.p + 1).toNat = 0 := by omega
    exact ⟨by rw [row, row, hidx, List.set_cons_zero], rfl⟩

theorem operands_row {s : Nodes} (hp : 1 ≤ s.p) :
    s.operands = (s.row.getD (s.p - 1).toNat [], s.row.getD s.p.toNat []) := by
  have hidx : s.p.toNat = (s.p - 1).toNat + 1 := by omega
  rw [operands, row, hidx, List.getD_cons_succ]
  split
  · have hidx' : (s.p - 1).toNat = (s.p - 1 - 1).toNat + 1 := by omega
    rw [hidx', List.getD_cons_succ]
  · have hidx' : (s.p - 1).toNat = 0 := by omega
    rw [hidx', List.getD_cons_zero]

theorem row_replace {s : Nodes} (hp : 1 ≤ s.p) (x : Bytes) :
    (s.replace x).row = s.row.set (s.p - 1).toNat x ∧ (s.replace x).p = s.p - 1 := by
  rw [replace]
  split
  · have hidx : (s.p - 1).toNat = (s.p - 1 - 1).toNat + 1 := by omega
    exact ⟨by rw [row, row, hidx, List.set_cons_succ], rfl⟩
  · have hidx : (s.p - 1).toNat = 0 := by omega
    exact ⟨by rw [row, row, hidx, List.set_cons_zero], rfl⟩

theorem take_set_succ {α : Type} {l : List α} {n : ℕ} (h : n < l.length) (x : α) :
    (l.set n x).take (n + 1) = l.take n ++ [x] := by
  rw [List.take_succ_eq_append_getElem (by simpa using h), List.getElem_set_self,
    List.take_set_of_le le_rfl]

theorem getD_of_take_eq {α : Type} {l xs : List α} {n k : ℕ} (h : l.take n = xs) (hk : k < n)
    (d : α) : l.getD k d = xs.getD k d := by
  rw [← h, List.getD_eq_getElem?_getD, List.getD_eq_getElem?_getD, List.getElem?_take_of_lt hk]

/-- The buffers as a stack. -/
def stack (cap : ℕ) : Merkle.Stack Bytes Nodes where
  cap := cap + 1
  push := push
  operands := operands
  replace := replace
  Holds s nodes := s.row.length = cap + 1 ∧ s.p = nodes.length - 1 ∧
    s.row.take nodes.length = nodes.reverse
  holds_push := by
    rintro s nodes ⟨hlen, hp, hrow⟩ hcap x
    obtain ⟨hrow', hp'⟩ := row_push (s := s) (by omega) x
    have hidx : (s.p + 1).toNat = nodes.length := by omega
    refine ⟨by rw [hrow', List.length_set, hlen], by rw [hp', hp, List.length_cons]; omega, ?_⟩
    rw [hrow', hidx, List.length_cons, take_set_succ (by omega), hrow, List.reverse_cons]
  operands_eq := by
    rintro s nodes l r ⟨hlen, hp, hrow⟩
    simp only [List.length_cons, List.reverse_cons] at hp hrow
    have hright : s.p.toNat = nodes.length + 1 := by omega
    have hleft : (s.p - 1).toNat = nodes.length := by omega
    rw [operands_row (by omega), hright, hleft, getD_of_take_eq hrow (by omega),
      getD_of_take_eq hrow (by omega)]
    simp
  holds_replace := by
    rintro s nodes l r ⟨hlen, hp, hrow⟩ x
    simp only [List.length_cons, List.reverse_cons] at hp hrow
    obtain ⟨hrow', hp'⟩ := row_replace (s := s) (by omega) x
    have hidx : (s.p - 1).toNat = nodes.length := by omega
    have hbelow : s.row.take nodes.length = nodes.reverse := by
      have htake := congrArg (List.take nodes.length) hrow
      rw [List.take_take, Nat.min_eq_left (by omega), List.append_assoc,
        List.take_left' List.length_reverse] at htake
      exact htake
    have hcap := congrArg List.length hrow
    simp only [List.length_take, List.length_append, List.length_reverse,
      List.length_singleton] at hcap
    refine ⟨by rw [hrow', List.length_set, hlen], by rw [hp', hp, List.length_cons]; omega, ?_⟩
    rw [hrow', hidx, List.length_cons, take_set_succ (by omega), hbelow, List.reverse_cons]

theorem holds_empty (cap : ℕ) : (stack cap).Holds (empty cap) [] :=
  ⟨by simp [row, empty], rfl, rfl⟩

theorem node_of_holds {cap : ℕ} {s : Nodes} {x : Bytes} (h : (stack cap).Holds s [x]) :
    s.node = x := by
  have hrow : [s.node] = [x] := h.2.2
  exact List.singleton_inj.mp hrow

end Nodes

section Trees

variable {I J : AdrsT → Prop} {leaf : ℕ → StateM AdrsT Bytes}
  {join : (z i : ℕ) → (l r : Bytes) → StateM AdrsT Bytes} {leafV : ℕ → Bytes}
  {joinV : ℕ → ℕ → Bytes → Bytes → Bytes}

theorem returns_mergeLoop (hjoin : ∀ z i l r, Returns J (join z i l r) (joinV z i l r) J)
    (cap i j fuel k : ℕ) (s : Nodes) :
    Returns J (mergeLoop join i j fuel k s)
      (Merkle.merge joinV (Nodes.stack cap) i j fuel k s) J := by
  induction fuel generalizing k s with
  | zero => exact .pure fun _ hs ↦ hs
  | succ fuel ih =>
    rw [mergeLoop, Merkle.merge, Nat.and_one_is_mod]
    split
    · exact (hjoin _ _ _ _).bind (ih _ _)
    · exact .pure fun _ hs ↦ hs

/-- The loop over the leaves returns the node, if `h` is large enough. -/
theorem returns_treeHash (hleaf : ∀ i, Returns I (leaf i) (leafV i) J)
    (hjoin : ∀ z i l r, Returns J (join z i l r) (joinV z i l r) J) (hJ : ∀ s, J s → I s)
    {cap z : ℕ} (hcap : z ≤ cap) (hz : z ≤ 32) (i : ℕ) :
    Returns I (treeHash leaf join cap i z) (Merkle.node leafV joinV z i) J := by
  have hpow : 1 <<< z = 2 ^ z := by rw [Nat.shiftLeft_eq, Nat.one_mul]
  have hholds : (Nodes.stack cap).Holds
      (Merkle.sweep leafV joinV (Nodes.stack cap) 32 i z (Nodes.empty cap) (2 ^ z))
      [Merkle.node leafV joinV z i] :=
    Merkle.holds_sweep hz (Nat.lt_succ_of_le hcap) (Nodes.holds_empty cap) i
  have hroot := Nodes.node_of_holds hholds
  rw [treeHash, hpow, Nat.shiftLeft_eq, ← hroot]
  refine .bind (.loop_last (f := Merkle.sweep leafV joinV (Nodes.stack cap) 32 i z
    (Nodes.empty cap))
    (Nat.two_pow_pos z) hJ fun j _ ↦ ?_) (.pure fun _ hs ↦ hs)
  exact (hleaf _).bind (returns_mergeLoop hjoin cap _ _ _ _ _)

end Trees

end Native

end SlhDsa
