import Mathlib.Data.List.Infix
import Mathlib.Data.List.TakeWhile

/-!
# Strings and the first occurrence of a pattern

A pointer to a string is the memory behind it; the string ends before the first NUL (`cString`).
`search pat text` is the index at which `pat` first occurs in `text`: the value of `strstr`, as a
distance from the start. What a program that cuts a text at its markers needs to know is where an
occurrence cannot start (`search_append`), and that an occurrence inside the first part of a text
is the first one of the whole (`search_of_take`).
-/

namespace Codec

variable {α : Type*} [DecidableEq α] {pat text front : List α} {i n : ℕ}

/-- The index of the first occurrence of `pat`. -/
def search (pat : List α) : List α → Option ℕ
  | [] => if pat = [] then some 0 else none
  | x :: xs => if pat <+: x :: xs then some 0 else (search pat xs).map (· + 1)

theorem search_eq_zero (h : pat <+: text) : search pat text = some 0 := by
  cases text with
  | nil => rw [search, if_pos (List.prefix_nil.mp h)]
  | cons x xs => rw [search, if_pos h]

theorem search_cons {x : α} {xs : List α} (h : ¬pat <+: x :: xs) :
    search pat (x :: xs) = (search pat xs).map (· + 1) := by
  rw [search, if_neg h]

/-- The pattern stands at the index found, and at none before it. -/
theorem search_eq_some_iff :
    search pat text = some i ↔
      i ≤ text.length ∧ pat <+: text.drop i ∧ ∀ j < i, ¬pat <+: text.drop j := by
  induction text generalizing i with
  | nil =>
    simp only [search, List.drop_nil, List.prefix_nil, List.length_nil, Nat.le_zero,
      Option.ite_none_right_eq_some, Option.some.injEq]
    constructor
    · rintro ⟨rfl, rfl⟩
      exact ⟨rfl, rfl, fun j hj ↦ absurd hj (Nat.not_lt_zero j)⟩
    · rintro ⟨rfl, rfl, -⟩
      exact ⟨rfl, rfl⟩
  | cons x xs ih =>
    by_cases hpat : pat <+: x :: xs
    · rw [search_eq_zero hpat, Option.some.injEq]
      constructor
      · rintro rfl
        exact ⟨Nat.zero_le _, hpat, fun j hj ↦ absurd hj (Nat.not_lt_zero j)⟩
      · rintro ⟨-, -, hnone⟩
        by_contra hi
        exact hnone 0 (by omega) hpat
    · rw [search_cons hpat, Option.map_eq_some_iff]
      constructor
      · rintro ⟨i, hi, rfl⟩
        obtain ⟨hle, hocc, hnone⟩ := ih.mp hi
        refine ⟨Nat.succ_le_succ hle, hocc, fun j hj ↦ ?_⟩
        cases j with
        | zero => exact hpat
        | succ j => exact hnone j (Nat.lt_of_succ_lt_succ hj)
      · rintro ⟨hle, hocc, hnone⟩
        cases i with
        | zero => exact absurd hocc hpat
        | succ i =>
          exact ⟨i, ih.mpr ⟨Nat.le_of_succ_le_succ hle, hocc,
            fun j hj ↦ hnone (j + 1) (Nat.succ_lt_succ hj)⟩, rfl⟩

/-- A front part in which no occurrence starts is passed over. -/
theorem search_append (h : ∀ j < front.length, ¬pat <+: front.drop j ++ text) :
    search pat (front ++ text) = (search pat text).map (· + front.length) := by
  induction front with
  | nil =>
    rw [List.nil_append, List.length_nil]
    simp
  | cons x xs ih =>
    have htail := ih fun j hj ↦ h (j + 1) (Nat.succ_lt_succ hj)
    have hhead : ¬pat <+: x :: (xs ++ text) := h 0 (Nat.succ_pos _)
    rw [List.cons_append, search_cons hhead, htail, Option.map_map]
    rfl

omit [DecidableEq α] in
/-- No occurrence starts at a symbol that does not begin the pattern. -/
theorem not_prefix_of_head_ne {x y : α} {xs ys : List α} (h : x ≠ y) : ¬x :: xs <+: y :: ys :=
  fun hocc ↦ h (List.cons_prefix_cons.mp hocc).1

/-- An occurrence within the first `n` symbols is the first one. -/
theorem search_of_take (h : search pat (text.take n) = some i) : search pat text = some i := by
  obtain ⟨hle, hocc, hnone⟩ := search_eq_some_iff.mp h
  rw [List.length_take] at hle
  refine search_eq_some_iff.mpr ⟨by omega, ?_, fun j hj hearlier ↦ ?_⟩
  · rw [List.drop_take] at hocc
    exact hocc.trans (List.take_prefix _ _)
  · -- an earlier occurrence would end within the first `n` symbols as well
    have hend : i + pat.length ≤ (text.take n).length := by
      have := hocc.length_le
      rw [List.length_drop] at this
      rw [List.length_take] at this ⊢
      omega
    rw [List.length_take] at hend
    refine hnone j hj ?_
    rw [List.drop_take, List.prefix_take_iff]
    exact ⟨hearlier, by omega⟩

/-- What is found in a front part is found in the whole. -/
theorem search_append_right (h : search pat front = some i) (text : List α) :
    search pat (front ++ text) = some i :=
  search_of_take (n := front.length) (by rw [List.take_left]; exact h)

/-- Without an occurrence, the pattern starts nowhere. -/
theorem not_prefix_of_search (h : search pat text = none) (j : ℕ) : ¬pat <+: text.drop j := by
  induction text generalizing j with
  | nil =>
    rw [List.drop_nil, List.prefix_nil]
    rintro rfl
    cases h
  | cons x xs ih =>
    have hhead : ¬pat <+: x :: xs := fun hocc ↦ by
      rw [search_eq_zero hocc] at h
      cases h
    rw [search_cons hhead, Option.map_eq_none_iff] at h
    cases j with
    | zero => exact hhead
    | succ j => exact ih h j

/-- A symbol that is not in the pattern separates what stands before it from what stands behind. -/
theorem search_append_cons {x : α} (h : search pat front = none) (hx : x ∉ pat) (text : List α) :
    search pat (front ++ x :: text) = (search pat text).map (· + (front.length + 1)) := by
  have hnone : ∀ j < (front ++ [x]).length, ¬pat <+: (front ++ [x]).drop j ++ text := by
    intro j hj hocc
    rw [List.length_append, List.length_singleton] at hj
    rw [List.drop_append_of_le_length (by omega)] at hocc
    -- the pattern ends within the front part, or it reaches the separating symbol
    rcases le_or_gt pat.length (front.drop j).length with hle | hgt
    · refine not_prefix_of_search h j (List.prefix_of_prefix_length_le hocc ?_ hle)
      rw [List.append_assoc]
      exact List.prefix_append _ _
    · have hsep : front.drop j ++ [x] <+: pat := by
        refine List.prefix_of_prefix_length_le (List.prefix_append _ text) hocc ?_
        rw [List.length_append, List.length_singleton]
        exact hgt
      exact hx (hsep.subset (List.mem_append_right _ List.mem_cons_self))
  have happ : search pat (front ++ [x] ++ text) = _ := search_append hnone
  rwa [List.append_assoc, List.singleton_append, List.length_append, List.length_singleton] at happ

/-- The pattern fits after the index found. -/
theorem search_le (h : search pat text = some i) : i + pat.length ≤ text.length := by
  obtain ⟨hle, hocc, -⟩ := search_eq_some_iff.mp h
  have := hocc.length_le
  rw [List.length_drop] at this
  omega

/-! ## Strings -/

/-- The string that starts at a pointer: the bytes before the first NUL. -/
def cString (memory : List UInt8) : List UInt8 := memory.takeWhile (· ≠ 0)

/-- A string ends at the NUL behind it. -/
theorem cString_append {text : List UInt8} (h : ∀ c ∈ text, c ≠ 0) (rest : List UInt8) :
    cString (text ++ 0 :: rest) = text := by
  rw [cString, List.takeWhile_append_of_pos (by simpa using h)]
  simp

/-- The NUL in the first characters ends the string. -/
theorem cString_take_of_mem {text : List UInt8} {n : ℕ} (h : 0 ∈ text.take n) :
    cString (text.take n) = cString text := by
  induction text generalizing n with
  | nil => rw [List.take_nil]
  | cons c text ih =>
    cases n with
    | zero => cases h
    | succ n =>
      rw [List.take_succ_cons] at h ⊢
      by_cases hc : c = 0
      · subst hc
        rfl
      · have htail : 0 ∈ text.take n := (List.mem_cons.mp h).resolve_left (Ne.symm hc)
        simp only [cString, List.takeWhile_cons] at ih ⊢
        rw [ih htail]

/-- Without a NUL in its first characters, a string starts with them. -/
theorem cString_of_not_mem {text : List UInt8} {n : ℕ} (h : 0 ∉ text.take n) :
    cString (text.take n) = text.take n ∧ cString text = text.take n ++ cString (text.drop n) := by
  have hne : ∀ c ∈ text.take n, decide (c ≠ 0) = true :=
    fun c hc ↦ decide_eq_true fun hzero ↦ h (hzero ▸ hc)
  constructor
  · exact List.takeWhile_eq_self_iff.mpr hne
  · conv_lhs => rw [← List.take_append_drop n text]
    exact List.takeWhile_append_of_pos hne

/-- What stands behind the NUL is not part of the string. -/
theorem cString_append_of_mem {text : List UInt8} (h : 0 ∈ text) (rest : List UInt8) :
    cString (text ++ rest) = cString text := by
  have htake : (text ++ rest).take text.length = text := List.take_left
  rw [← cString_take_of_mem (n := text.length) (htake.symm ▸ h), htake]

end Codec
