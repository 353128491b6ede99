import Mathlib.Data.List.Infix
import Mathlib.Data.List.TakeDrop

/-!
# Runs and windows of a stream

Two properties of a finite stream that a monitor can decide one item at a time: that it contains a
run of `n` equal items (`HasRun`), and that each window of `size` items, counted from the start of
the stream, has a property (`EveryWindow`). Both are described by what one more item changes:
`hasRun_append_singleton` looks at the run the stream ends with, and
`everyWindow_append_singleton` at the window it ends in.
-/

namespace Monitor

variable {α : Type}

/-! ## Runs -/

/-- The stream contains `n` equal items in a row. -/
def HasRun (n : ℕ) (xs : List α) : Prop := ∃ a, List.replicate n a <:+: xs

/-- The number of equal items a list starts with. -/
def leadRun [DecidableEq α] : List α → ℕ
  | [] => 0
  | a :: xs => if xs.head? = some a then leadRun xs + 1 else 1

theorem hasRun_reverse {n : ℕ} {xs : List α} : HasRun n xs.reverse ↔ HasRun n xs := by
  refine exists_congr fun a ↦ ?_
  rw [← List.reverse_infix, List.reverse_reverse, List.reverse_replicate]

section LeadRun

variable [DecidableEq α]

theorem leadRun_cons_self (a : α) (xs : List α) :
    leadRun (a :: a :: xs) = leadRun (a :: xs) + 1 := by
  rw [leadRun, List.head?_cons, if_pos rfl]

theorem leadRun_cons_of_ne {a : α} {xs : List α} (h : xs.head? ≠ some a) :
    leadRun (a :: xs) = 1 := by
  rw [leadRun, if_neg h]

theorem replicate_succ_isPrefix_iff {n : ℕ} {a : α} {xs : List α} :
    List.replicate (n + 1) a <+: xs ↔ xs.head? = some a ∧ n + 1 ≤ leadRun xs := by
  induction xs generalizing n with
  | nil => simp
  | cons b xs ih =>
    rw [List.replicate_succ, List.cons_prefix_cons, List.head?_cons, Option.some.injEq]
    constructor
    · rintro ⟨rfl, hrest⟩
      refine ⟨rfl, ?_⟩
      cases n with
      | zero =>
        rw [leadRun]
        split <;> omega
      | succ n =>
        obtain ⟨hhead, hle⟩ := ih.mp hrest
        rw [leadRun, if_pos hhead]
        omega
    · rintro ⟨rfl, hle⟩
      refine ⟨rfl, ?_⟩
      cases n with
      | zero => exact List.nil_prefix
      | succ n =>
        rw [leadRun] at hle
        split at hle
        case isTrue hhead => exact ih.mpr ⟨hhead, by omega⟩
        case isFalse => omega

/-- A list has a run if it starts with one or has one further on. -/
theorem hasRun_cons {n : ℕ} {a : α} {xs : List α} :
    HasRun (n + 1) (a :: xs) ↔ n + 1 ≤ leadRun (a :: xs) ∨ HasRun (n + 1) xs := by
  rw [HasRun]
  simp only [List.infix_cons_iff, exists_or, replicate_succ_isPrefix_iff, List.head?_cons,
    Option.some.injEq]
  rw [HasRun]
  exact or_congr_left ⟨fun ⟨_, _, h⟩ ↦ h, fun h ↦ ⟨a, rfl, h⟩⟩

/-- One more item makes a run only at the end. -/
theorem hasRun_append_singleton {n : ℕ} {xs : List α} {a : α} :
    HasRun (n + 1) (xs ++ [a]) ↔ n + 1 ≤ leadRun (a :: xs.reverse) ∨ HasRun (n + 1) xs := by
  rw [← hasRun_reverse, List.reverse_append, List.reverse_singleton, List.singleton_append,
    hasRun_cons, hasRun_reverse]

end LeadRun

theorem not_hasRun_nil (n : ℕ) : ¬ HasRun (n + 1) ([] : List α) := by
  rintro ⟨a, ha⟩
  have hlen := ha.length_le
  rw [List.length_replicate, List.length_nil] at hlen
  omega

/-! ## Windows -/

/-- The `k`-th window of `size` items; the last one may be incomplete. -/
def window (size k : ℕ) (xs : List α) : List α := (xs.drop (size * k)).take size

/-- Every window has the property. -/
def EveryWindow (size : ℕ) (P : List α → Prop) (xs : List α) : Prop := ∀ k, P (window size k xs)

/-- The items of the last, incomplete window. -/
def openWindow (size : ℕ) (xs : List α) : List α := xs.drop (size * (xs.length / size))

theorem length_openWindow (size : ℕ) (xs : List α) :
    (openWindow size xs).length = xs.length % size := by
  rw [openWindow, List.length_drop, Nat.mod_def]

theorem openWindow_nil (size : ℕ) : openWindow size ([] : List α) = [] := List.drop_nil

theorem window_nil (size k : ℕ) : window size k ([] : List α) = [] := by
  rw [window, List.drop_nil, List.take_nil]

section Window

variable {size : ℕ} (hsize : 0 < size) (xs : List α) (a : α)
include hsize

theorem window_open : window size (xs.length / size) xs = openWindow size xs := by
  refine List.take_of_length_le ?_
  have hlt : (openWindow size xs).length < size := by
    rw [length_openWindow]
    exact Nat.mod_lt _ hsize
  exact hlt.le

/-- One more item goes into the open window. -/
theorem window_append_singleton (k : ℕ) :
    window size k (xs ++ [a]) =
      if k = xs.length / size then openWindow size xs ++ [a] else window size k xs := by
  have hdiv := Nat.div_add_mod xs.length size
  have hmod := Nat.mod_lt xs.length hsize
  rcases lt_trichotomy k (xs.length / size) with hk | hk | hk
  · rw [if_neg hk.ne]
    have hfull : size * k + size ≤ xs.length := by
      have hmul : size * (k + 1) ≤ size * (xs.length / size) := Nat.mul_le_mul_left _ hk
      rw [Nat.mul_succ] at hmul
      omega
    rw [window, window, List.drop_append_of_le_length (by omega), List.take_append_of_le_length]
    rw [List.length_drop]
    omega
  · subst hk
    rw [if_pos rfl, window, List.drop_append_of_le_length (by omega), openWindow,
      List.take_of_length_le]
    rw [List.length_append, List.length_drop, List.length_singleton]
    omega
  · rw [if_neg hk.ne']
    have hpast : xs.length + 1 ≤ size * k := by
      have hmul : size * (xs.length / size + 1) ≤ size * k := Nat.mul_le_mul_left _ hk
      rw [Nat.mul_succ] at hmul
      omega
    rw [window, window, List.drop_of_length_le (by rw [List.length_append]; exact hpast),
      List.drop_of_length_le (by omega)]

/-- For a property that shorter windows inherit, one more item matters only in the open window. -/
theorem everyWindow_append_singleton {P : List α → Prop} (hP : ∀ w b, P (w ++ [b]) → P w) :
    EveryWindow size P (xs ++ [a]) ↔ EveryWindow size P xs ∧ P (openWindow size xs ++ [a]) := by
  constructor
  · intro h
    have hopen : P (openWindow size xs ++ [a]) := by
      have hk := h (xs.length / size)
      rwa [window_append_singleton hsize, if_pos rfl] at hk
    refine ⟨fun k ↦ ?_, hopen⟩
    by_cases hk : k = xs.length / size
    · rw [hk, window_open hsize]
      exact hP _ _ hopen
    · have hother := h k
      rwa [window_append_singleton hsize, if_neg hk] at hother
  · rintro ⟨h, hopen⟩ k
    rw [window_append_singleton hsize]
    split
    · exact hopen
    · exact h k

/-- The open window grows by one item, or closes. -/
theorem openWindow_append_singleton :
    openWindow size (xs ++ [a]) =
      if xs.length % size + 1 = size then [] else openWindow size xs ++ [a] := by
  have hdiv := Nat.div_add_mod xs.length size
  have hmod := Nat.mod_lt xs.length hsize
  have hlen : (xs ++ [a]).length = xs.length + 1 := by
    rw [List.length_append, List.length_singleton]
  rw [openWindow, hlen]
  split
  case isTrue hfull =>
    refine List.drop_of_length_le ?_
    rw [hlen, Nat.succ_div_of_dvd, Nat.mul_succ]
    · omega
    · exact ⟨xs.length / size + 1, by rw [Nat.mul_succ]; omega⟩
  case isFalse hroom =>
    have hsame : (xs.length + 1) / size = xs.length / size := by
      rw [Nat.div_eq_iff hsize]
      have hcomm := Nat.mul_comm size (xs.length / size)
      omega
    rw [hsame, List.drop_append_of_le_length (by omega), openWindow]

end Window

end Monitor
