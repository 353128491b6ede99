import Mathlib.Data.List.Infix
import Mathlib.Data.List.TakeWhile

/-!
# Epochs of a log

A log grows at its head. One kind of entry, the mark, cuts it into epochs; `epoch` is the open one,
since the latest mark. `PerEpoch mark a n` bounds the entries `a` in every epoch, and a monitor
maintains it by watching the open epoch only.
-/

namespace Monitor

variable {α : Type} [DecidableEq α] {mark a e : α} {n : ℕ} {log : List α}

/-- The entries since the latest mark. -/
def epoch (mark : α) (log : List α) : List α := log.takeWhile (· ≠ mark)

/-- No stretch of the log without a mark has more than `n` entries `a`. -/
def PerEpoch (mark a : α) (n : ℕ) (log : List α) : Prop :=
  ∀ l, l <:+: log → mark ∉ l → l.count a ≤ n

@[simp] theorem epoch_cons_self : epoch mark (mark :: log) = [] := by
  rw [epoch, List.takeWhile_cons_of_neg (by simp)]

theorem epoch_cons_of_ne (h : e ≠ mark) : epoch mark (e :: log) = e :: epoch mark log := by
  rw [epoch, List.takeWhile_cons_of_pos (by simpa using h), epoch]

theorem mark_notMem_epoch : mark ∉ epoch mark log := by
  intro hmem
  simpa using List.mem_takeWhile_imp hmem

theorem prefix_epoch {l : List α} (hl : l <+: log) (hmark : mark ∉ l) : l <+: epoch mark log := by
  induction log generalizing l with
  | nil => exact hl
  | cons e log ih =>
    cases l with
    | nil => exact List.nil_prefix
    | cons b l =>
      obtain ⟨rfl, htail⟩ := List.cons_prefix_cons.mp hl
      rw [List.mem_cons, not_or] at hmark
      rw [epoch_cons_of_ne (Ne.symm hmark.1)]
      exact List.cons_prefix_cons.mpr ⟨rfl, ih htail hmark.2⟩

namespace PerEpoch

theorem nil : PerEpoch mark a n [] := by
  intro l hl _
  rw [List.infix_nil.mp hl]
  exact Nat.zero_le n

theorem count_epoch_le (h : PerEpoch mark a n log) : (epoch mark log).count a ≤ n :=
  h _ (List.takeWhile_prefix _).isInfix mark_notMem_epoch

theorem of_cons (h : PerEpoch mark a n (e :: log)) : PerEpoch mark a n log := fun l hl hmark ↦
  h l (hl.trans (List.suffix_cons e log).isInfix) hmark

/-- A new entry is checked against the open epoch. -/
theorem cons (h : PerEpoch mark a n log) (hepoch : (epoch mark (e :: log)).count a ≤ n) :
    PerEpoch mark a n (e :: log) := by
  intro l hl hmark
  rcases List.infix_cons_iff.mp hl with hprefix | hinfix
  · exact ((prefix_epoch hprefix hmark).sublist.count_le a).trans hepoch
  · exact h l hinfix hmark

end PerEpoch

end Monitor
