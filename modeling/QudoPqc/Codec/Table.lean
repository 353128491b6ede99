import QudoPqc.Codec.Packing
import Mathlib.Data.List.OfFn

/-!
# Tables of words

A table of `n` rows of `d` words, packed row by row (`packTable`). When a row fills whole bytes this
is the packing of all words in a row, so a byte string of the right length is the packing of exactly
one table, and the words of the table are the words of the string (`exists_packTable_iff`).
-/

namespace Codec

variable {n d : ℕ}

/-- The words of a table, row by row. -/
def entries (f : Fin n → Fin d → ℕ) : List ℕ := (List.ofFn fun i ↦ List.ofFn (f i)).flatten

/-- The packings of the rows. -/
def packTable (w : ℕ) (f : Fin n → Fin d → ℕ) : Bytes :=
  (List.ofFn fun i ↦ pack w (List.ofFn (f i))).flatten

/-! ## Words -/

theorem length_entries (f : Fin n → Fin d → ℕ) : (entries f).length = n * d := by
  simp [entries, List.map_ofFn, Function.comp_def]

theorem mem_entries {f : Fin n → Fin d → ℕ} {x : ℕ} : x ∈ entries f ↔ ∃ i j, f i j = x := by
  simp [entries, List.mem_ofFn]

theorem entries_succ (f : Fin (n + 1) → Fin d → ℕ) :
    entries f = List.ofFn (f 0) ++ entries fun i ↦ f i.succ := by
  rw [entries, List.ofFn_succ, List.flatten_cons]
  rfl

/-- Every list of the right length is the list of words of a table. -/
theorem exists_entries {xs : List ℕ} (hlen : xs.length = n * d) :
    ∃ f : Fin n → Fin d → ℕ, entries f = xs := by
  induction n generalizing xs with
  | zero =>
    rw [Nat.zero_mul, List.length_eq_zero_iff] at hlen
    exact ⟨fun i ↦ i.elim0, hlen.symm⟩
  | succ n ih =>
    rw [Nat.succ_mul] at hlen
    have hdrop : (xs.drop d).length = n * d := by
      rw [List.length_drop, hlen, Nat.add_sub_cancel]
    obtain ⟨f, hf⟩ := ih hdrop
    have htake : (xs.take d).length = d := List.length_take_of_le (by omega)
    refine ⟨Fin.cons (fun j ↦ (xs.take d).get (j.cast htake.symm)) f, ?_⟩
    have hrow : List.ofFn (fun j : Fin d ↦ (xs.take d).get (j.cast htake.symm)) = xs.take d := by
      conv_rhs => rw [← List.ofFn_get (xs.take d)]
      exact (List.ofFn_congr htake _).symm
    rw [entries_succ]
    simp only [Fin.cons_zero, Fin.cons_succ]
    rw [hrow, hf, List.take_append_drop]

/-! ## Packings -/

theorem packTable_succ (w : ℕ) (f : Fin (n + 1) → Fin d → ℕ) :
    packTable w f = pack w (List.ofFn (f 0)) ++ packTable w fun i ↦ f i.succ := by
  rw [packTable, List.ofFn_succ, List.flatten_cons]
  rfl

section Whole

variable {w m : ℕ} (hm : w * d = 8 * m)

include hm

theorem packTable_eq_pack {f : Fin n → Fin d → ℕ} (hf : ∀ i j, f i j < 2 ^ w) :
    packTable w f = pack w (entries f) := by
  induction n with
  | zero => simp [packTable, entries, pack, storeLe]
  | succ n ih =>
    have hwords : ∀ x ∈ List.ofFn (f 0), x < 2 ^ w := List.forall_mem_ofFn_iff.mpr (hf 0)
    rw [packTable_succ, entries_succ, ih fun i ↦ hf i.succ,
      pack_append _ (by rw [List.length_ofFn, hm]) hwords]

theorem unpack_packTable {f : Fin n → Fin d → ℕ} (hf : ∀ i j, f i j < 2 ^ w) :
    unpack w (n * d) (packTable w f) = entries f := by
  have hbits : w * (entries f).length = 8 * (m * n) := by
    rw [length_entries, Nat.mul_left_comm, hm]
    ring
  have hwords : ∀ x ∈ entries f, x < 2 ^ w := by
    intro x hx
    obtain ⟨i, j, rfl⟩ := mem_entries.mp hx
    exact hf i j
  rw [packTable_eq_pack hm hf, ← length_entries f, unpack_pack hbits hwords]

/-- The packings of tables with words in `P`. -/
theorem exists_packTable_iff {P : ℕ → Prop} {bs : Bytes} (hlen : bs.length = m * n) :
    (∃ f : Fin n → Fin d → ℕ, (∀ i j, f i j < 2 ^ w ∧ P (f i j)) ∧ bs = packTable w f) ↔
      ∀ x ∈ unpack w (n * d) bs, P x := by
  constructor
  · rintro ⟨f, hf, rfl⟩ x hx
    rw [unpack_packTable hm fun i j ↦ (hf i j).1] at hx
    obtain ⟨i, j, rfl⟩ := mem_entries.mp hx
    exact (hf i j).2
  · intro h
    have hbits : w * (n * d) = 8 * bs.length := by
      rw [hlen, Nat.mul_left_comm, hm]
      ring
    obtain ⟨f, hf⟩ := exists_entries (d := d) (length_unpack w (n * d) bs)
    have hmem : ∀ i j, f i j ∈ unpack w (n * d) bs := fun i j ↦ hf ▸ mem_entries.mpr ⟨i, j, rfl⟩
    refine ⟨f, fun i j ↦ ⟨unpack_lt (hmem i j), h _ (hmem i j)⟩, ?_⟩
    rw [packTable_eq_pack hm fun i j ↦ unpack_lt (hmem i j), hf, pack_unpack hbits]

end Whole

/-! ## Rows of one length -/

/-- A row is found at a multiple of the row length. -/
theorem take_drop_flatten_ofFn {m : ℕ} {rows : Fin n → Bytes}
    (h : ∀ i, (rows i).length = m) (rest : Bytes) (i : Fin n) :
    (((List.ofFn rows).flatten ++ rest).drop (m * i)).take m = rows i := by
  induction n with
  | zero => exact i.elim0
  | succ n ih =>
    rw [List.ofFn_succ, List.flatten_cons, List.append_assoc]
    refine Fin.cases ?_ (fun i ↦ ?_) i
    · rw [Fin.val_zero, Nat.mul_zero, List.drop_zero, ← h 0, List.take_left]
    · rw [Fin.val_succ, Nat.mul_succ, Nat.add_comm, ← List.drop_drop, ← h 0, List.drop_left, h 0]
      exact ih (fun i ↦ h i.succ) i

end Codec
