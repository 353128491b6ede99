import QudoPqc.Codec.Packing
import Mathlib.Algebra.BigOperators.Group.List.Lemmas
import Mathlib.Data.List.GetD
import Mathlib.Data.List.OfFn

/-!
# Rows with running tallies

A format for a fixed number of rows of bytes with at most `cap` entries in all: the entries row
after row, filled up with zeros to `cap` bytes (`packEntries`), and for each row the number of
entries up to its end (`packLimits`).

`IsRows` says when two byte strings have this form, and `isRows_pack`, `pack_rowAt` say that these
are exactly the packings of rows. `foldlM_push` describes a loop that writes such a packing into a
zeroed buffer and gives up when the buffer is full.
-/

namespace Codec

variable {n : ℕ}

/-! ## The format -/

/-- The number of entries of the first `i` rows. -/
def tally (rows : Fin n → Bytes) (i : ℕ) : ℕ :=
  (((List.ofFn rows).map List.length).take i).sum

/-- The entries, filled up with zeros. -/
def packEntries (cap : ℕ) (rows : Fin n → Bytes) : Bytes :=
  (List.ofFn rows).flatten ++ List.replicate (cap - tally rows n) 0

/-- The tallies at the ends of the rows. -/
def packLimits (rows : Fin n → Bytes) : Bytes :=
  List.ofFn fun i : Fin n ↦ UInt8.ofNat (tally rows (i + 1))

theorem tally_zero (rows : Fin n → Bytes) : tally rows 0 = 0 := rfl

theorem tally_succ (rows : Fin n → Bytes) (i : Fin n) :
    tally rows (i + 1) = tally rows i + (rows i).length := by
  have hi : (i : ℕ) < ((List.ofFn rows).map List.length).length := by
    rw [List.length_map, List.length_ofFn]
    exact i.isLt
  rw [tally, List.take_succ_eq_append_getElem hi, List.sum_append, List.sum_singleton,
    List.getElem_map, List.getElem_ofFn]
  rfl

theorem tally_mono (rows : Fin n → Bytes) {i j : ℕ} (h : i ≤ j) :
    tally rows i ≤ tally rows j := by
  rw [tally, tally, ← Nat.add_sub_cancel' h, List.take_add, List.sum_append]
  exact Nat.le_add_right _ _

theorem length_flatten_ofFn (rows : Fin n → Bytes) :
    (List.ofFn rows).flatten.length = tally rows n := by
  rw [List.length_flatten, tally, List.take_of_length_le]
  rw [List.length_map, List.length_ofFn]

theorem length_packEntries {cap : ℕ} {rows : Fin n → Bytes} (h : tally rows n ≤ cap) :
    (packEntries cap rows).length = cap := by
  rw [packEntries, List.length_append, length_flatten_ofFn, List.length_replicate,
    Nat.add_sub_cancel' h]

@[simp] theorem length_packLimits (rows : Fin n → Bytes) : (packLimits rows).length = n :=
  List.length_ofFn

/-! ## Reading the format -/

/-- Where row `i` starts, for rows that start at `start` and end at the `limits`. -/
def boundary (start : ℕ) (limits : Bytes) : ℕ → ℕ
  | 0 => start
  | i + 1 => (limits.getD i 0).toNat

/-- The bytes from position `a` up to position `b`. -/
def slice (bs : Bytes) (a b : ℕ) : Bytes := (bs.take b).drop a

/-- Row `i`. -/
def rowAt (entries limits : Bytes) (i : ℕ) : Bytes :=
  slice entries (boundary 0 limits i) (boundary 0 limits (i + 1))

/-- The rows are laid out in order, and nothing follows the last one. -/
structure IsRows (cap n : ℕ) (entries limits : Bytes) : Prop where
  length_entries : entries.length = cap
  length_limits : limits.length = n
  le_next : ∀ i < n, boundary 0 limits i ≤ boundary 0 limits (i + 1)
  next_le : ∀ i < n, boundary 0 limits (i + 1) ≤ cap
  rest : ∀ b ∈ entries.drop (boundary 0 limits n), b = 0

theorem boundary_cons (start : ℕ) (l : UInt8) (limits : Bytes) (i : ℕ) :
    boundary start (l :: limits) (i + 1) = boundary l.toNat limits i := by
  cases i with
  | zero => rfl
  | succ i => rfl

theorem boundary_packLimits {rows : Fin n → Bytes} (h : tally rows n < 256) {i : ℕ}
    (hi : i ≤ n) : boundary 0 (packLimits rows) i = tally rows i := by
  cases i with
  | zero => rfl
  | succ i =>
    have hlt : tally rows (i + 1) < 256 := (tally_mono rows hi).trans_lt h
    rw [boundary, packLimits, List.getD_eq_getElem _ _ (by rw [List.length_ofFn]; exact hi),
      List.getElem_ofFn, UInt8.toNat_ofNat', Nat.mod_eq_of_lt hlt]

theorem slice_packEntries {cap : ℕ} (rows : Fin n → Bytes) (i : Fin n) :
    slice (packEntries cap rows) (tally rows i) (tally rows (i + 1)) = rows i := by
  have hle : tally rows (i + 1) ≤ (List.ofFn rows).flatten.length := by
    rw [length_flatten_ofFn]
    exact tally_mono rows i.isLt
  have hi : (i : ℕ) < (List.ofFn rows).length := by
    rw [List.length_ofFn]
    exact i.isLt
  rw [slice, packEntries, List.take_append_of_le_length hle, tally, tally,
    List.drop_take_succ_flatten_eq_getElem _ _ hi, List.getElem_ofFn]

/-- A packing has the format, and its rows are the rows packed. -/
theorem isRows_pack {cap : ℕ} {rows : Fin n → Bytes} (hcap : cap < 256)
    (h : tally rows n ≤ cap) :
    IsRows cap n (packEntries cap rows) (packLimits rows) ∧
      ∀ i : Fin n, rowAt (packEntries cap rows) (packLimits rows) i = rows i := by
  have hb : ∀ {i : ℕ}, i ≤ n → boundary 0 (packLimits rows) i = tally rows i :=
    boundary_packLimits (h.trans_lt hcap)
  refine ⟨⟨length_packEntries h, length_packLimits rows, ?_, ?_, ?_⟩, ?_⟩
  · intro i hi
    rw [hb hi.le, hb hi]
    exact tally_mono rows (Nat.le_succ i)
  · intro i hi
    rw [hb hi]
    exact (tally_mono rows hi).trans h
  · intro b hmem
    rw [hb le_rfl, packEntries, ← length_flatten_ofFn, List.drop_left] at hmem
    exact List.eq_of_mem_replicate hmem
  · intro i
    rw [rowAt, hb i.isLt.le, hb i.isLt]
    exact slice_packEntries rows i

namespace IsRows

variable {cap : ℕ} {entries limits : Bytes} (h : IsRows cap n entries limits)
include h

theorem boundary_le {i : ℕ} (hi : i ≤ n) : boundary 0 limits i ≤ cap := by
  cases i with
  | zero => exact Nat.zero_le _
  | succ i => exact h.next_le i hi

theorem length_rowAt {i : ℕ} (hi : i < n) :
    (rowAt entries limits i).length = boundary 0 limits (i + 1) - boundary 0 limits i := by
  rw [rowAt, slice, List.length_drop, List.length_take, h.length_entries,
    Nat.min_eq_left (h.next_le i hi)]

theorem tally_rowAt {i : ℕ} (hi : i ≤ n) :
    tally (fun j : Fin n ↦ rowAt entries limits j) i = boundary 0 limits i := by
  induction i with
  | zero => rfl
  | succ i ih =>
    rw [tally_succ _ ⟨i, hi⟩, ih (Nat.le_of_lt hi), h.length_rowAt hi]
    exact Nat.add_sub_cancel' (h.le_next i hi)

theorem flatten_rowAt {i : ℕ} (hi : i ≤ n) :
    ((List.ofFn fun j : Fin n ↦ rowAt entries limits j).take i).flatten =
      entries.take (boundary 0 limits i) := by
  induction i with
  | zero => rfl
  | succ i ih =>
    rw [List.take_succ_eq_append_getElem (by rw [List.length_ofFn]; exact hi),
      List.flatten_append, ih (Nat.le_of_lt hi), List.getElem_ofFn, List.flatten_singleton]
    have hle := h.le_next i hi
    rw [rowAt, slice, ← Nat.min_eq_left hle, ← List.take_take, Nat.min_eq_left hle]
    exact List.take_append_drop _ _

end IsRows

/-- Whatever has the format is the packing of its rows. -/
theorem pack_rowAt {cap : ℕ} {entries limits : Bytes} (h : IsRows cap n entries limits) :
    tally (fun i : Fin n ↦ rowAt entries limits i) n ≤ cap ∧
      packEntries cap (fun i : Fin n ↦ rowAt entries limits i) = entries ∧
      packLimits (fun i : Fin n ↦ rowAt entries limits i) = limits := by
  have htally := h.tally_rowAt le_rfl
  refine ⟨htally.trans_le (h.boundary_le le_rfl), ?_, ?_⟩
  · have hflat := h.flatten_rowAt le_rfl
    rw [List.take_of_length_le (by rw [List.length_ofFn])] at hflat
    have hzeros : entries.drop (boundary 0 limits n) =
        List.replicate (cap - boundary 0 limits n) 0 := by
      rw [List.eq_replicate_iff, List.length_drop, h.length_entries]
      exact ⟨rfl, h.rest⟩
    rw [packEntries, hflat, htally, ← hzeros]
    exact List.take_append_drop _ _
  · refine List.ext_getElem ((length_packLimits _).trans h.length_limits.symm) fun i hi hi' ↦ ?_
    have hin : i < n := by rwa [length_packLimits] at hi
    rw [← UInt8.toNat_inj, ← List.getD_eq_getElem _ 0 hi', ← List.getD_eq_getElem _ 0 hi]
    have hlt : boundary 0 limits (i + 1) < 256 := toNat_lt _
    rw [List.getD_eq_getElem _ 0 hi]
    simp only [packLimits, List.getElem_ofFn]
    rw [h.tally_rowAt hin, UInt8.toNat_ofNat', Nat.mod_eq_of_lt hlt]
    rfl

/-! ## Writing the format -/

/-- Write the next entry, unless the `cap` entries are used up. -/
def push (cap : ℕ) (st : Bytes × ℕ) (b : UInt8) : Option (Bytes × ℕ) :=
  if st.2 = cap then none else some (st.1.set st.2 b, st.2 + 1)

theorem set_append_replicate (done after : Bytes) (free : ℕ) (b : UInt8) :
    (done ++ (List.replicate (free + 1) 0 ++ after)).set done.length b =
      (done ++ [b]) ++ (List.replicate free 0 ++ after) := by
  rw [List.set_append_right _ _ le_rfl, Nat.sub_self, List.replicate_succ, List.cons_append,
    List.set_cons_zero, List.append_assoc, List.singleton_append]

/-- A loop that writes an entry for each item that satisfies `p`. -/
theorem foldlM_push {α : Type} (p : α → Bool) (f : α → UInt8) (js : List α)
    (done after : Bytes) (free : ℕ) :
    js.foldlM (fun st j ↦ if p j then push (done.length + free) st (f j) else some st)
        (done ++ (List.replicate free 0 ++ after), done.length) =
      if (js.filter p).length ≤ free then
        some (done ++ (js.filter p).map f ++
          (List.replicate (free - (js.filter p).length) 0 ++ after),
          done.length + (js.filter p).length)
      else none := by
  induction js generalizing done free with
  | nil => simp
  | cons j js ih =>
    rw [List.foldlM_cons]
    cases hp : p j with
    | false =>
      rw [List.filter_cons_of_neg (by rw [hp]; exact Bool.false_ne_true)]
      exact ih done free
    | true =>
      rw [List.filter_cons_of_pos hp, List.length_cons, if_pos rfl]
      cases free with
      | zero =>
        rw [if_neg (by omega), push, if_pos (Nat.add_zero _).symm]
        rfl
      | succ free =>
        have hlen : (done ++ [f j]).length = done.length + 1 := List.length_append
        have hcap : done.length + (free + 1) = (done ++ [f j]).length + free := by omega
        have hstep : push (done.length + (free + 1))
            (done ++ (List.replicate (free + 1) 0 ++ after), done.length) (f j) =
            some ((done ++ [f j]) ++ (List.replicate free 0 ++ after), (done ++ [f j]).length) := by
          rw [push, if_neg (by omega)]
          dsimp only
          rw [set_append_replicate, hlen]
        rw [hstep, Option.bind_eq_bind, Option.bind_some, hcap, ih, List.map_cons, hlen,
          List.append_assoc done, List.singleton_append, Nat.add_sub_add_right, Nat.add_assoc,
          Nat.add_comm 1]
        simp only [Nat.add_le_add_iff_right]

end Codec
