import Mathlib.Data.Nat.Digits.Lemmas

/-!
# Packing words of a fixed width into bytes

A bit-packing codec writes a list of `w`-bit words into bytes, least significant bit first. Both
lists are then the little-endian digits of one number, in base `2 ^ w` and in base `256`, so the
codec is described by two reading functions (`Nat.ofDigits (2 ^ w)` and `loadLe`) and two writing
functions (`split w` and `storeLe`), and `pack` and `unpack` are their compositions.

Real codecs are loops over small groups of words, each with shift and mask formulas of its own.
`blocks` is such a loop, and `blocks_eq_pack`, `blocks_eq_unpack` reduce the whole loop to one
group; the formulas of a group are settled by arithmetic, through `or_shiftLeft` and
`shiftLeft_mod`.

## Main results

* `unpack_pack`, `pack_unpack` : the two directions of the round trip.
* `pack_append`, `unpack_append` : packing is piecewise on whole bytes.
-/

/-- A byte string. -/
abbrev Bytes : Type := List UInt8

namespace Codec

variable {x w n m g a b : ℕ} {xs : List ℕ} {bs : Bytes} {f : ℕ → ℕ}

/-! ## Bytes as digits -/

/-- The number whose little-endian bytes are `bs`. -/
def loadLe : Bytes → ℕ
  | [] => 0
  | b :: bs => b.toNat + 256 * loadLe bs

/-- The `n` low bytes of `x`, least significant first. -/
def storeLe : ℕ → ℕ → Bytes
  | 0, _ => []
  | n + 1, x => UInt8.ofNat x :: storeLe n (x / 256)

/-- The `n` low digits of `x` in base `2 ^ w`, least significant first. -/
def split (w : ℕ) : ℕ → ℕ → List ℕ
  | 0, _ => []
  | n + 1, x => x % 2 ^ w :: split w n (x / 2 ^ w)

@[simp] theorem length_storeLe (n x : ℕ) : (storeLe n x).length = n := by
  induction n generalizing x with
  | zero => rfl
  | succ n ih => rw [storeLe, List.length_cons, ih]

@[simp] theorem length_split (w n x : ℕ) : (split w n x).length = n := by
  induction n generalizing x with
  | zero => rfl
  | succ n ih => rw [split, List.length_cons, ih]

theorem toNat_lt (b : UInt8) : b.toNat < 256 := b.toNat_lt

theorem ofNat_eq_ofNat {y : ℕ} (h : x % 256 = y % 256) : UInt8.ofNat x = UInt8.ofNat y := by
  rw [← UInt8.toNat_inj, UInt8.toNat_ofNat', UInt8.toNat_ofNat']
  exact h

theorem loadLe_lt (bs : Bytes) : loadLe bs < 256 ^ bs.length := by
  induction bs with
  | nil => decide
  | cons b bs ih =>
    have hb := toNat_lt b
    rw [loadLe, List.length_cons, pow_succ]
    omega

@[simp] theorem loadLe_singleton (b : UInt8) : loadLe [b] = b.toNat := by
  rw [loadLe, loadLe, Nat.mul_zero, Nat.add_zero]

theorem loadLe_append (as bs : Bytes) :
    loadLe (as ++ bs) = loadLe as + 256 ^ as.length * loadLe bs := by
  induction as with
  | nil => simp [loadLe]
  | cons a as ih =>
    rw [List.cons_append, loadLe, ih, loadLe, List.length_cons, pow_succ]
    ring

theorem loadLe_append₃ (a b c : Bytes) : loadLe (a ++ (b ++ c)) =
    loadLe a + 256 ^ a.length * (loadLe b + 256 ^ b.length * loadLe c) := by
  rw [loadLe_append, loadLe_append]

theorem loadLe_storeLe (n x : ℕ) : loadLe (storeLe n x) = x % 256 ^ n := by
  induction n generalizing x with
  | zero => simp [storeLe, loadLe, Nat.mod_one]
  | succ n ih =>
    rw [storeLe, loadLe, ih, UInt8.toNat_ofNat']
    change x % 256 + 256 * (x / 256 % 256 ^ n) = x % 256 ^ (n + 1)
    rw [pow_succ', Nat.mod_mul]

theorem storeLe_loadLe (bs : Bytes) : storeLe bs.length (loadLe bs) = bs := by
  induction bs with
  | nil => rfl
  | cons b bs ih =>
    have hb := toNat_lt b
    have hdiv : (b.toNat + 256 * loadLe bs) / 256 = loadLe bs := by omega
    have hlow : UInt8.ofNat (b.toNat + 256 * loadLe bs) = b := by
      rw [UInt8.ofNat_eq_iff_mod_eq_toNat]
      omega
    rw [List.length_cons, loadLe, storeLe, hdiv, ih, hlow]

theorem storeLe_add (m n x : ℕ) :
    storeLe (m + n) x = storeLe m x ++ storeLe n (x / 256 ^ m) := by
  induction m generalizing x with
  | zero => simp [storeLe]
  | succ m ih =>
    rw [Nat.add_right_comm, storeLe, ih, storeLe, List.cons_append, Nat.div_div_eq_div_mul,
      ← pow_succ']

theorem storeLe_mod (n x : ℕ) : storeLe n (x % 256 ^ n) = storeLe n x := by
  have h := storeLe_loadLe (storeLe n x)
  rwa [length_storeLe, loadLe_storeLe] at h

/-! ## Words as digits -/

theorem split_lt {y : ℕ} (h : y ∈ split w n x) : y < 2 ^ w := by
  induction n generalizing x with
  | zero => simp [split] at h
  | succ n ih =>
    rcases List.mem_cons.mp h with rfl | h
    · exact Nat.mod_lt _ (Nat.two_pow_pos w)
    · exact ih h

theorem split_add (w m n x : ℕ) :
    split w (m + n) x = split w m x ++ split w n (x / (2 ^ w) ^ m) := by
  induction m generalizing x with
  | zero => simp [split]
  | succ m ih =>
    rw [Nat.add_right_comm, split, ih, split, List.cons_append, Nat.div_div_eq_div_mul,
      ← pow_succ']

theorem ofDigits_split (w n x : ℕ) :
    Nat.ofDigits (2 ^ w) (split w n x) = x % (2 ^ w) ^ n := by
  induction n generalizing x with
  | zero => simp [split, Nat.mod_one]
  | succ n ih =>
    rw [split, Nat.ofDigits_cons, ih, pow_succ', Nat.mod_mul]

theorem split_mod (w n x : ℕ) : split w n (x % (2 ^ w) ^ n) = split w n x := by
  induction n generalizing x with
  | zero => rfl
  | succ n ih =>
    rw [split, split, pow_succ', Nat.mod_mul_right_mod, Nat.mod_mul_right_div_self, ih]

theorem split_ofDigits (h : ∀ x ∈ xs, x < 2 ^ w) :
    split w xs.length (Nat.ofDigits (2 ^ w) xs) = xs := by
  induction xs with
  | nil => rfl
  | cons x xs ih =>
    have hx := h x List.mem_cons_self
    rw [List.length_cons, Nat.ofDigits_cons, split, Nat.add_mul_mod_self_left,
      Nat.mod_eq_of_lt hx, Nat.add_mul_div_left _ _ (Nat.two_pow_pos w), Nat.div_eq_of_lt hx,
      Nat.zero_add, ih fun y hy ↦ h y (List.mem_cons_of_mem x hy)]

theorem ofDigits_lt (h : ∀ x ∈ xs, x < 2 ^ w) :
    Nat.ofDigits (2 ^ w) xs < (2 ^ w) ^ xs.length := by
  rw [← split_ofDigits h, ofDigits_split, length_split]
  exact Nat.mod_lt _ (Nat.pow_pos (Nat.two_pow_pos w))

/-! ## Packing -/

/-- The bytes of the `w`-bit words `xs`. -/
def pack (w : ℕ) (xs : List ℕ) : Bytes :=
  storeLe (w * xs.length / 8) (Nat.ofDigits (2 ^ w) xs)

/-- The `n` words of `w` bits held by `bs`. -/
def unpack (w n : ℕ) (bs : Bytes) : List ℕ := split w n (loadLe bs)

@[simp] theorem length_pack (w : ℕ) (xs : List ℕ) : (pack w xs).length = w * xs.length / 8 :=
  length_storeLe _ _

@[simp] theorem length_unpack (w n : ℕ) (bs : Bytes) : (unpack w n bs).length = n :=
  length_split w n _

theorem unpack_lt (h : x ∈ unpack w n bs) : x < 2 ^ w :=
  split_lt h

theorem two_pow_pow_eq (h : w * n = 8 * m) : (2 ^ w) ^ n = 256 ^ m := by
  rw [← pow_mul, h, pow_mul]
  norm_num

theorem unpack_pack (hm : w * xs.length = 8 * m)
    (h : ∀ x ∈ xs, x < 2 ^ w) : unpack w xs.length (pack w xs) = xs := by
  have hlt : Nat.ofDigits (2 ^ w) xs < 256 ^ m := two_pow_pow_eq hm ▸ ofDigits_lt h
  rw [unpack, pack, hm, Nat.mul_div_cancel_left m (by decide : 0 < 8), loadLe_storeLe,
    Nat.mod_eq_of_lt hlt, split_ofDigits h]

theorem pack_unpack (hn : w * n = 8 * bs.length) :
    pack w (unpack w n bs) = bs := by
  rw [pack, length_unpack, hn, Nat.mul_div_cancel_left _ (by decide : 0 < 8), unpack,
    ofDigits_split, two_pow_pow_eq hn, Nat.mod_eq_of_lt (loadLe_lt bs), storeLe_loadLe]

/-- The packed number, from its words. -/
theorem ofDigits_unpack (hn : w * n = 8 * bs.length) :
    Nat.ofDigits (2 ^ w) (unpack w n bs) = loadLe bs := by
  rw [unpack, ofDigits_split, two_pow_pow_eq hn, Nat.mod_eq_of_lt (loadLe_lt bs)]

/-- A byte string is a packing as soon as the numbers agree. -/
theorem eq_pack (hlen : w * xs.length = 8 * bs.length)
    (h : loadLe bs = Nat.ofDigits (2 ^ w) xs) : bs = pack w xs := by
  rw [pack, hlen, Nat.mul_div_cancel_left _ (by decide : 0 < 8), ← h, storeLe_loadLe]

theorem pack_append (ys : List ℕ) (hm : w * xs.length = 8 * m)
    (h : ∀ x ∈ xs, x < 2 ^ w) : pack w (xs ++ ys) = pack w xs ++ pack w ys := by
  have hlt : Nat.ofDigits (2 ^ w) xs < 256 ^ m := two_pow_pow_eq hm ▸ ofDigits_lt h
  have hlen : w * (xs ++ ys).length / 8 = m + w * ys.length / 8 := by
    rw [List.length_append, Nat.mul_add, hm, Nat.mul_add_div (by decide : 8 > 0)]
  have hval : Nat.ofDigits (2 ^ w) (xs ++ ys) =
      Nat.ofDigits (2 ^ w) xs + 256 ^ m * Nat.ofDigits (2 ^ w) ys := by
    rw [Nat.ofDigits_append, two_pow_pow_eq hm]
  have hpos : 0 < 256 ^ m := Nat.pow_pos (by decide)
  rw [pack, hlen, hval, storeLe_add, Nat.add_mul_div_left _ _ hpos, Nat.div_eq_of_lt hlt,
    Nat.zero_add, ← storeLe_mod, Nat.add_mul_mod_self_left, storeLe_mod, pack, pack, hm,
    Nat.mul_div_cancel_left m (by decide : 0 < 8)]

theorem unpack_append (n : ℕ) {as : Bytes} (bs : Bytes)
    (hm : w * m = 8 * as.length) :
    unpack w (m + n) (as ++ bs) = unpack w m as ++ unpack w n bs := by
  have hpos : 0 < 256 ^ as.length := Nat.pow_pos (by decide)
  rw [unpack, split_add, loadLe_append, two_pow_pow_eq hm, Nat.add_mul_div_left _ _ hpos,
    Nat.div_eq_of_lt (loadLe_lt as), Nat.zero_add, ← split_mod, two_pow_pow_eq hm,
    Nat.add_mul_mod_self_left, ← two_pow_pow_eq hm, split_mod, unpack, unpack]

/-! ## Loops over groups -/

/-- `n` rounds of a loop that takes `g` items and emits `f` of them. -/
def blocks {α β : Type*} (f : List α → List β) (g : ℕ) : ℕ → List α → List β
  | 0, _ => []
  | n + 1, xs => f (xs.take g) ++ blocks f g n (xs.drop g)

/-- The loop reads no more than its rounds need. -/
theorem blocks_take {α β : Type*} (f : List α → List β) (g n : ℕ) (xs : List α) :
    blocks f g n (xs.take (n * g)) = blocks f g n xs := by
  induction n generalizing xs with
  | zero => rfl
  | succ n ih =>
    have hrest : (xs.take ((n + 1) * g)).drop g = (xs.drop g).take (n * g) := by
      rw [List.drop_take, Nat.succ_mul, Nat.add_sub_cancel]
    rw [blocks, blocks, List.take_take, Nat.min_eq_left (Nat.le_mul_of_pos_left g n.succ_pos),
      hrest, ih]

theorem blocks_eq_pack {α : Type*} {f : List α → Bytes} {word : α → ℕ}
    (hm : w * g = 8 * m) {P : α → Prop} (hlt : ∀ x, P x → word x < 2 ^ w)
    (hf : ∀ ys, ys.length = g → (∀ y ∈ ys, P y) → f ys = pack w (ys.map word)) {xs : List α}
      (hlen : xs.length = n * g) (hP : ∀ x ∈ xs, P x) :
    blocks f g n xs = pack w (xs.map word) := by
  induction n generalizing xs with
  | zero =>
    have hnil : xs = [] := List.eq_nil_of_length_eq_zero (by omega)
    simp [hnil, blocks, pack, storeLe]
  | succ n ih =>
    have htake : (xs.take g).length = g := by
      rw [List.length_take, hlen, Nat.succ_mul]
      omega
    have hdrop : (xs.drop g).length = n * g := by
      rw [List.length_drop, hlen, Nat.succ_mul]
      omega
    have hPtake : ∀ x ∈ xs.take g, P x := fun x hx ↦ hP x (List.mem_of_mem_take hx)
    have hsplit : xs.map word = (xs.take g).map word ++ (xs.drop g).map word := by
      rw [← List.map_append, List.take_append_drop]
    have hwords : ∀ x ∈ (xs.take g).map word, x < 2 ^ w := by
      intro x hx
      obtain ⟨y, hy, rfl⟩ := List.mem_map.mp hx
      exact hlt y (hPtake y hy)
    rw [blocks, hf _ htake hPtake, ih hdrop fun x hx ↦ hP x (List.mem_of_mem_drop hx), hsplit,
      pack_append _ (by rw [List.length_map, htake, hm]) hwords]

theorem blocks_eq_unpack {β : Type*} {f : Bytes → List β} {value : ℕ → β}
    (hm : w * g = 8 * m)
    (hf : ∀ bs : Bytes, bs.length = m → f bs = (unpack w g bs).map value)
      (hlen : bs.length = n * m) :
    blocks f m n bs = (unpack w (n * g) bs).map value := by
  induction n generalizing bs with
  | zero => simp [blocks, unpack, split]
  | succ n ih =>
    have htake : (bs.take m).length = m := by
      rw [List.length_take, hlen, Nat.succ_mul]
      omega
    have hdrop : (bs.drop m).length = n * m := by
      rw [List.length_drop, hlen, Nat.succ_mul]
      omega
    have happ := unpack_append (n * g) (bs.drop m) (hm.trans (congrArg (8 * ·) htake.symm))
    rw [List.take_append_drop] at happ
    rw [blocks, hf _ htake, ih hdrop, ← List.map_append, ← happ, Nat.succ_mul, Nat.add_comm g]

/-- The loop gives back the words that were packed. -/
theorem blocks_eq_of_take_eq_pack {f : Bytes → List ℕ} (hm : w * g = 8 * m)
    (hf : ∀ bs : Bytes, bs.length = m → f bs = unpack w g bs) (hxs : xs.length = n * g)
    (hlt : ∀ x ∈ xs, x < 2 ^ w)
    (hbs : bs.take (n * m) = pack w xs) : blocks f m n bs = xs := by
  have hbits : w * xs.length = 8 * (n * m) := by
    rw [hxs, Nat.mul_left_comm, hm]
    ring
  have hlen : (pack w xs).length = n * m := by
    rw [length_pack, hbits, Nat.mul_div_cancel_left _ (by decide : 0 < 8)]
  have hall : blocks f m n (pack w xs) = (unpack w (n * g) (pack w xs)).map id :=
    blocks_eq_unpack hm (fun bs hbs ↦ (hf bs hbs).trans (List.map_id _).symm) hlen
  rw [← blocks_take, hbs, hall, List.map_id, ← hxs, unpack_pack hbits hlt]

/-! ## Shifts and masks -/

theorem or_shiftLeft (i : ℕ) (h : a < 2 ^ i) : a ||| b <<< i = a + b * 2 ^ i := by
  rw [Nat.or_comm, ← Nat.shiftLeft_add_eq_or_of_lt h, Nat.shiftLeft_eq, Nat.add_comm]

theorem shiftLeft_mod (i k : ℕ) : a <<< i % 2 ^ (i + k) = (a % 2 ^ k) <<< i := by
  rw [Nat.shiftLeft_eq, Nat.shiftLeft_eq, Nat.pow_add, Nat.mul_comm a, Nat.mul_mod_mul_left,
    Nat.mul_comm]

/-! ## Testing all words at once

Masks and shifts applied to the packed number act on each word, as long as no bit crosses from one
word into the next. -/

section Bitwise

variable {op : ℕ → ℕ → ℕ} {p : Bool → Bool → Bool} {g : ℕ → ℕ}

theorem add_two_pow_mul_op (hbit : ∀ a b i, (op a b).testBit i = p (a.testBit i) (b.testBit i))
    (hlt : op a b < 2 ^ w) (x y : ℕ) (ha : a < 2 ^ w) (hb : b < 2 ^ w) :
    op (a + 2 ^ w * x) (b + 2 ^ w * y) = op a b + 2 ^ w * op x y := by
  refine Nat.eq_of_testBit_eq fun i ↦ ?_
  rw [hbit, Nat.add_comm a, Nat.add_comm b, Nat.add_comm (op a b),
    Nat.testBit_two_pow_mul_add _ ha, Nat.testBit_two_pow_mul_add _ hb,
    Nat.testBit_two_pow_mul_add _ hlt]
  split <;> rw [hbit]

/-- A bitwise operation on packed numbers works word by word. -/
theorem ofDigits_map_op (hbit : ∀ a b i, (op a b).testBit i = p (a.testBit i) (b.testBit i))
    (hlt : ∀ a b, a < 2 ^ w → b < 2 ^ w → op a b < 2 ^ w) (hzero : op 0 0 = 0)
    (hf : ∀ x ∈ xs, f x < 2 ^ w) (hg : ∀ x ∈ xs, g x < 2 ^ w) :
    op (Nat.ofDigits (2 ^ w) (xs.map f)) (Nat.ofDigits (2 ^ w) (xs.map g)) =
      Nat.ofDigits (2 ^ w) (xs.map fun x ↦ op (f x) (g x)) := by
  induction xs with
  | nil => exact hzero
  | cons x xs ih =>
    have hfx := hf x List.mem_cons_self
    have hgx := hg x List.mem_cons_self
    rw [List.map_cons, List.map_cons, List.map_cons, Nat.ofDigits_cons, Nat.ofDigits_cons,
      Nat.ofDigits_cons, add_two_pow_mul_op hbit (hlt _ _ hfx hgx) _ _ hfx hgx,
      ih (fun y hy ↦ hf y (List.mem_cons_of_mem x hy)) fun y hy ↦ hg y (List.mem_cons_of_mem x hy)]

theorem ofDigits_map_and (hf : ∀ x ∈ xs, f x < 2 ^ w) (hg : ∀ x ∈ xs, g x < 2 ^ w) :
    Nat.ofDigits (2 ^ w) (xs.map f) &&& Nat.ofDigits (2 ^ w) (xs.map g) =
      Nat.ofDigits (2 ^ w) (xs.map fun x ↦ f x &&& g x) :=
  ofDigits_map_op Nat.testBit_and (fun a _ _ ↦ Nat.and_lt_two_pow a) rfl hf hg

theorem ofDigits_map_or (hf : ∀ x ∈ xs, f x < 2 ^ w) (hg : ∀ x ∈ xs, g x < 2 ^ w) :
    Nat.ofDigits (2 ^ w) (xs.map f) ||| Nat.ofDigits (2 ^ w) (xs.map g) =
      Nat.ofDigits (2 ^ w) (xs.map fun x ↦ f x ||| g x) :=
  ofDigits_map_op Nat.testBit_or (fun _ _ ↦ Nat.or_lt_two_pow) rfl hf hg

end Bitwise

theorem ofDigits_map_shiftRight {k : ℕ}
    (hf : ∀ x ∈ xs, 2 ^ k ∣ f x) :
    Nat.ofDigits b (xs.map f) >>> k = Nat.ofDigits b (xs.map fun x ↦ f x >>> k) := by
  have hmul : Nat.ofDigits b (xs.map f) = 2 ^ k * Nat.ofDigits b (xs.map fun x ↦ f x >>> k) := by
    induction xs with
    | nil => simp
    | cons x xs ih =>
      have hx : f x = 2 ^ k * (f x >>> k) := by
        rw [Nat.shiftRight_eq_div_pow, Nat.mul_div_cancel' (hf x List.mem_cons_self)]
      rw [List.map_cons, List.map_cons, Nat.ofDigits_cons, Nat.ofDigits_cons,
        ih fun z hz ↦ hf z (List.mem_cons_of_mem x hz), mul_add, ← hx]
      ring
  rw [hmul, Nat.shiftRight_eq_div_pow, Nat.mul_div_cancel_left _ (Nat.two_pow_pos k)]

theorem ofDigits_eq_zero_iff (hb : 0 < b) :
    Nat.ofDigits b xs = 0 ↔ ∀ x ∈ xs, x = 0 := by
  induction xs with
  | nil => simp
  | cons x xs ih =>
    rw [Nat.ofDigits_cons, Nat.add_eq_zero_iff, Nat.mul_eq_zero, ih, List.forall_mem_cons]
    have hb' : b ≠ 0 := hb.ne'
    tauto

end Codec
