import QudoPqc.Codec.Packing

/-!
# Reading packets

A decoder consumes a byte string from the left and may fail. `Packet` is that monad, with
`getBytes` as its only primitive, `getBlocks` as the loop that decodes a fixed number of
groups and `getVector` as the loop that decodes a fixed number of items.

`Reads p Valid encode` is the specification of such a decoder: `p` accepts exactly the encodings
of valid values, each with the value it encodes. A decoder that satisfies it is sound, complete
and rejects every other encoding of a value; two decoders with the same `Valid` and `encode` are
equal.
-/

namespace Codec

universe u v

variable {α : Type u} {β : Type v}

/-- A decoder: the rest of the input is threaded through, failure is `none`. -/
abbrev Packet (α : Type u) : Type u := Bytes → Option (α × Bytes)

variable {bs rest : Bytes} {p : Packet α} {f : Bytes → Option (List α)} {w g m : ℕ}
  {Valid : α → Prop} {encode : α → Bytes}

namespace Packet

/-- Decode nothing. -/
def ret (a : α) : Packet α := fun bs ↦ some (a, bs)

/-- Decode with `p`, then with what `f` makes of the result. -/
def bind (p : Packet α) (f : α → Packet β) : Packet β := fun bs ↦
  (p bs).bind fun r ↦ f r.1 r.2

/-- Decode with `p` and apply `f` to the result. -/
def map (f : α → β) (p : Packet α) : Packet β := p.bind fun a ↦ ret (f a)

/-- The next `n` bytes; fails when there are fewer. -/
def getBytes (n : ℕ) : Packet Bytes := fun bs ↦
  if n ≤ bs.length then some (bs.take n, bs.drop n) else none

/-- `n` rounds of a loop that takes `m` bytes and decodes them with `f`. -/
def getBlocks (f : Bytes → Option (List α)) (m : ℕ) : ℕ → Packet (List α)
  | 0 => ret []
  | n + 1 => (getBytes m).bind fun b ↦ fun bs ↦
      (f b).bind fun xs ↦ (getBlocks f m n).map (xs ++ ·) bs

/-- `n` items in a row. -/
def getVector (p : Packet α) : (n : ℕ) → Packet (Fin n → α)
  | 0 => ret Fin.elim0
  | n + 1 => p.bind fun a ↦ (getVector p n).map (Fin.cons a)

theorem ret_eq_some {a b : α} :
    ret a bs = some (b, rest) ↔ a = b ∧ bs = rest := by
  rw [ret, Option.some.injEq, Prod.mk.injEq]

theorem bind_eq_some {f : α → Packet β} {b : β} :
    p.bind f bs = some (b, rest) ↔ ∃ a mid, p bs = some (a, mid) ∧ f a mid = some (b, rest) := by
  rw [bind, Option.bind_eq_some_iff, Prod.exists]

theorem bind_of_eq_some (f : α → Packet β) {mid : Bytes} {a : α}
    (h : p bs = some (a, mid)) : p.bind f bs = f a mid := by
  rw [bind, h, Option.bind_some]

theorem map_eq_some {f : α → β} {b : β} :
    p.map f bs = some (b, rest) ↔ ∃ a, p bs = some (a, rest) ∧ f a = b := by
  rw [map, bind_eq_some]
  constructor
  · rintro ⟨a, mid, hp, hret⟩
    obtain ⟨rfl, rfl⟩ := ret_eq_some.mp hret
    exact ⟨a, hp, rfl⟩
  · rintro ⟨a, hp, rfl⟩
    exact ⟨a, rest, hp, rfl⟩

end Packet

open Packet

/-! ## The specification of a decoder -/

/-- `p` accepts exactly the encodings of valid values. -/
def Reads (p : Packet α) (Valid : α → Prop) (encode : α → Bytes) : Prop :=
  ∀ bs a rest, p bs = some (a, rest) ↔ Valid a ∧ bs = encode a ++ rest

theorem reads_getBytes (n : ℕ) : Reads (getBytes n) (fun b ↦ b.length = n) id := by
  intro bs b rest
  rw [getBytes, Option.ite_none_right_eq_some, Option.some.injEq, Prod.mk.injEq]
  constructor
  · rintro ⟨hn, rfl, rfl⟩
    exact ⟨List.length_take_of_le hn, (List.take_append_drop n bs).symm⟩
  · rintro ⟨rfl, rfl⟩
    simp

theorem getBytes_append {n : ℕ} {b : Bytes} (h : b.length = n) (rest : Bytes) :
    getBytes n (b ++ rest) = some (b, rest) :=
  (reads_getBytes n _ _ _).mpr ⟨h, rfl⟩

/-- One group of a packed encoding: `f` accepts exactly the packed groups of `g` words. -/
def ReadsGroup (f : Bytes → Option (List α)) (w g m : ℕ) (P : α → Prop) (word : α → ℕ) :
    Prop :=
  ∀ b : Bytes, b.length = m → ∀ xs,
    f b = some xs ↔ xs.length = g ∧ (∀ x ∈ xs, P x) ∧ b = pack w (xs.map word)

/-- A group is read back when its words are accepted one by one. -/
theorem readsGroup_of_unpack (ok : ℕ → Prop)
    [DecidablePred ok] (value : ℕ → α) (word : α → ℕ) (hm : w * g = 8 * m)
    (hinv : ∀ x, x < 2 ^ w → ok x → word (value x) = x)
    (hf : ∀ b : Bytes, b.length = m → f b =
      if ∀ x ∈ unpack w g b, ok x then some ((unpack w g b).map value) else none) :
    ReadsGroup f w g m (fun y ↦ ∃ x, x < 2 ^ w ∧ ok x ∧ value x = y) word := by
  intro b hb xs
  rw [hf b hb, Option.ite_none_right_eq_some, Option.some.injEq]
  constructor
  · rintro ⟨hok, rfl⟩
    have hback : (unpack w g b).map (word ∘ value) = unpack w g b := by
      conv_rhs => rw [← List.map_id (unpack w g b)]
      exact List.map_congr_left fun x hx ↦ hinv x (unpack_lt hx) (hok x hx)
    refine ⟨by rw [List.length_map, length_unpack], ?_, ?_⟩
    · intro y hy
      obtain ⟨x, hx, rfl⟩ := List.mem_map.mp hy
      exact ⟨x, unpack_lt hx, hok x hx, rfl⟩
    · rw [List.map_map, hback, pack_unpack (hm.trans (congrArg _ hb.symm))]
  · rintro ⟨rfl, hP, rfl⟩
    have hwords : ∀ x ∈ xs.map word, x < 2 ^ w ∧ ok x ∧ value x ∈ xs := by
      intro x hx
      obtain ⟨y, hy, rfl⟩ := List.mem_map.mp hx
      obtain ⟨x, hlt, hok, rfl⟩ := hP y hy
      rw [hinv x hlt hok]
      exact ⟨hlt, hok, hy⟩
    have hun : unpack w xs.length (pack w (xs.map word)) = xs.map word := by
      have h := unpack_pack (show w * (xs.map word).length = 8 * m by rw [List.length_map, hm])
        fun x hx ↦ (hwords x hx).1
      rwa [List.length_map] at h
    rw [hun]
    refine ⟨fun x hx ↦ (hwords x hx).2.1, ?_⟩
    rw [List.map_map]
    conv_rhs => rw [← List.map_id xs]
    refine List.map_congr_left fun y hy ↦ ?_
    obtain ⟨x, hlt, hok, rfl⟩ := hP y hy
    rw [Function.comp_apply, hinv x hlt hok, id]

/-- A group whose words are all accepted. -/
theorem readsGroup_of_unpack_all (value : ℕ → α)
    (word : α → ℕ) (hm : w * g = 8 * m) (hinv : ∀ x, x < 2 ^ w → word (value x) = x)
    (hf : ∀ b : Bytes, b.length = m → f b = some ((unpack w g b).map value)) :
    ReadsGroup f w g m (fun y ↦ ∃ x, x < 2 ^ w ∧ value x = y) word := by
  have h := readsGroup_of_unpack (fun _ ↦ True) value word hm (fun x hx _ ↦ hinv x hx)
    fun b hb ↦ (hf b hb).trans (if_pos fun _ _ ↦ trivial).symm
  simpa only [true_and] using h

theorem reads_getBlocks (hm : w * g = 8 * m)
    {P : α → Prop} {word : α → ℕ} (hlt : ∀ x, P x → word x < 2 ^ w)
    (hf : ReadsGroup f w g m P word) (n : ℕ) :
    Reads (getBlocks f m n) (fun xs ↦ xs.length = n * g ∧ ∀ x ∈ xs, P x)
      (fun xs ↦ pack w (xs.map word)) := by
  induction n with
  | zero =>
    intro bs xs rest
    beta_reduce
    rw [getBlocks, ret_eq_some, Nat.zero_mul, List.length_eq_zero_iff]
    constructor
    · rintro ⟨rfl, rfl⟩
      exact ⟨⟨rfl, by simp⟩, by simp [pack, storeLe]⟩
    · rintro ⟨⟨rfl, -⟩, rfl⟩
      exact ⟨rfl, by simp [pack, storeLe]⟩
  | succ n ih =>
    intro bs xs rest
    -- a group of `g` valid words is packed on its own
    have happ : ∀ as ys : List α, as.length = g → (∀ x ∈ as, P x) →
        pack w ((as ++ ys).map word) = pack w (as.map word) ++ pack w (ys.map word) := by
      intro as ys hlen hP
      rw [List.map_append, pack_append _ (by rw [List.length_map, hlen, hm])]
      intro x hx
      obtain ⟨y, hy, rfl⟩ := List.mem_map.mp hx
      exact hlt y (hP y hy)
    have hsize : ∀ as : List α, as.length = g → (pack w (as.map word)).length = m := by
      intro as hlen
      rw [length_pack, List.length_map, hlen, hm, Nat.mul_div_cancel_left m (by decide : 0 < 8)]
    rw [getBlocks, bind_eq_some]
    constructor
    · rintro ⟨b, mid, hb, hrest⟩
      obtain ⟨hlen, rfl⟩ := (reads_getBytes m bs b mid).mp hb
      obtain ⟨as, has, hmap⟩ := Option.bind_eq_some_iff.mp hrest
      obtain ⟨ys, hys, rfl⟩ := map_eq_some.mp hmap
      obtain ⟨hg, hP, rfl⟩ := (hf b hlen as).mp has
      obtain ⟨⟨hn, hQ⟩, rfl⟩ := (ih _ _ _).mp hys
      refine ⟨⟨by rw [List.length_append, hg, hn, Nat.succ_mul, Nat.add_comm], ?_⟩, ?_⟩
      · intro x hx
        exact (List.mem_append.mp hx).elim (hP x) (hQ x)
      · beta_reduce
        rw [happ _ _ hg hP, List.append_assoc, id]
    · rintro ⟨⟨hlen, hP⟩, rfl⟩
      have hg : (xs.take g).length = g := by
        rw [List.length_take, hlen, Nat.succ_mul]
        omega
      have hn : (xs.drop g).length = n * g := by
        rw [List.length_drop, hlen, Nat.succ_mul]
        omega
      have hPt : ∀ x ∈ xs.take g, P x := fun x hx ↦ hP x (List.mem_of_mem_take hx)
      refine ⟨pack w ((xs.take g).map word), pack w ((xs.drop g).map word) ++ rest, ?_, ?_⟩
      · refine (reads_getBytes m _ _ _).mpr ⟨hsize _ hg, ?_⟩
        beta_reduce
        rw [id, ← List.append_assoc, ← happ _ _ hg hPt, List.take_append_drop]
      · refine Option.bind_eq_some_iff.mpr ⟨xs.take g, (hf _ (hsize _ hg) _).mpr ⟨hg, hPt, rfl⟩, ?_⟩
        refine map_eq_some.mpr ⟨xs.drop g, (ih _ _ _).mpr ⟨⟨hn, ?_⟩, rfl⟩, ?_⟩
        · exact fun x hx ↦ hP x (List.mem_of_mem_drop hx)
        · exact List.take_append_drop g xs

/-- `p` accepts exactly the byte strings related to some value. -/
def Parses (p : Packet α) (R : Bytes → α → Prop) : Prop :=
  ∀ bs a rest, p bs = some (a, rest) ↔ ∃ enc, R enc a ∧ bs = enc ++ rest

theorem parses_getVector {R : Bytes → α → Prop} (hp : Parses p R) (n : ℕ) :
    Parses (getVector p n) fun enc v ↦
      ∃ f : Fin n → Bytes, (∀ i, R (f i) (v i)) ∧ enc = (List.ofFn f).flatten := by
  induction n with
  | zero =>
    intro bs v rest
    rw [getVector, ret_eq_some]
    constructor
    · rintro ⟨rfl, rfl⟩
      exact ⟨[], ⟨Fin.elim0, fun i ↦ i.elim0, rfl⟩, rfl⟩
    · rintro ⟨enc, ⟨f, -, rfl⟩, rfl⟩
      exact ⟨funext fun i ↦ i.elim0, rfl⟩
  | succ n ih =>
    intro bs v rest
    rw [getVector, bind_eq_some]
    constructor
    · rintro ⟨a, mid, ha, hmap⟩
      obtain ⟨e, hea, rfl⟩ := (hp _ _ _).mp ha
      obtain ⟨w, hw, rfl⟩ := map_eq_some.mp hmap
      obtain ⟨enc, ⟨f, hf, rfl⟩, rfl⟩ := (ih _ _ _).mp hw
      refine ⟨_, ⟨Fin.cons e f, Fin.cases hea hf, rfl⟩, ?_⟩
      simp [List.ofFn_succ]
    · rintro ⟨enc, ⟨f, hf, rfl⟩, rfl⟩
      rw [List.ofFn_succ, List.flatten_cons, List.append_assoc]
      refine ⟨v 0, _, (hp _ _ _).mpr ⟨f 0, hf 0, rfl⟩, map_eq_some.mpr ⟨Fin.tail v, ?_, ?_⟩⟩
      · exact (ih _ _ _).mpr ⟨_, ⟨Fin.tail f, fun i ↦ hf i.succ, rfl⟩, rfl⟩
      · exact Fin.cons_self_tail v

/-- Reading items in a row. -/
theorem Reads.getVector
    (hp : Reads p Valid encode) (n : ℕ) :
    Reads (getVector p n) (fun v ↦ ∀ i, Valid (v i))
      (fun v ↦ (List.ofFn fun i ↦ encode (v i)).flatten) := by
  have hparses : Parses p fun enc a ↦ Valid a ∧ enc = encode a := by
    intro bs a rest
    rw [hp]
    constructor
    · rintro ⟨hv, rfl⟩
      exact ⟨encode a, ⟨hv, rfl⟩, rfl⟩
    · rintro ⟨_, ⟨hv, rfl⟩, rfl⟩
      exact ⟨hv, rfl⟩
  intro bs v rest
  rw [parses_getVector hparses]
  constructor
  · rintro ⟨_, ⟨f, hf, rfl⟩, rfl⟩
    refine ⟨fun i ↦ (hf i).1, ?_⟩
    rw [funext fun i ↦ (hf i).2]
  · rintro ⟨hv, rfl⟩
    exact ⟨_, ⟨_, fun i ↦ ⟨hv i, rfl⟩, rfl⟩, rfl⟩

/-- Reading into another representation: `f` and `g` are inverse on the valid values. -/
theorem Reads.map
    (hp : Reads p Valid encode) {f : α → β} {g : β → α} (hfg : ∀ b, f (g b) = b)
    (hgf : ∀ a, Valid a → g (f a) = a) :
    Reads (p.map f) (fun b ↦ Valid (g b)) (fun b ↦ encode (g b)) := by
  intro bs b rest
  beta_reduce
  rw [map_eq_some]
  constructor
  · rintro ⟨a, ha, rfl⟩
    obtain ⟨hv, rfl⟩ := (hp _ _ _).mp ha
    rw [hgf a hv]
    exact ⟨hv, rfl⟩
  · rintro ⟨hv, rfl⟩
    exact ⟨g b, (hp _ _ _).mpr ⟨hv, rfl⟩, hfg b⟩

theorem Reads.congr {Valid' : α → Prop} {encode' : α → Bytes}
    (hp : Reads p Valid encode) (hV : ∀ a, Valid a ↔ Valid' a)
    (he : ∀ a, Valid a → encode a = encode' a) : Reads p Valid' encode' := by
  intro bs a rest
  rw [hp, ← hV]
  exact and_congr_right fun hv ↦ by rw [he a hv]

end Codec
