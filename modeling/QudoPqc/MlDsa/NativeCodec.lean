import QudoPqc.MlDsa.Fips204

/-!
# The engine's polynomial codecs

The bit packing of `poly.c` and `poly_kl.c` in the engine, as far as signing and verification use
it. Every codec is a loop over groups with shifts and masks of its own, byte by byte where OpenSSL
reads and writes words of 32 bits. A cast to `uint8_t` drops the bits that the mask `0xFF` before
it drops, so only the cast is written.

Every packer is the packing of FIPS 204 for its range, and every unpacker gives back what such a
packing holds, also at the start of a longer buffer.
-/

namespace MlDsa

open Codec Fips204

namespace Native

variable {ys : List ℕ} {bs : Bytes} {w g n : ℕ} {v : Variant} {z : Poly ℤ}

/-! ## Packers -/

/-- The cast of an `int32_t` to `uint32_t`. -/
def uint32 (a : ℤ) : ℕ := (a % 2 ^ 32).toNat

/-- One round of `mld_polyz_pack` for ML-DSA-44. -/
def packZ17 : List ℕ → Bytes
  | [t0, t1, t2, t3] =>
    [UInt8.ofNat t0, UInt8.ofNat (t0 >>> 8), UInt8.ofNat (t0 >>> 16 ||| t1 <<< 2),
      UInt8.ofNat (t1 >>> 6), UInt8.ofNat (t1 >>> 14 ||| t2 <<< 4), UInt8.ofNat (t2 >>> 4),
      UInt8.ofNat (t2 >>> 12 ||| t3 <<< 6), UInt8.ofNat (t3 >>> 2), UInt8.ofNat (t3 >>> 10)]
  | _ => []

/-- One round of `mld_polyz_pack` for ML-DSA-65 and ML-DSA-87. -/
def packZ19 : List ℕ → Bytes
  | [t0, t1] =>
    [UInt8.ofNat t0, UInt8.ofNat (t0 >>> 8), UInt8.ofNat (t0 >>> 16 ||| t1 <<< 4),
      UInt8.ofNat (t1 >>> 4), UInt8.ofNat (t1 >>> 12)]
  | _ => []

/-- `mld_polyz_pack`. -/
def polyzPack (v : Variant) (a : Poly ℤ) : Bytes :=
  let t := List.ofFn fun i ↦ uint32 (v.gamma1 - a i)
  if v = .mlDsa44 then blocks packZ17 4 64 t else blocks packZ19 2 128 t

/-- One round of `mld_polyw1_pack` for ML-DSA-44. -/
def packW1Six : List ℕ → Bytes
  | [a0, a1, a2, a3] =>
    [UInt8.ofNat (a0 ||| a1 <<< 6), UInt8.ofNat (a1 >>> 2 ||| a2 <<< 4),
      UInt8.ofNat (a2 >>> 4 ||| a3 <<< 2)]
  | _ => []

/-- One round of `mld_polyw1_pack` for ML-DSA-65 and ML-DSA-87. -/
def packW1Four : List ℕ → Bytes
  | [a0, a1] => [UInt8.ofNat (a0 ||| a1 <<< 4)]
  | _ => []

/-- `mld_polyw1_pack`, of coefficients that are not negative. -/
def polyw1Pack (v : Variant) (a : Poly ℤ) : Bytes :=
  let t := List.ofFn fun i ↦ uint32 (a i)
  if v = .mlDsa44 then blocks packW1Six 4 64 t else blocks packW1Four 2 128 t

/-! ## Unpackers -/

/-- The masked words of one round of `mld_polyz_unpack_c` for ML-DSA-44. -/
def unpackZ17 : Bytes → List ℕ
  | [a0, a1, a2, a3, a4, a5, a6, a7, a8] =>
    [(a0.toNat ||| a1.toNat <<< 8 ||| a2.toNat <<< 16) &&& 0x3FFFF,
      (a2.toNat >>> 2 ||| a3.toNat <<< 6 ||| a4.toNat <<< 14) &&& 0x3FFFF,
      (a4.toNat >>> 4 ||| a5.toNat <<< 4 ||| a6.toNat <<< 12) &&& 0x3FFFF,
      (a6.toNat >>> 6 ||| a7.toNat <<< 2 ||| a8.toNat <<< 10) &&& 0x3FFFF]
  | _ => []

/-- The words of one round of `mld_polyz_unpack_c` for ML-DSA-65 and ML-DSA-87; the second is not
masked. -/
def unpackZ19 : Bytes → List ℕ
  | [a0, a1, a2, a3, a4] =>
    [(a0.toNat ||| a1.toNat <<< 8 ||| a2.toNat <<< 16) &&& 0xFFFFF,
      a2.toNat >>> 4 ||| a3.toNat <<< 4 ||| a4.toNat <<< 12]
  | _ => []

/-- `mld_polyz_unpack`. -/
def polyzUnpack (v : Variant) (a : Bytes) : Poly ℤ :=
  let r := if v = .mlDsa44 then blocks unpackZ17 9 64 a else blocks unpackZ19 5 128 a
  Poly.ofList (r.map fun c : ℕ ↦ (v.gamma1 : ℤ) - c)

/-- The masked words of one round of `mld_polyeta_unpack` for `eta = 2`. -/
def unpackEta2 : Bytes → List ℕ
  | [a0, a1, a2] =>
    [a0.toNat >>> 0 &&& 7, a0.toNat >>> 3 &&& 7, (a0.toNat >>> 6 ||| a1.toNat <<< 2) &&& 7,
      a1.toNat >>> 1 &&& 7, a1.toNat >>> 4 &&& 7, (a1.toNat >>> 7 ||| a2.toNat <<< 1) &&& 7,
      a2.toNat >>> 2 &&& 7, a2.toNat >>> 5 &&& 7]
  | _ => []

/-- The words of one round of `mld_polyeta_unpack` for `eta = 4`. -/
def unpackEta4 : Bytes → List ℕ
  | [a0] => [a0.toNat &&& 0x0F, a0.toNat >>> 4]
  | _ => []

/-- `mld_polyeta_unpack`. -/
def polyetaUnpack (v : Variant) (a : Bytes) : Poly ℤ :=
  let r := if v.eta = 2 then blocks unpackEta2 3 32 a else blocks unpackEta4 1 128 a
  Poly.ofList (r.map fun c : ℕ ↦ (v.eta : ℤ) - c)

/-- The masked words of one round of `mld_polyt0_unpack`. -/
def unpackT0 : Bytes → List ℕ
  | [a0, a1, a2, a3, a4, a5, a6, a7, a8, a9, a10, a11, a12] =>
    [(a0.toNat ||| a1.toNat <<< 8) &&& 0x1FFF,
      (a1.toNat >>> 5 ||| a2.toNat <<< 3 ||| a3.toNat <<< 11) &&& 0x1FFF,
      (a3.toNat >>> 2 ||| a4.toNat <<< 6) &&& 0x1FFF,
      (a4.toNat >>> 7 ||| a5.toNat <<< 1 ||| a6.toNat <<< 9) &&& 0x1FFF,
      (a6.toNat >>> 4 ||| a7.toNat <<< 4 ||| a8.toNat <<< 12) &&& 0x1FFF,
      (a8.toNat >>> 1 ||| a9.toNat <<< 7) &&& 0x1FFF,
      (a9.toNat >>> 6 ||| a10.toNat <<< 2 ||| a11.toNat <<< 10) &&& 0x1FFF,
      (a11.toNat >>> 3 ||| a12.toNat <<< 5) &&& 0x1FFF]
  | _ => []

/-- `mld_polyt0_unpack`. -/
def polyt0Unpack (a : Bytes) : Poly ℤ :=
  Poly.ofList ((blocks unpackT0 13 32 a).map fun c : ℕ ↦ 2 ^ (dBits - 1) - (c : ℤ))

/-- One round of `mld_polyt1_unpack`. -/
def unpackT1 : Bytes → List ℕ
  | [a0, a1, a2, a3, a4] =>
    [(a0.toNat >>> 0 ||| a1.toNat <<< 8) &&& 0x3FF, (a1.toNat >>> 2 ||| a2.toNat <<< 6) &&& 0x3FF,
      (a2.toNat >>> 4 ||| a3.toNat <<< 4) &&& 0x3FF, (a3.toNat >>> 6 ||| a4.toNat <<< 2) &&& 0x3FF]
  | _ => []

/-- `mld_polyt1_unpack`. -/
def polyt1Unpack (a : Bytes) : Poly ℤ :=
  Poly.ofList ((blocks unpackT1 5 64 a).map fun c : ℕ ↦ (c : ℤ))

/-! ## One group -/

-- Byte by byte: comparing the two numbers as a whole is too much at once for nine bytes.
theorem packZ17_eq (hlen : ys.length = 4) (h : ∀ y ∈ ys, y < 2 ^ 18) :
    packZ17 ys = pack 18 ys := by
  match ys, hlen with
  | [t0, t1, t2, t3], _ =>
    simp only [List.forall_mem_cons] at h
    obtain ⟨h0, h1, h2, h3, -⟩ := h
    have hbytes : 18 * [t0, t1, t2, t3].length / 8 = 9 := by simp
    rw [pack, hbytes, packZ17, or_shiftLeft 2 (by omega), or_shiftLeft 4 (by omega),
      or_shiftLeft 6 (by omega)]
    simp only [storeLe, Nat.div_div_eq_div_mul, Nat.ofDigits_cons, Nat.ofDigits_nil,
      List.cons.injEq, and_true]
    and_intros <;> exact ofNat_eq_ofNat (by omega)

theorem packZ19_eq (hlen : ys.length = 2) (h : ∀ y ∈ ys, y < 2 ^ 20) :
    packZ19 ys = pack 20 ys := by
  match ys, hlen with
  | [t0, t1], _ =>
    simp only [List.forall_mem_cons] at h
    obtain ⟨h0, h1, -⟩ := h
    refine eq_pack rfl ?_
    rw [packZ19, or_shiftLeft 4 (by omega)]
    simp only [loadLe, UInt8.toNat_ofNat', Nat.ofDigits_cons, Nat.ofDigits_nil]
    omega

theorem packW1Six_eq (hlen : ys.length = 4) (h : ∀ y ∈ ys, y < 2 ^ 6) :
    packW1Six ys = pack 6 ys := by
  match ys, hlen with
  | [a0, a1, a2, a3], _ =>
    simp only [List.forall_mem_cons] at h
    obtain ⟨h0, h1, h2, h3, -⟩ := h
    refine eq_pack rfl ?_
    rw [packW1Six, or_shiftLeft 6 h0, or_shiftLeft 4 (by omega), or_shiftLeft 2 (by omega)]
    simp only [loadLe, UInt8.toNat_ofNat', Nat.ofDigits_cons, Nat.ofDigits_nil]
    omega

theorem packW1Four_eq (hlen : ys.length = 2) (h : ∀ y ∈ ys, y < 2 ^ 4) :
    packW1Four ys = pack 4 ys := by
  match ys, hlen with
  | [a0, a1], _ =>
    simp only [List.forall_mem_cons] at h
    obtain ⟨h0, h1, -⟩ := h
    refine eq_pack rfl ?_
    rw [packW1Four, or_shiftLeft 4 h0]
    simp only [loadLe, UInt8.toNat_ofNat', Nat.ofDigits_cons, Nat.ofDigits_nil]
    omega

theorem unpackZ17_eq (hlen : bs.length = 9) : unpackZ17 bs = unpack 18 4 bs := by
  match bs, hlen with
  | [a0, a1, a2, a3, a4, a5, a6, a7, a8], _ =>
    have h0 := toNat_lt a0
    have h1 := toNat_lt a1
    have h2 := toNat_lt a2
    have h3 := toNat_lt a3
    have h4 := toNat_lt a4
    have h5 := toNat_lt a5
    have h6 := toNat_lt a6
    have h7 := toNat_lt a7
    rw [unpackZ17, or_shiftLeft 8 h0, or_shiftLeft 16 (by omega), or_shiftLeft 6 (by omega),
      or_shiftLeft 14 (by omega), or_shiftLeft 4 (by omega), or_shiftLeft 12 (by omega),
      or_shiftLeft 2 (by omega), or_shiftLeft 10 (by omega)]
    simp only [Nat.and_two_pow_sub_one_eq_mod _ 18, unpack, loadLe, split, List.cons.injEq,
      and_true]
    omega

theorem unpackZ19_eq (hlen : bs.length = 5) : unpackZ19 bs = unpack 20 2 bs := by
  match bs, hlen with
  | [a0, a1, a2, a3, a4], _ =>
    have h0 := toNat_lt a0
    have h1 := toNat_lt a1
    have h2 := toNat_lt a2
    have h3 := toNat_lt a3
    have h4 := toNat_lt a4
    rw [unpackZ19, or_shiftLeft 8 h0, or_shiftLeft 16 (by omega), or_shiftLeft 4 (by omega),
      or_shiftLeft 12 (by omega)]
    simp only [Nat.and_two_pow_sub_one_eq_mod _ 20, unpack, loadLe, split, List.cons.injEq,
      and_true]
    omega

theorem unpackEta2_eq (hlen : bs.length = 3) : unpackEta2 bs = unpack 3 8 bs := by
  match bs, hlen with
  | [a0, a1, a2], _ =>
    have h0 := toNat_lt a0
    have h1 := toNat_lt a1
    have h2 := toNat_lt a2
    rw [unpackEta2, or_shiftLeft 2 (by omega), or_shiftLeft 1 (by omega)]
    simp only [Nat.and_two_pow_sub_one_eq_mod _ 3, unpack, loadLe, split, List.cons.injEq,
      and_true]
    omega

theorem unpackEta4_eq (hlen : bs.length = 1) : unpackEta4 bs = unpack 4 2 bs := by
  match bs, hlen with
  | [a0], _ =>
    have h0 := toNat_lt a0
    simp only [unpackEta4, Nat.and_two_pow_sub_one_eq_mod _ 4, unpack, loadLe, split,
      List.cons.injEq, and_true]
    omega

theorem unpackT0_eq (hlen : bs.length = 13) : unpackT0 bs = unpack 13 8 bs := by
  match bs, hlen with
  | [a0, a1, a2, a3, a4, a5, a6, a7, a8, a9, a10, a11, a12], _ =>
    have h0 := toNat_lt a0
    have h1 := toNat_lt a1
    have h2 := toNat_lt a2
    have h3 := toNat_lt a3
    have h4 := toNat_lt a4
    have h5 := toNat_lt a5
    have h6 := toNat_lt a6
    have h7 := toNat_lt a7
    have h8 := toNat_lt a8
    have h9 := toNat_lt a9
    have h10 := toNat_lt a10
    have h11 := toNat_lt a11
    rw [unpackT0, or_shiftLeft 8 h0, or_shiftLeft 3 (by omega), or_shiftLeft 11 (by omega),
      or_shiftLeft 6 (by omega), or_shiftLeft 1 (by omega), or_shiftLeft 9 (by omega),
      or_shiftLeft 4 (by omega), or_shiftLeft 12 (by omega), or_shiftLeft 7 (by omega),
      or_shiftLeft 2 (by omega), or_shiftLeft 10 (by omega), or_shiftLeft 5 (by omega)]
    simp only [Nat.and_two_pow_sub_one_eq_mod _ 13, unpack, loadLe, split,
      Nat.div_div_eq_div_mul, List.cons.injEq, and_true]
    and_intros <;> omega

theorem unpackT1_eq (hlen : bs.length = 5) : unpackT1 bs = unpack 10 4 bs := by
  match bs, hlen with
  | [a0, a1, a2, a3, a4], _ =>
    have h0 := toNat_lt a0
    have h1 := toNat_lt a1
    have h2 := toNat_lt a2
    have h3 := toNat_lt a3
    rw [unpackT1, or_shiftLeft 8 (by omega), or_shiftLeft 6 (by omega), or_shiftLeft 4 (by omega),
      or_shiftLeft 2 (by omega)]
    simp only [Nat.and_two_pow_sub_one_eq_mod _ 10, unpack, loadLe, split, List.cons.injEq,
      and_true]
    omega

/-! ## Polynomials -/

theorem uint32_eq {a : ℤ} (hw : w ≤ 32) (h0 : 0 ≤ a) (h : a < 2 ^ w) :
    uint32 a = a.toNat ∧ uint32 a < 2 ^ w := by
  have hpow : (2 : ℤ) ^ w ≤ 2 ^ 32 := pow_le_pow_right₀ (by decide) hw
  rw [uint32, Int.emod_eq_of_lt h0 (h.trans_le hpow)]
  refine ⟨rfl, ?_⟩
  zify
  rwa [Int.toNat_of_nonneg h0]

/-- A loop that packs group by group, on the words of a polynomial. -/
theorem blocks_ofFn {f : List ℕ → Bytes} (hm : 8 ∣ w * g) (hn : n * g = numCoeff)
    (hf : ∀ {ys : List ℕ}, ys.length = g → (∀ y ∈ ys, y < 2 ^ w) → f ys = pack w ys)
    {p : Poly ℕ} (hp : ∀ i, p i < 2 ^ w) : blocks f g n (List.ofFn p) = pack w (List.ofFn p) := by
  have hall : blocks f g n (List.ofFn p) = pack w ((List.ofFn p).map id) :=
    blocks_eq_pack hm.choose_spec (fun _ h ↦ h)
    (fun ys hlen hys ↦ (hf hlen hys).trans (congrArg _ (List.map_id ys).symm))
    (List.length_ofFn.trans hn.symm) (List.forall_mem_ofFn_iff.mpr hp)
  rw [hall, List.map_id]

theorem blocks_uint32 {f : List ℕ → Bytes} {p : Poly ℤ}
    (hf : ∀ {ys : List ℕ}, ys.length = g → (∀ y ∈ ys, y < 2 ^ w) → f ys = pack w ys)
    (hp : ∀ i, 0 ≤ p i ∧ p i < 2 ^ w) (hw : w ≤ 32 := by decide) (hm : 8 ∣ w * g := by decide)
    (hn : n * g = numCoeff := by rfl) :
    blocks f g n (List.ofFn fun i ↦ uint32 (p i)) = pack w (List.ofFn fun i ↦ (p i).toNat) := by
  have hword := fun i ↦ uint32_eq hw (hp i).1 (hp i).2
  rw [blocks_ofFn hm hn hf fun i ↦ (hword i).2]
  simp only [fun i ↦ (hword i).1]

theorem polyzPack_eq
    (hz : ∀ i, -(v.gamma1 : ℤ) < z i ∧ z i ≤ v.gamma1) :
    polyzPack v z = bitPack v.gamma1 v.zBits z := by
  cases v with
  | mlDsa44 =>
    refine blocks_uint32 (w := 18) packZ17_eq fun i ↦ ?_
    have := hz i
    simp only [Variant.gamma1, Variant.params, gamma1TwoPower17] at this ⊢
    omega
  | mlDsa65 =>
    refine blocks_uint32 (w := 20) packZ19_eq fun i ↦ ?_
    have := hz i
    simp only [Variant.gamma1, Variant.params, gamma1TwoPower19] at this ⊢
    omega
  | mlDsa87 =>
    refine blocks_uint32 (w := 20) packZ19_eq fun i ↦ ?_
    have := hz i
    simp only [Variant.gamma1, Variant.params, gamma1TwoPower19] at this ⊢
    omega

theorem polyw1Pack_eq {w1 : Poly ℤ} (hw1 : ∀ i, 0 ≤ w1 i ∧ w1 i < v.m) :
    polyw1Pack v w1 = simpleBitPack v.w1Bits w1 := by
  cases v with
  | mlDsa44 =>
    exact blocks_uint32 (w := 6) packW1Six_eq fun i ↦
      ⟨(hw1 i).1, (hw1 i).2.trans (by decide)⟩
  | mlDsa65 => exact blocks_uint32 (w := 4) packW1Four_eq hw1
  | mlDsa87 => exact blocks_uint32 (w := 4) packW1Four_eq hw1

/-- A loop that unpacks group by group gives back the packed words of a polynomial. -/
theorem ofList_blocks {f : Bytes → List ℕ} {m : ℕ} (hm : w * g = 8 * m)
    (hn : n * g = numCoeff)
    (hf : ∀ {bs : Bytes}, bs.length = m → f bs = unpack w g bs)
    {p : Poly ℕ} (hp : ∀ i, p i < 2 ^ w) (hbs : bs.take (n * m) = pack w (List.ofFn p))
    (value : ℕ → ℤ) : Poly.ofList ((blocks f m n bs).map value) = fun i ↦ value (p i) := by
  rw [blocks_eq_of_take_eq_pack hm (fun _ ↦ hf) (List.length_ofFn.trans hn.symm)
    (List.forall_mem_ofFn_iff.mpr hp) hbs, List.map_ofFn, Poly.ofList_ofFn]
  rfl

/-- The same for words `b - c`. -/
theorem ofList_blocks_sub {f : Bytes → List ℕ} {m b : ℕ} (hm : w * g = 8 * m)
    (hn : n * g = numCoeff)
    (hf : ∀ {bs : Bytes}, bs.length = m → f bs = unpack w g bs)
      (hz : ∀ i, (b : ℤ) - 2 ^ w < z i ∧ z i ≤ b)
    (hbs : bs.take (n * m) = bitPack b w z) :
    Poly.ofList ((blocks f m n bs).map fun c : ℕ ↦ (b : ℤ) - c) = z := by
  have hword : ∀ i, (((b : ℤ) - z i).toNat : ℤ) = b - z i := fun i ↦
    Int.toNat_of_nonneg (by have := hz i; omega)
  have hlt : ∀ i, ((b : ℤ) - z i).toNat < 2 ^ w := by
    intro i
    zify
    rw [hword]
    have := hz i
    omega
  rw [ofList_blocks hm hn hf hlt hbs]
  funext i
  rw [hword, sub_sub_cancel]

theorem polyzUnpack_eq
    (hz : ∀ i, -(v.gamma1 : ℤ) < z i ∧ z i ≤ v.gamma1)
    (hbs : bs.take (32 * v.zBits) = bitPack v.gamma1 v.zBits z) :
    polyzUnpack v bs = z := by
  cases v with
  | mlDsa44 => exact ofList_blocks_sub (w := 18) rfl rfl unpackZ17_eq hz hbs
  | mlDsa65 => exact ofList_blocks_sub (w := 20) rfl rfl unpackZ19_eq hz hbs
  | mlDsa87 => exact ofList_blocks_sub (w := 20) rfl rfl unpackZ19_eq hz hbs

theorem polyetaUnpack_eq {s : Poly ℤ}
    (hs : ∀ i, |s i| ≤ v.eta)
    (hbs : bs.take (32 * v.etaBits) = bitPack v.eta v.etaBits s) :
    polyetaUnpack v bs = s := by
  have hs' : ∀ i, (v.eta : ℤ) - 2 ^ v.etaBits < s i ∧ s i ≤ v.eta := by
    intro i
    have hroom : 2 * (v.eta : ℤ) < 2 ^ v.etaBits := by cases v <;> decide
    have := abs_le.mp (hs i)
    omega
  cases v with
  | mlDsa44 => exact ofList_blocks_sub (w := 3) rfl rfl unpackEta2_eq hs' hbs
  | mlDsa65 => exact ofList_blocks_sub (w := 4) rfl rfl unpackEta4_eq hs' hbs
  | mlDsa87 => exact ofList_blocks_sub (w := 3) rfl rfl unpackEta2_eq hs' hbs

theorem polyt0Unpack_eq {t0 : Poly ℤ}
    (ht0 : ∀ i, -2 ^ 12 < t0 i ∧ t0 i ≤ 2 ^ 12)
    (hbs : bs.take 416 = bitPack (2 ^ 12) 13 t0) : polyt0Unpack bs = t0 :=
  ofList_blocks_sub (w := 13) (b := 2 ^ 12) rfl rfl unpackT0_eq ht0 hbs

theorem polyt1Unpack_eq {t1 : Poly ℤ}
    (ht1 : ∀ i, 0 ≤ t1 i ∧ t1 i < 2 ^ 10)
    (hbs : bs.take 320 = simpleBitPack 10 t1) : polyt1Unpack bs = t1 := by
  have hlt : ∀ i, (t1 i).toNat < 2 ^ 10 := fun i ↦ by
    have := ht1 i
    omega
  rw [polyt1Unpack, ofList_blocks (w := 10) rfl rfl unpackT1_eq hlt hbs]
  funext i
  exact Int.toNat_of_nonneg (ht1 i).1

end Native

end MlDsa
