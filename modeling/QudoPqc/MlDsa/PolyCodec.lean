import QudoPqc.MlDsa.Encoders
import QudoPqc.MlDsa.Fips204

/-!
# OpenSSL's codecs against the specification

OpenSSL keeps the representatives in `[0, q)` of coefficients that the specification writes as
integers. On a polynomial in range every encoder is SimpleBitPack or BitPack, and every decoder
reads exactly the encodings of such polynomials: it rejects what is not one, and returns the
representatives otherwise (`ReadsPoly`).
-/

namespace MlDsa

open Codec
open Fips204 (bitPack encodeVec simpleBitPack)

namespace Ossl

variable {w g n b top : ℕ} {z : Poly ℤ}

/-! ## Whole polynomials -/

theorem polyEncode_eq_pack {f : List ℕ → Bytes} (word : ℕ → ℕ)
    (hm : 8 ∣ w * g) (hn : n * g = numCoeff)
    (hf : ∀ {ys : List ℕ}, ys.length = g → (∀ y ∈ ys, word y < 2 ^ w) → f ys = pack w (ys.map word))
    {p : Poly ℕ} (hp : ∀ i, word (p i) < 2 ^ w) :
    blocks f g n (List.ofFn p) = pack w ((List.ofFn p).map word) :=
  blocks_eq_pack hm.choose_spec (fun _ h ↦ h) (fun _ ↦ hf) (List.length_ofFn.trans hn.symm)
    (List.forall_mem_ofFn_iff.mpr hp)

/-- A loop over groups reads whole polynomials. -/
theorem reads_poly {f : Bytes → Option (List ℕ)} {m : ℕ} {P : ℕ → Prop} {word : ℕ → ℕ}
    (hm : w * g = 8 * m) (hn : n * g = numCoeff) (hlt : ∀ x, P x → word x < 2 ^ w)
    (hf : ReadsGroup f w g m P word) :
    Reads ((Packet.getBlocks f m n).map Poly.ofList) (fun p ↦ ∀ i, P (p i))
      (fun p ↦ pack w ((List.ofFn p).map word)) := by
  refine ((reads_getBlocks hm hlt hf n).map (g := List.ofFn) Poly.ofList_ofFn ?_).congr ?_ ?_
  · rintro xs ⟨hlen, -⟩
    exact Poly.ofFn_ofList (hlen.trans hn)
  · intro p
    rw [List.length_ofFn, List.forall_mem_ofFn_iff]
    exact and_iff_right hn.symm
  · exact fun _ _ ↦ rfl

theorem modSub_modSub {x : ℕ} (hb : b < q) (hx : x < q) : modSub b (modSub b x) = x := by
  have h : ∀ y, y < q → modSub b y = if y ≤ b then b - y else q + b - y := by
    intro y hy
    rw [modSub, reduceOnce]
    split_ifs <;> omega
  rw [h x hx, h _ (by split <;> omega)]
  split_ifs <;> omega

/-- The coefficients a signed encoding with offset `b` and words up to `top` takes. -/
def InRange (b top c : ℕ) : Prop := c < q ∧ modSub b c ≤ top

theorem exists_modSub_iff {c : ℕ} (hb : b < q) (hw : top < 2 ^ w) (hq : 2 ^ w ≤ q) :
    (∃ x, x < 2 ^ w ∧ x ≤ top ∧ modSub b x = c) ↔ InRange b top c := by
  constructor
  · rintro ⟨x, hx, htop, rfl⟩
    refine ⟨modSub_lt x hb, ?_⟩
    rwa [modSub_modSub hb (hx.trans_le hq)]
  · rintro ⟨hc, htop⟩
    exact ⟨modSub b c, htop.trans_lt hw, htop, modSub_modSub hb hc⟩

/-! ## Against the specification -/

theorem modSub_residue {c : ℤ} (hb : b < q) (hc : c ≤ b) (hc' : (b : ℤ) - c < q) :
    modSub b (c : ZMod q).val = ((b : ℤ) - c).toNat := by
  have hval : b = (b : ZMod q).val := (ZMod.val_natCast_of_lt hb).symm
  have hnn : 0 ≤ (b : ℤ) - c := by omega
  conv_lhs => rw [hval]
  rw [modSub_val, ← Int.cast_natCast b, ← Int.cast_sub, ← Nat.cast_inj (R := ℤ), ZMod.val_intCast,
    Int.emod_eq_of_lt hnn hc', Int.toNat_of_nonneg hnn]

theorem inRange_iff {c : ℕ} (hb : b < q) (htop : top < q) :
    InRange b top c ↔ ∃ z : ℤ, ((b : ℤ) - top ≤ z ∧ z ≤ b) ∧ c = (z : ZMod q).val := by
  constructor
  · rintro ⟨hc, hle⟩
    refine ⟨b - modSub b c, ⟨by omega, by omega⟩, ?_⟩
    refine eq_val_of_cast hc ?_
    have h := modSub_val (b : ZMod q) (c : ZMod q)
    rw [ZMod.val_natCast_of_lt hb, ZMod.val_natCast_of_lt hc] at h
    rw [Int.cast_sub, Int.cast_natCast, Int.cast_natCast, h, ZMod.natCast_zmod_val, sub_sub_cancel]
  · rintro ⟨z, ⟨hlo, hhi⟩, rfl⟩
    refine ⟨ZMod.val_lt _, ?_⟩
    rw [modSub_residue hb hhi (by omega)]
    omega

/-- The signed words of a polynomial in range are those of BitPack. -/
theorem pack_modSub_eq_bitPack (w : ℕ) (hb : b < q) (htop : top < q)
    (hz : ∀ i, (b : ℤ) - top ≤ z i ∧ z i ≤ b) :
    pack w ((List.ofFn z.repr).map (modSub b)) = bitPack b w z := by
  rw [bitPack, List.map_ofFn]
  congr 2
  funext i
  exact modSub_residue hb (hz i).2 (by have := (hz i).1; omega)

/-- `decode` reads exactly the encodings of polynomials with coefficients in `R`. -/
def ReadsPoly (decode : Packet (Poly ℕ)) (R : ℤ → Prop) (encode : Poly ℤ → Bytes) : Prop :=
  Parses decode fun enc p ↦ ∃ z : Poly ℤ, (∀ i, R (z i)) ∧ p = z.repr ∧ enc = encode z

/-- The same for coefficients between `b - top` and `b`, in words of `w` bits. -/
def ReadsBitPack (decode : Packet (Poly ℕ)) (b w top : ℕ) : Prop :=
  ReadsPoly decode (fun c ↦ (b : ℤ) - top ≤ c ∧ c ≤ b) (bitPack b w)

/-- A loop over groups of words `b - c`, of which the words up to `top` are accepted. -/
theorem readsBitPack {f : Bytes → Option (List ℕ)} {m : ℕ}
    (hfits : b < q ∧ top < 2 ^ w ∧ 2 ^ w ≤ q) (hm : w * g = 8 * m) (hn : n * g = numCoeff)
    (hf : ∀ {bs : Bytes}, bs.length = m → f bs =
      if ∀ x ∈ unpack w g bs, x ≤ top then some ((unpack w g bs).map (modSub b)) else none) :
    ReadsBitPack ((Packet.getBlocks f m n).map Poly.ofList) b w top := by
  obtain ⟨hb, hw, hq⟩ := hfits
  have htop : top < q := hw.trans_le hq
  have hgroup := readsGroup_of_unpack (· ≤ top) (modSub b) (modSub b) hm
    (fun x hx _ ↦ modSub_modSub hb (hx.trans_le hq)) fun b hb ↦ hf hb
  simp only [exists_modSub_iff hb hw hq] at hgroup
  intro bs p rest
  rw [reads_poly hm hn (fun x hx ↦ hx.2.trans_lt hw) hgroup]
  constructor
  · rintro ⟨hp, rfl⟩
    choose z hz hval using fun i ↦ (inRange_iff hb htop).mp (hp i)
    obtain rfl : p = Poly.repr z := funext hval
    exact ⟨_, ⟨z, hz, rfl, rfl⟩, congrArg (· ++ rest) (pack_modSub_eq_bitPack w hb htop hz)⟩
  · rintro ⟨enc, ⟨z, hz, rfl, rfl⟩, rfl⟩
    exact ⟨fun i ↦ (inRange_iff hb htop).mpr ⟨z i, hz i, rfl⟩,
      congrArg (· ++ rest) (pack_modSub_eq_bitPack w hb htop hz).symm⟩

/-- A loop over groups of coefficients that packs the words `b - c`. -/
theorem polyEncode_repr {e : List ℕ → Bytes} (hfits : b < q ∧ 2 ^ w ≤ q ∧ 8 ∣ w * g)
    (hn : n * g = numCoeff)
    (he : ∀ {ys : List ℕ}, ys.length = g → (∀ y ∈ ys, modSub b y < 2 ^ w) →
      e ys = pack w (ys.map (modSub b))) (hz : ∀ i, (b : ℤ) - 2 ^ w < z i ∧ z i ≤ b) :
    blocks e g n (List.ofFn z.repr) = bitPack b w z := by
  obtain ⟨hb, hq, hm⟩ := hfits
  have hpos := Nat.two_pow_pos w
  have hz' : ∀ i, (b : ℤ) - (2 ^ w - 1 : ℕ) ≤ z i ∧ z i ≤ b := by
    intro i
    obtain ⟨hlo, hhi⟩ := hz i
    push_cast [Nat.cast_sub hpos]
    exact ⟨by omega, hhi⟩
  rw [polyEncode_eq_pack (modSub b) hm hn he, pack_modSub_eq_bitPack w hb (by omega) hz']
  intro i
  have h : InRange b (2 ^ w - 1) (z.repr i) :=
    (inRange_iff hb (by omega)).mpr ⟨z i, hz' i, rfl⟩
  exact h.2.trans_lt (by omega)

theorem val_of_lt {c : ℤ} (h0 : 0 ≤ c) (hq : c < q) : (c : ZMod q).val = c.toNat := by
  rw [← Nat.cast_inj (R := ℤ), ZMod.val_intCast, Int.emod_eq_of_lt h0 hq, Int.toNat_of_nonneg h0]

/-- The words of a polynomial with coefficients in `[0, q)` are those of SimpleBitPack. -/
theorem pack_repr_eq_simpleBitPack (w : ℕ) (hz : ∀ i, 0 ≤ z i ∧ z i < q) :
    pack w ((List.ofFn z.repr).map id) = simpleBitPack w z := by
  rw [simpleBitPack, List.map_ofFn]
  congr 2
  funext i
  exact val_of_lt (hz i).1 (hz i).2

/-- A loop over groups of coefficients that packs them as they are. -/
theorem polyEncode_repr_simple {e : List ℕ → Bytes} (hfits : 2 ^ w ≤ q ∧ 8 ∣ w * g)
    (hn : n * g = numCoeff)
    (he : ∀ {ys : List ℕ}, ys.length = g → (∀ y ∈ ys, y < 2 ^ w) → e ys = pack w (ys.map id))
    (hz : ∀ i, 0 ≤ z i ∧ z i < 2 ^ w) :
    blocks e g n (List.ofFn z.repr) = simpleBitPack w z := by
  obtain ⟨hq, hm⟩ := hfits
  have hq' : (2 : ℤ) ^ w ≤ q := by exact_mod_cast hq
  have hz' : ∀ i, 0 ≤ z i ∧ z i < q := fun i ↦ ⟨(hz i).1, (hz i).2.trans_le hq'⟩
  rw [polyEncode_eq_pack id hm hn he, pack_repr_eq_simpleBitPack w hz']
  intro i
  obtain ⟨h0, hlt⟩ := hz i
  rw [Poly.repr, val_of_lt h0 (hz' i).2, id]
  zify
  rwa [Int.toNat_of_nonneg h0]

/-- `t1`: coefficients of ten bits. -/
theorem reads_polyDecode10Bits :
    ReadsPoly polyDecode10Bits (fun c ↦ 0 ≤ c ∧ c < 2 ^ 10) (simpleBitPack 10) := by
  have hgroup : ReadsGroup decode10Bits 10 4 5 (fun y ↦ ∃ x, x < 2 ^ 10 ∧ id x = y) id :=
    readsGroup_of_unpack_all id id rfl (fun _ _ ↦ rfl) fun b hb ↦ decode10Bits_eq hb
  have hP : ∀ y, (∃ x, x < 2 ^ 10 ∧ id x = y) ↔ y < 2 ^ 10 := fun y ↦ exists_eq_right
  simp only [hP] at hgroup
  have hlt : ∀ c : ℤ, c < 2 ^ 10 → c < q := fun c hc ↦ hc.trans (by rw [q_int]; norm_num)
  intro bs p rest
  rw [polyDecode10Bits, reads_poly (w := 10) rfl rfl (fun _ h ↦ h) hgroup]
  constructor
  · rintro ⟨hp, rfl⟩
    have hz : ∀ i, 0 ≤ (p i : ℤ) ∧ (p i : ℤ) < 2 ^ 10 := fun i ↦
      ⟨Int.natCast_nonneg _, by exact_mod_cast hp i⟩
    have hrepr : p = Poly.repr fun i ↦ (p i : ℤ) := funext fun i ↦
      ((val_of_lt (hz i).1 (hlt _ (hz i).2)).trans (Int.toNat_natCast _)).symm
    have hpack := pack_repr_eq_simpleBitPack 10 fun i ↦ ⟨(hz i).1, hlt _ (hz i).2⟩
    rw [← hrepr] at hpack
    exact ⟨_, ⟨_, hz, hrepr, rfl⟩, congrArg (· ++ rest) hpack⟩
  · rintro ⟨enc, ⟨z, hz, rfl, rfl⟩, rfl⟩
    refine ⟨fun i ↦ ?_, congrArg (· ++ rest)
      (pack_repr_eq_simpleBitPack 10 fun i ↦ ⟨(hz i).1, hlt _ (hz i).2⟩).symm⟩
    obtain ⟨h0, h10⟩ := hz i
    rw [Poly.repr, val_of_lt h0 (hlt _ h10)]
    omega

theorem polyEncode10Bits_repr (hz : ∀ i, 0 ≤ z i ∧ z i < 2 ^ 10) :
    polyEncode10Bits z.repr = simpleBitPack 10 z :=
  polyEncode_repr_simple (by decide) rfl encode10Bits_eq hz

theorem polyEncode6Bits_repr (hz : ∀ i, 0 ≤ z i ∧ z i < 2 ^ 6) :
    polyEncode6Bits z.repr = simpleBitPack 6 z :=
  polyEncode_repr_simple (by decide) rfl encode6Bits_eq hz

theorem polyEncode4Bits_repr (hz : ∀ i, 0 ≤ z i ∧ z i < 2 ^ 4) :
    polyEncode4Bits z.repr = simpleBitPack 4 z :=
  polyEncode_repr_simple (by decide) rfl encode4Bits_eq hz

theorem reads_polyDecodeSigned4 : ReadsBitPack polyDecodeSigned4 4 4 8 :=
  readsBitPack (by decide) rfl rfl decodeSigned4_eq

theorem reads_polyDecodeSigned2 : ReadsBitPack polyDecodeSigned2 2 3 4 :=
  readsBitPack (by decide) rfl rfl decodeSigned2_eq

/-- A decoder that accepts every word accepts the words up to the last one. -/
theorem ite_le_top (htop : top + 1 = 2 ^ w) (bs : Bytes) (a : Option (List ℕ)) :
    (if ∀ x ∈ unpack w g bs, x ≤ top then a else none) = a :=
  if_pos fun _ hx ↦ Nat.le_of_lt_succ ((unpack_lt hx).trans_eq htop.symm)

theorem reads_polyDecodeSignedTwoToPower12 :
    ReadsBitPack polyDecodeSignedTwoToPower12 (2 ^ 12) 13 (2 ^ 13 - 1) :=
  readsBitPack (by decide) rfl rfl fun hb ↦
    (decodeSignedTwoToPower12_eq hb).trans (ite_le_top rfl _ _).symm

theorem reads_polyDecodeSignedTwoToPower19 :
    ReadsBitPack polyDecodeSignedTwoToPower19 (2 ^ 19) 20 (2 ^ 20 - 1) :=
  readsBitPack (by decide) rfl rfl fun hb ↦
    (decodeSignedTwoToPower19_eq hb).trans (ite_le_top rfl _ _).symm

theorem reads_polyDecodeSignedTwoToPower17 :
    ReadsBitPack polyDecodeSignedTwoToPower17 (2 ^ 17) 18 (2 ^ 18 - 1) :=
  readsBitPack (by decide) rfl rfl fun hb ↦
    (decodeSignedTwoToPower17_eq hb).trans (ite_le_top rfl _ _).symm

theorem polyEncodeSigned4_repr (hz : ∀ i, |z i| ≤ 4) :
    polyEncodeSigned4 z.repr = bitPack 4 4 z :=
  polyEncode_repr (by decide) rfl encodeSigned4_eq fun i ↦ by
    have := abs_le.mp (hz i)
    push_cast
    omega

theorem polyEncodeSigned2_repr (hz : ∀ i, |z i| ≤ 2) :
    polyEncodeSigned2 z.repr = bitPack 2 3 z :=
  polyEncode_repr (by decide) rfl encodeSigned2_eq fun i ↦ by
    have := abs_le.mp (hz i)
    push_cast
    omega

theorem polyEncodeSignedTwoToPower12_repr
    (hz : ∀ i, -2 ^ 12 < z i ∧ z i ≤ 2 ^ 12) :
    polyEncodeSignedTwoToPower12 z.repr = bitPack (2 ^ 12) 13 z :=
  polyEncode_repr (by decide) rfl encodeSignedTwoToPower12_eq fun i ↦ by
    have := hz i
    push_cast
    omega

theorem polyEncodeSignedTwoToPower19_repr
    (hz : ∀ i, -2 ^ 19 < z i ∧ z i ≤ 2 ^ 19) :
    polyEncodeSignedTwoToPower19 z.repr = bitPack (2 ^ 19) 20 z :=
  polyEncode_repr (by decide) rfl encodeSignedTwoToPower19_eq fun i ↦ by
    have := hz i
    push_cast
    omega

theorem polyEncodeSignedTwoToPower17_repr
    (hz : ∀ i, -2 ^ 17 < z i ∧ z i ≤ 2 ^ 17) :
    polyEncodeSignedTwoToPower17 z.repr = bitPack (2 ^ 17) 18 z :=
  polyEncode_repr (by decide) rfl encodeSignedTwoToPower17_eq fun i ↦ by
    have := hz i
    push_cast
    omega

/-! ## The codecs of a parameter set -/

variable (v : Variant)

/-- The `encode_fn` of `ossl_ml_dsa_sk_encode`. -/
def etaEncode : Poly ℕ → Bytes := if v.eta = 4 then polyEncodeSigned4 else polyEncodeSigned2

/-- The `decode_fn` of `ossl_ml_dsa_sk_decode`. -/
def etaDecode : Packet (Poly ℕ) := if v.eta = 4 then polyDecodeSigned4 else polyDecodeSigned2

/-- The `encode_fn` of `ossl_ml_dsa_sig_encode`. -/
def zEncode : Poly ℕ → Bytes :=
  if v.gamma1 = gamma1TwoPower19 then polyEncodeSignedTwoToPower19 else polyEncodeSignedTwoToPower17

/-- The `decode_fn` of `ossl_ml_dsa_sig_decode`, which `ossl_ml_dsa_poly_decode_expand_mask` also
uses. -/
def zDecode : Packet (Poly ℕ) :=
  if v.gamma1 = gamma1TwoPower19 then polyDecodeSignedTwoToPower19 else polyDecodeSignedTwoToPower17

/-- The `encode_fn` of `ossl_ml_dsa_w1_encode`. -/
def w1EncodePoly : Poly ℕ → Bytes :=
  if v.gamma2 = gamma2QMinus1Div32 then polyEncode4Bits else polyEncode6Bits

theorem etaEncode_repr (hz : ∀ i, |z i| ≤ v.eta) :
    etaEncode v z.repr = bitPack v.eta v.etaBits z := by
  cases v with
  | mlDsa44 => exact polyEncodeSigned2_repr hz
  | mlDsa65 => exact polyEncodeSigned4_repr hz
  | mlDsa87 => exact polyEncodeSigned2_repr hz

theorem reads_etaDecode : ReadsBitPack (etaDecode v) v.eta v.etaBits (2 * v.eta) := by
  cases v with
  | mlDsa44 => exact reads_polyDecodeSigned2
  | mlDsa65 => exact reads_polyDecodeSigned4
  | mlDsa87 => exact reads_polyDecodeSigned2

theorem zEncode_repr (hz : ∀ i, -(v.gamma1 : ℤ) < z i ∧ z i ≤ v.gamma1) :
    zEncode v z.repr = bitPack v.gamma1 v.zBits z := by
  cases v with
  | mlDsa44 => exact polyEncodeSignedTwoToPower17_repr hz
  | mlDsa65 => exact polyEncodeSignedTwoToPower19_repr hz
  | mlDsa87 => exact polyEncodeSignedTwoToPower19_repr hz

theorem reads_zDecode : ReadsBitPack (zDecode v) v.gamma1 v.zBits (2 * v.gamma1 - 1) := by
  cases v with
  | mlDsa44 => exact reads_polyDecodeSignedTwoToPower17
  | mlDsa65 => exact reads_polyDecodeSignedTwoToPower19
  | mlDsa87 => exact reads_polyDecodeSignedTwoToPower19

theorem w1EncodePoly_repr (hz : ∀ i, 0 ≤ z i ∧ z i < v.m) :
    w1EncodePoly v z.repr = simpleBitPack v.w1Bits z := by
  cases v with
  | mlDsa44 => exact polyEncode6Bits_repr fun i ↦ ⟨(hz i).1, (hz i).2.trans (by decide)⟩
  | mlDsa65 => exact polyEncode4Bits_repr hz
  | mlDsa87 => exact polyEncode4Bits_repr hz

/-! ## Vectors -/

/-- Decoding a vector reads exactly the encodings of vectors in range. -/
theorem readsPoly_getVector {decode : Packet (Poly ℕ)} {R : ℤ → Prop}
    {encode : Poly ℤ → Bytes} (h : ReadsPoly decode R encode) (n : ℕ) (bs : Bytes)
    (p : PolyVec n ℕ) (rest : Bytes) :
    Packet.getVector decode n bs = some (p, rest) ↔
      ∃ z : PolyVec n ℤ, (∀ i j, R (z i j)) ∧ p = z.repr ∧
        bs = encodeVec encode z ++ rest := by
  rw [parses_getVector h]
  constructor
  · rintro ⟨enc, ⟨f, hf, rfl⟩, rfl⟩
    choose z hR hrepr henc using hf
    refine ⟨z, hR, funext hrepr, ?_⟩
    rw [encodeVec, funext henc]
  · rintro ⟨z, hR, rfl, rfl⟩
    exact ⟨_, ⟨_, fun i ↦ ⟨z i, hR i, rfl, rfl⟩, rfl⟩, rfl⟩

theorem encodeVec_repr {encode : Poly ℕ → Bytes} {encode' : Poly ℤ → Bytes}
    {z : PolyVec n ℤ} (h : ∀ i, encode (z i).repr = encode' (z i)) :
    encodeVec encode z.repr = encodeVec encode' z := by
  rw [encodeVec, encodeVec]
  exact congrArg _ (congrArg _ (funext h))

section Vectors

variable {v} {n : ℕ} (bs rest : Bytes) (p : PolyVec n ℕ)

theorem getVector_polyDecode10Bits :
    Packet.getVector polyDecode10Bits n bs = some (p, rest) ↔
      ∃ z : PolyVec n ℤ, (∀ i j, 0 ≤ z i j ∧ z i j < 2 ^ 10) ∧ p = z.repr ∧
        bs = encodeVec (simpleBitPack 10) z ++ rest :=
  readsPoly_getVector reads_polyDecode10Bits n bs p rest

theorem getVector_etaDecode :
    Packet.getVector (etaDecode v) n bs = some (p, rest) ↔
      ∃ z : PolyVec n ℤ, (∀ i j, |z i j| ≤ v.eta) ∧ p = z.repr ∧
        bs = encodeVec (bitPack v.eta v.etaBits) z ++ rest := by
  rw [readsPoly_getVector (reads_etaDecode v)]
  have hrange : ∀ c : ℤ, ((v.eta : ℤ) - (2 * v.eta : ℕ) ≤ c ∧ c ≤ v.eta) ↔ |c| ≤ v.eta := by
    intro c
    rw [abs_le]
    push_cast
    constructor <;> rintro ⟨h1, h2⟩ <;> constructor <;> linarith
  simp only [hrange]

theorem getVector_polyDecodeSignedTwoToPower12 :
    Packet.getVector polyDecodeSignedTwoToPower12 n bs = some (p, rest) ↔
      ∃ z : PolyVec n ℤ, (∀ i j, -2 ^ 12 < z i j ∧ z i j ≤ 2 ^ 12) ∧ p = z.repr ∧
        bs = encodeVec (bitPack (2 ^ 12) 13) z ++ rest := by
  rw [readsPoly_getVector reads_polyDecodeSignedTwoToPower12]
  have hrange : ∀ c : ℤ, (((2 ^ 12 : ℕ) : ℤ) - (2 ^ 13 - 1 : ℕ) ≤ c ∧ c ≤ (2 ^ 12 : ℕ)) ↔
      -2 ^ 12 < c ∧ c ≤ 2 ^ 12 := by
    intro c
    omega
  simp only [hrange]

theorem getVector_zDecode :
    Packet.getVector (zDecode v) n bs = some (p, rest) ↔
      ∃ z : PolyVec n ℤ, (∀ i j, -(v.gamma1 : ℤ) < z i j ∧ z i j ≤ v.gamma1) ∧ p = z.repr ∧
        bs = encodeVec (bitPack v.gamma1 v.zBits) z ++ rest := by
  rw [readsPoly_getVector (reads_zDecode v)]
  have hpos := v.beta_lt_gamma1
  have hrange : ∀ c : ℤ, ((v.gamma1 : ℤ) - (2 * v.gamma1 - 1 : ℕ) ≤ c ∧ c ≤ v.gamma1) ↔
      -(v.gamma1 : ℤ) < c ∧ c ≤ v.gamma1 := by
    intro c
    omega
  simp only [hrange]

variable {z : PolyVec n ℤ}

theorem encodeVec_polyEncode10Bits (hz : ∀ i j, 0 ≤ z i j ∧ z i j < 2 ^ 10) :
    encodeVec polyEncode10Bits z.repr =
      encodeVec (simpleBitPack 10) z :=
  encodeVec_repr fun i ↦ polyEncode10Bits_repr (hz i)

theorem encodeVec_etaEncode (hz : ∀ i j, |z i j| ≤ v.eta) :
    encodeVec (etaEncode v) z.repr =
      encodeVec (bitPack v.eta v.etaBits) z :=
  encodeVec_repr fun i ↦ etaEncode_repr v (hz i)

theorem encodeVec_polyEncodeSignedTwoToPower12 (hz : ∀ i j, -2 ^ 12 < z i j ∧ z i j ≤ 2 ^ 12) :
    encodeVec polyEncodeSignedTwoToPower12 z.repr =
      encodeVec (bitPack (2 ^ 12) 13) z :=
  encodeVec_repr fun i ↦ polyEncodeSignedTwoToPower12_repr (hz i)

theorem encodeVec_zEncode (hz : ∀ i j, -(v.gamma1 : ℤ) < z i j ∧ z i j ≤ v.gamma1) :
    encodeVec (zEncode v) z.repr =
      encodeVec (bitPack v.gamma1 v.zBits) z :=
  encodeVec_repr fun i ↦ zEncode_repr v (hz i)

end Vectors

end Ossl

end MlDsa
