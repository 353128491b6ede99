import QudoPqc.Codec.Packet
import QudoPqc.MlDsa.Rounding

/-!
# OpenSSL's polynomial codecs

The bit packing of `ml_dsa_encoders.c`. A coefficient enters a signed encoding as `mod_sub(b, c)`,
so the packed words of a coefficient between `b - 2 ^ w + 1` and `b` fill `w` bits. Every encoder
is a loop over groups of coefficients, every decoder a loop over groups of bytes; the decoders of
the short secret polynomials reject a word above `2 * eta`, all words of a group with one mask.

Here a group at a time: every encoder packs the words of its group and every decoder unpacks
them.
-/

namespace MlDsa

open Codec

namespace Ossl

variable {ys : List ℕ} {b : Bytes}

/-! ## Encoders -/

/-- One round of `poly_encode_4_bits`. -/
def encode4Bits : List ℕ → Bytes
  | [z0, z1] => [UInt8.ofNat (z0 ||| z1 <<< 4)]
  | _ => []

/-- `poly_encode_4_bits`. -/
def polyEncode4Bits (p : Poly ℕ) : Bytes := blocks encode4Bits 2 128 (List.ofFn p)

/-- One round of `poly_encode_6_bits`. -/
def encode6Bits : List ℕ → Bytes
  | [c0, c1, c2, c3] =>
    [UInt8.ofNat (c0 ||| c1 <<< 6), UInt8.ofNat (c1 >>> 2 ||| c2 <<< 4),
      UInt8.ofNat (c2 >>> 4 ||| c3 <<< 2)]
  | _ => []

/-- `poly_encode_6_bits`. -/
def polyEncode6Bits (p : Poly ℕ) : Bytes := blocks encode6Bits 4 64 (List.ofFn p)

/-- One round of `poly_encode_10_bits`. -/
def encode10Bits : List ℕ → Bytes
  | [c0, c1, c2, c3] =>
    [UInt8.ofNat c0, UInt8.ofNat (c0 >>> 8 ||| c1 <<< 2), UInt8.ofNat (c1 >>> 6 ||| c2 <<< 4),
      UInt8.ofNat (c2 >>> 4 ||| c3 <<< 6), UInt8.ofNat (c3 >>> 2)]
  | _ => []

/-- `poly_encode_10_bits`. -/
def polyEncode10Bits (p : Poly ℕ) : Bytes := blocks encode10Bits 4 64 (List.ofFn p)

/-- One round of `poly_encode_signed_4`. -/
def encodeSigned4 : List ℕ → Bytes
  | [c0, c1] =>
    let z := modSub 4 c0
    [UInt8.ofNat (z ||| modSub 4 c1 <<< 4)]
  | _ => []

/-- `poly_encode_signed_4`. -/
def polyEncodeSigned4 (p : Poly ℕ) : Bytes := blocks encodeSigned4 2 128 (List.ofFn p)

/-- One round of `poly_encode_signed_2`. -/
def encodeSigned2 : List ℕ → Bytes
  | [c0, c1, c2, c3, c4, c5, c6, c7] =>
    let z := modSub 2 c0 ||| modSub 2 c1 <<< 3 ||| modSub 2 c2 <<< 6 ||| modSub 2 c3 <<< 9 |||
      modSub 2 c4 <<< 12 ||| modSub 2 c5 <<< 15 ||| modSub 2 c6 <<< 18 ||| modSub 2 c7 <<< 21
    storeLe 2 z ++ storeLe 1 (z >>> 16)
  | _ => []

/-- `poly_encode_signed_2`. -/
def polyEncodeSigned2 (p : Poly ℕ) : Bytes := blocks encodeSigned2 8 32 (List.ofFn p)

/-- One round of `poly_encode_signed_two_to_power_12`, on 64-bit words. -/
def encodeSignedTwoToPower12 : List ℕ → Bytes
  | [c0, c1, c2, c3, c4, c5, c6, c7] =>
    let range := 2 ^ 12
    let z := modSub range c4
    let a1 := modSub range c0 ||| modSub range c1 <<< 13 ||| modSub range c2 <<< 26 |||
      modSub range c3 <<< 39 ||| z <<< 52 % 2 ^ 64
    let a2 := z >>> 12 ||| modSub range c5 <<< 1 ||| modSub range c6 <<< 14 |||
      modSub range c7 <<< 27
    storeLe 8 a1 ++ (storeLe 4 a2 ++ storeLe 1 (a2 >>> 32))
  | _ => []

/-- `poly_encode_signed_two_to_power_12`. -/
def polyEncodeSignedTwoToPower12 (p : Poly ℕ) : Bytes :=
  blocks encodeSignedTwoToPower12 8 32 (List.ofFn p)

/-- One round of `poly_encode_signed_two_to_power_19`, on 32-bit words. -/
def encodeSignedTwoToPower19 : List ℕ → Bytes
  | [c0, c1, c2, c3] =>
    let range := 2 ^ 19
    let z1 := modSub range c1
    let z2 := modSub range c3
    storeLe 4 (modSub range c0 ||| z1 <<< 20 % 2 ^ 32) ++
      (storeLe 4 (z1 >>> 12 ||| modSub range c2 <<< 8 ||| z2 <<< 28 % 2 ^ 32) ++
        storeLe 2 (z2 >>> 4))
  | _ => []

/-- `poly_encode_signed_two_to_power_19`. -/
def polyEncodeSignedTwoToPower19 (p : Poly ℕ) : Bytes :=
  blocks encodeSignedTwoToPower19 4 64 (List.ofFn p)

/-- One round of `poly_encode_signed_two_to_power_17`, on 32-bit words. -/
def encodeSignedTwoToPower17 : List ℕ → Bytes
  | [c0, c1, c2, c3] =>
    let range := 2 ^ 17
    let z1 := modSub range c1
    let z2 := modSub range c3
    storeLe 4 (modSub range c0 ||| z1 <<< 18 % 2 ^ 32) ++
      (storeLe 4 (z1 >>> 14 ||| modSub range c2 <<< 4 ||| z2 <<< 22 % 2 ^ 32) ++
        storeLe 1 (z2 >>> 10))
  | _ => []

/-- `poly_encode_signed_two_to_power_17`. -/
def polyEncodeSignedTwoToPower17 (p : Poly ℕ) : Bytes :=
  blocks encodeSignedTwoToPower17 4 64 (List.ofFn p)

/-! ## Decoders -/

/-- One round of `poly_decode_10_bits`. -/
def decode10Bits : Bytes → Option (List ℕ)
  | [b0, b1, b2, b3, b4] =>
    let v := loadLe [b0, b1, b2, b3]
    let w := b4.toNat
    some [v &&& 0x3ff, v >>> 10 &&& 0x3ff, v >>> 20 &&& 0x3ff, v >>> 30 ||| w <<< 2]
  | _ => none

/-- `poly_decode_10_bits`. -/
def polyDecode10Bits : Packet (Poly ℕ) := (Packet.getBlocks decode10Bits 5 64).map Poly.ofList

/-- One round of `poly_decode_signed_4`. -/
def decodeSigned4 : Bytes → Option (List ℕ)
  | [b0, b1, b2, b3] =>
    let v := loadLe [b0, b1, b2, b3]
    let msbs := v &&& 0x88888888
    let mask := msbs >>> 1 ||| msbs >>> 2 ||| msbs >>> 3
    if mask &&& v ≠ 0 then none
    else some [modSub 4 (v &&& 15), modSub 4 (v >>> 4 &&& 15), modSub 4 (v >>> 8 &&& 15),
      modSub 4 (v >>> 12 &&& 15), modSub 4 (v >>> 16 &&& 15), modSub 4 (v >>> 20 &&& 15),
      modSub 4 (v >>> 24 &&& 15), modSub 4 (v >>> 28)]
  | _ => none

/-- `poly_decode_signed_4`. -/
def polyDecodeSigned4 : Packet (Poly ℕ) := (Packet.getBlocks decodeSigned4 4 32).map Poly.ofList

/-- One round of `poly_decode_signed_2`. -/
def decodeSigned2 : Bytes → Option (List ℕ)
  | [b0, b1, b2] =>
    let v := loadLe [b0, b1, b2]
    let msbs := v &&& 0o44444444
    let mask := msbs >>> 1 ||| msbs >>> 2
    if mask &&& v ≠ 0 then none
    else some [modSub 2 (v &&& 7), modSub 2 (v >>> 3 &&& 7), modSub 2 (v >>> 6 &&& 7),
      modSub 2 (v >>> 9 &&& 7), modSub 2 (v >>> 12 &&& 7), modSub 2 (v >>> 15 &&& 7),
      modSub 2 (v >>> 18 &&& 7), modSub 2 (v >>> 21 &&& 7)]
  | _ => none

/-- `poly_decode_signed_2`. -/
def polyDecodeSigned2 : Packet (Poly ℕ) := (Packet.getBlocks decodeSigned2 3 32).map Poly.ofList

/-- One round of `poly_decode_signed_two_to_power_12`. -/
def decodeSignedTwoToPower12 : Bytes → Option (List ℕ)
  | [b0, b1, b2, b3, b4, b5, b6, b7, b8, b9, b10, b11, b12] =>
    let range := 2 ^ 12
    let a1 := loadLe [b0, b1, b2, b3, b4, b5, b6, b7]
    let a2 := loadLe [b8, b9, b10, b11]
    let b13 := b12.toNat
    some [modSub range (a1 &&& 0x1fff), modSub range (a1 >>> 13 &&& 0x1fff),
      modSub range (a1 >>> 26 &&& 0x1fff), modSub range (a1 >>> 39 &&& 0x1fff),
      modSub range (a1 >>> 52 ||| (a2 <<< 12 % 2 ^ 32 &&& 0x1fff)),
      modSub range (a2 >>> 1 &&& 0x1fff), modSub range (a2 >>> 14 &&& 0x1fff),
      modSub range (a2 >>> 27 ||| b13 <<< 5)]
  | _ => none

/-- `poly_decode_signed_two_to_power_12`. -/
def polyDecodeSignedTwoToPower12 : Packet (Poly ℕ) :=
  (Packet.getBlocks decodeSignedTwoToPower12 13 32).map Poly.ofList

/-- One round of `poly_decode_signed_two_to_power_19`. -/
def decodeSignedTwoToPower19 : Bytes → Option (List ℕ)
  | [b0, b1, b2, b3, b4, b5, b6, b7, b8, b9] =>
    let range := 2 ^ 19
    let a1 := loadLe [b0, b1, b2, b3]
    let a2 := loadLe [b4, b5, b6, b7]
    let a3 := loadLe [b8, b9]
    some [modSub range (a1 &&& 0xfffff), modSub range (a1 >>> 20 ||| (a2 &&& 0xff) <<< 12),
      modSub range (a2 >>> 8 &&& 0xfffff), modSub range (a2 >>> 28 ||| a3 <<< 4)]
  | _ => none

/-- `poly_decode_signed_two_to_power_19`. -/
def polyDecodeSignedTwoToPower19 : Packet (Poly ℕ) :=
  (Packet.getBlocks decodeSignedTwoToPower19 10 64).map Poly.ofList

/-- One round of `poly_decode_signed_two_to_power_17`. -/
def decodeSignedTwoToPower17 : Bytes → Option (List ℕ)
  | [b0, b1, b2, b3, b4, b5, b6, b7, b8] =>
    let range := 2 ^ 17
    let a1 := loadLe [b0, b1, b2, b3]
    let a2 := loadLe [b4, b5, b6, b7]
    let a3 := b8.toNat
    some [modSub range (a1 &&& 0x3ffff), modSub range (a1 >>> 18 ||| (a2 &&& 0xf) <<< 14),
      modSub range (a2 >>> 4 &&& 0x3ffff), modSub range (a2 >>> 22 ||| a3 <<< 10)]
  | _ => none

/-- `poly_decode_signed_two_to_power_17`. -/
def polyDecodeSignedTwoToPower17 : Packet (Poly ℕ) :=
  (Packet.getBlocks decodeSignedTwoToPower17 9 64).map Poly.ofList

/-! ## Encoders are packings -/

theorem encode4Bits_eq (hlen : ys.length = 2) (h : ∀ y ∈ ys, y < 2 ^ 4) :
    encode4Bits ys = pack 4 (ys.map id) := by
  match ys, hlen with
  | [z0, z1], _ =>
    simp only [List.forall_mem_cons] at h
    obtain ⟨h0, h1, -⟩ := h
    refine eq_pack rfl ?_
    rw [encode4Bits, or_shiftLeft 4 h0]
    simp only [loadLe, UInt8.toNat_ofNat', List.map_cons, List.map_nil, id, Nat.ofDigits_cons,
      Nat.ofDigits_nil]
    omega

theorem encode6Bits_eq (hlen : ys.length = 4) (h : ∀ y ∈ ys, y < 2 ^ 6) :
    encode6Bits ys = pack 6 (ys.map id) := by
  match ys, hlen with
  | [c0, c1, c2, c3], _ =>
    simp only [List.forall_mem_cons] at h
    obtain ⟨h0, h1, h2, h3, -⟩ := h
    refine eq_pack rfl ?_
    rw [encode6Bits, or_shiftLeft 6 h0, or_shiftLeft 4 (by omega), or_shiftLeft 2 (by omega)]
    simp only [loadLe, UInt8.toNat_ofNat', List.map_cons, List.map_nil, id, Nat.ofDigits_cons,
      Nat.ofDigits_nil]
    omega

theorem encode10Bits_eq (hlen : ys.length = 4) (h : ∀ y ∈ ys, y < 2 ^ 10) :
    encode10Bits ys = pack 10 (ys.map id) := by
  match ys, hlen with
  | [c0, c1, c2, c3], _ =>
    simp only [List.forall_mem_cons] at h
    obtain ⟨h0, h1, h2, h3, -⟩ := h
    refine eq_pack rfl ?_
    rw [encode10Bits, or_shiftLeft 2 (by omega), or_shiftLeft 4 (by omega),
      or_shiftLeft 6 (by omega)]
    simp only [loadLe, UInt8.toNat_ofNat', List.map_cons, List.map_nil, id, Nat.ofDigits_cons,
      Nat.ofDigits_nil]
    omega

theorem encodeSigned4_eq (hlen : ys.length = 2) (h : ∀ y ∈ ys, modSub 4 y < 2 ^ 4) :
    encodeSigned4 ys = pack 4 (ys.map (modSub 4)) := by
  match ys, hlen with
  | [c0, c1], _ =>
    simp only [List.forall_mem_cons] at h
    obtain ⟨h0, h1, -⟩ := h
    refine eq_pack rfl ?_
    rw [encodeSigned4, or_shiftLeft 4 h0]
    simp only [loadLe, UInt8.toNat_ofNat', List.map_cons, List.map_nil, Nat.ofDigits_cons,
      Nat.ofDigits_nil]
    omega

theorem encodeSigned2_eq (hlen : ys.length = 8) (h : ∀ y ∈ ys, modSub 2 y < 2 ^ 3) :
    encodeSigned2 ys = pack 3 (ys.map (modSub 2)) := by
  match ys, hlen with
  | [c0, c1, c2, c3, c4, c5, c6, c7], _ =>
    simp only [List.forall_mem_cons] at h
    obtain ⟨h0, h1, h2, h3, h4, h5, h6, h7, -⟩ := h
    refine eq_pack rfl ?_
    rw [encodeSigned2, loadLe_append, loadLe_storeLe, loadLe_storeLe, length_storeLe,
      or_shiftLeft 3 h0, or_shiftLeft 6 (by omega), or_shiftLeft 9 (by omega),
      or_shiftLeft 12 (by omega), or_shiftLeft 15 (by omega), or_shiftLeft 18 (by omega),
      or_shiftLeft 21 (by omega)]
    simp only [List.map_cons, List.map_nil, Nat.ofDigits_cons, Nat.ofDigits_nil]
    omega

theorem encodeSignedTwoToPower12_eq (hlen : ys.length = 8)
    (h : ∀ y ∈ ys, modSub (2 ^ 12) y < 2 ^ 13) :
    encodeSignedTwoToPower12 ys = pack 13 (ys.map (modSub (2 ^ 12))) := by
  match ys, hlen with
  | [c0, c1, c2, c3, c4, c5, c6, c7], _ =>
    simp only [List.forall_mem_cons] at h
    obtain ⟨h0, h1, h2, h3, h4, h5, h6, h7, -⟩ := h
    refine eq_pack rfl ?_
    rw [encodeSignedTwoToPower12, shiftLeft_mod 52 12, loadLe_append, loadLe_append, loadLe_storeLe,
      loadLe_storeLe,
      loadLe_storeLe, length_storeLe, length_storeLe, or_shiftLeft 13 h0,
      or_shiftLeft 26 (by omega), or_shiftLeft 39 (by omega), or_shiftLeft 52 (by omega),
      or_shiftLeft 1 (by omega), or_shiftLeft 14 (by omega), or_shiftLeft 27 (by omega)]
    simp only [List.map_cons, List.map_nil, Nat.ofDigits_cons, Nat.ofDigits_nil]
    omega

theorem encodeSignedTwoToPower19_eq (hlen : ys.length = 4)
    (h : ∀ y ∈ ys, modSub (2 ^ 19) y < 2 ^ 20) :
    encodeSignedTwoToPower19 ys = pack 20 (ys.map (modSub (2 ^ 19))) := by
  match ys, hlen with
  | [c0, c1, c2, c3], _ =>
    simp only [List.forall_mem_cons] at h
    obtain ⟨h0, h1, h2, h3, -⟩ := h
    refine eq_pack rfl ?_
    rw [encodeSignedTwoToPower19, shiftLeft_mod 20 12, shiftLeft_mod 28 4, loadLe_append,
      loadLe_append, loadLe_storeLe,
      loadLe_storeLe, loadLe_storeLe, length_storeLe, length_storeLe, or_shiftLeft 20 h0,
      or_shiftLeft 8 (by omega), or_shiftLeft 28 (by omega)]
    simp only [List.map_cons, List.map_nil, Nat.ofDigits_cons, Nat.ofDigits_nil]
    omega

theorem encodeSignedTwoToPower17_eq (hlen : ys.length = 4)
    (h : ∀ y ∈ ys, modSub (2 ^ 17) y < 2 ^ 18) :
    encodeSignedTwoToPower17 ys = pack 18 (ys.map (modSub (2 ^ 17))) := by
  match ys, hlen with
  | [c0, c1, c2, c3], _ =>
    simp only [List.forall_mem_cons] at h
    obtain ⟨h0, h1, h2, h3, -⟩ := h
    refine eq_pack rfl ?_
    rw [encodeSignedTwoToPower17, shiftLeft_mod 18 14, shiftLeft_mod 22 10, loadLe_append,
      loadLe_append, loadLe_storeLe,
      loadLe_storeLe, loadLe_storeLe, length_storeLe, length_storeLe, or_shiftLeft 18 h0,
      or_shiftLeft 4 (by omega), or_shiftLeft 22 (by omega)]
    simp only [List.map_cons, List.map_nil, Nat.ofDigits_cons, Nat.ofDigits_nil]
    omega

/-! ## Decoders are unpackings -/

theorem decode10Bits_eq (hlen : b.length = 5) :
    decode10Bits b = some ((unpack 10 4 b).map id) := by
  match b, hlen with
  | [b0, b1, b2, b3, b4], _ =>
    have hload : loadLe [b0, b1, b2, b3, b4] = loadLe [b0, b1, b2, b3] + 256 ^ 4 * loadLe [b4] :=
      loadLe_append [b0, b1, b2, b3] [b4]
    have hv : loadLe [b0, b1, b2, b3] < 256 ^ 4 := loadLe_lt _
    have hw := toNat_lt b4
    rw [decode10Bits, unpack, hload, loadLe_singleton]
    generalize loadLe [b0, b1, b2, b3] = v at hv
    generalize b4.toNat = w at hw
    rw [or_shiftLeft 2 (by omega)]
    simp only [Nat.and_two_pow_sub_one_eq_mod _ 10, split, List.map_id, Option.some.injEq,
      List.cons.injEq, and_true]
    omega

theorem decodeSignedTwoToPower12_eq (hlen : b.length = 13) :
    decodeSignedTwoToPower12 b = some ((unpack 13 8 b).map (modSub (2 ^ 12))) := by
  match b, hlen with
  | [b0, b1, b2, b3, b4, b5, b6, b7, b8, b9, b10, b11, b12], _ =>
    have hload : loadLe [b0, b1, b2, b3, b4, b5, b6, b7, b8, b9, b10, b11, b12] =
        loadLe [b0, b1, b2, b3, b4, b5, b6, b7] + 256 ^ 8 *
        (loadLe [b8, b9, b10, b11] + 256 ^ 4 * loadLe [b12]) :=
      loadLe_append₃ [b0, b1, b2, b3, b4, b5, b6, b7] [b8, b9, b10, b11] [b12]
    have h1 : loadLe [b0, b1, b2, b3, b4, b5, b6, b7] < 256 ^ 8 := loadLe_lt _
    have h2 : loadLe [b8, b9, b10, b11] < 256 ^ 4 := loadLe_lt _
    have h3 := toNat_lt b12
    refine congrArg (fun xs ↦ some (xs.map (modSub (2 ^ 12)))) (?_ : [_, _, _, _, _, _, _, _] = _)
    rw [unpack, hload, loadLe_singleton]
    generalize loadLe [b0, b1, b2, b3, b4, b5, b6, b7] = a1 at h1
    generalize loadLe [b8, b9, b10, b11] = a2 at h2
    generalize b12.toNat = a3 at h3
    have hmid : a2 <<< 12 % 2 ^ 32 % 2 ^ 13 = (a2 % 2) <<< 12 := by
      rw [Nat.shiftLeft_eq, Nat.shiftLeft_eq]
      omega
    simp only [Nat.and_two_pow_sub_one_eq_mod _ 13]
    rw [hmid, or_shiftLeft 12 (by omega), or_shiftLeft 5 (by omega)]
    simp only [split, List.cons.injEq, and_true]
    and_intros <;> omega

theorem decodeSignedTwoToPower19_eq (hlen : b.length = 10) :
    decodeSignedTwoToPower19 b = some ((unpack 20 4 b).map (modSub (2 ^ 19))) := by
  match b, hlen with
  | [b0, b1, b2, b3, b4, b5, b6, b7, b8, b9], _ =>
    have hload : loadLe [b0, b1, b2, b3, b4, b5, b6, b7, b8, b9] =
        loadLe [b0, b1, b2, b3] + 256 ^ 4 * (loadLe [b4, b5, b6, b7] + 256 ^ 4 * loadLe [b8, b9]) :=
      loadLe_append₃ [b0, b1, b2, b3] [b4, b5, b6, b7] [b8, b9]
    have h1 : loadLe [b0, b1, b2, b3] < 256 ^ 4 := loadLe_lt _
    have h2 : loadLe [b4, b5, b6, b7] < 256 ^ 4 := loadLe_lt _
    have h3 : loadLe [b8, b9] < 256 ^ 2 := loadLe_lt _
    refine congrArg (fun xs ↦ some (xs.map (modSub (2 ^ 19)))) (?_ : [_, _, _, _] = _)
    rw [unpack, hload]
    generalize loadLe [b0, b1, b2, b3] = a1 at h1
    generalize loadLe [b4, b5, b6, b7] = a2 at h2
    generalize loadLe [b8, b9] = a3 at h3
    simp only [Nat.and_two_pow_sub_one_eq_mod _ 20, Nat.and_two_pow_sub_one_eq_mod _ 8]
    rw [or_shiftLeft 12 (by omega), or_shiftLeft 4 (by omega)]
    simp only [split, List.cons.injEq, and_true]
    and_intros <;> omega

theorem decodeSignedTwoToPower17_eq (hlen : b.length = 9) :
    decodeSignedTwoToPower17 b = some ((unpack 18 4 b).map (modSub (2 ^ 17))) := by
  match b, hlen with
  | [b0, b1, b2, b3, b4, b5, b6, b7, b8], _ =>
    have hload : loadLe [b0, b1, b2, b3, b4, b5, b6, b7, b8] =
        loadLe [b0, b1, b2, b3] + 256 ^ 4 * (loadLe [b4, b5, b6, b7] + 256 ^ 4 * loadLe [b8]) :=
      loadLe_append₃ [b0, b1, b2, b3] [b4, b5, b6, b7] [b8]
    have h1 : loadLe [b0, b1, b2, b3] < 256 ^ 4 := loadLe_lt _
    have h2 : loadLe [b4, b5, b6, b7] < 256 ^ 4 := loadLe_lt _
    have h3 := toNat_lt b8
    refine congrArg (fun xs ↦ some (xs.map (modSub (2 ^ 17)))) (?_ : [_, _, _, _] = _)
    rw [unpack, hload, loadLe_singleton]
    generalize loadLe [b0, b1, b2, b3] = a1 at h1
    generalize loadLe [b4, b5, b6, b7] = a2 at h2
    generalize b8.toNat = a3 at h3
    simp only [Nat.and_two_pow_sub_one_eq_mod _ 18, Nat.and_two_pow_sub_one_eq_mod _ 4]
    rw [or_shiftLeft 14 (by omega), or_shiftLeft 10 (by omega)]
    simp only [split, List.cons.injEq, and_true]
    and_intros <;> omega

/-- The mask of `poly_decode_signed_4` is empty when no nibble exceeds 8. -/
theorem signed4_mask_eq_zero_iff {xs : List ℕ} (hlen : xs.length = 8) (h : ∀ x ∈ xs, x < 2 ^ 4) :
    let v := Nat.ofDigits (2 ^ 4) xs
    let msbs := v &&& 0x88888888
    ((msbs >>> 1 ||| msbs >>> 2 ||| msbs >>> 3) &&& v = 0 ↔ ∀ x ∈ xs, x ≤ 8) := by
  have hmask : (0x88888888 : ℕ) = Nat.ofDigits (2 ^ 4) (xs.map fun _ ↦ 8) := by
    rw [List.map_const', hlen]
    rfl
  have hid : Nat.ofDigits (2 ^ 4) xs = Nat.ofDigits (2 ^ 4) (xs.map fun x ↦ x) := by
    rw [List.map_id']
  have hdvd : ∀ x < 2 ^ 4, ∀ k ≤ 3, 2 ^ k ∣ x &&& 8 := by decide
  have hlt : ∀ x < 2 ^ 4, ∀ k ≤ 3, (x &&& 8) >>> k < 2 ^ 4 := by decide
  have hword : ∀ x < 2 ^ 4,
      ((x &&& 8) >>> 1 ||| (x &&& 8) >>> 2 ||| (x &&& 8) >>> 3) &&& x = 0 ↔ x ≤ 8 := by decide
  have hlt' : ∀ x < 2 ^ 4, (x &&& 8) >>> 1 ||| (x &&& 8) >>> 2 < 2 ^ 4 ∧
      (x &&& 8) >>> 1 ||| (x &&& 8) >>> 2 ||| (x &&& 8) >>> 3 < 2 ^ 4 := by decide
  dsimp only
  rw [hid, hmask, ofDigits_map_and h fun _ _ ↦ by decide,
    ofDigits_map_shiftRight fun x hx ↦ hdvd x (h x hx) 1 (by decide),
    ofDigits_map_shiftRight fun x hx ↦ hdvd x (h x hx) 2 (by decide),
    ofDigits_map_shiftRight fun x hx ↦ hdvd x (h x hx) 3 (by decide),
    ofDigits_map_or (fun x hx ↦ hlt x (h x hx) 1 (by decide)) fun x hx ↦
      hlt x (h x hx) 2 (by decide),
    ofDigits_map_or (fun x hx ↦ (hlt' x (h x hx)).1) fun x hx ↦ hlt x (h x hx) 3 (by decide),
    ofDigits_map_and (fun x hx ↦ (hlt' x (h x hx)).2) h, ofDigits_eq_zero_iff (by decide),
    List.forall_mem_map]
  exact forall₂_congr fun x hx ↦ hword x (h x hx)

theorem decodeSigned4_eq (hlen : b.length = 4) :
    decodeSigned4 b =
      if ∀ x ∈ unpack 4 8 b, x ≤ 8 then some ((unpack 4 8 b).map (modSub 4)) else none := by
  have hload : loadLe b = Nat.ofDigits (2 ^ 4) (unpack 4 8 b) :=
    (ofDigits_unpack (by rw [hlen])).symm
  have hiff := signed4_mask_eq_zero_iff (length_unpack 4 8 b) fun x hx ↦ unpack_lt hx
  rw [← hload] at hiff
  match b, hlen with
  | [b0, b1, b2, b3], _ =>
    have hv : loadLe [b0, b1, b2, b3] < 256 ^ 4 := loadLe_lt _
    rw [decodeSigned4, ite_not]
    refine if_congr hiff (congrArg (fun xs ↦ some (xs.map (modSub 4)))
      (?_ : [_, _, _, _, _, _, _, _] = _)) rfl
    rw [unpack]
    generalize loadLe [b0, b1, b2, b3] = v at hv
    simp only [Nat.and_two_pow_sub_one_eq_mod _ 4, split, List.cons.injEq,
      and_true, true_and]
    and_intros <;> omega

/-- The mask of `poly_decode_signed_2` is empty when no octal digit exceeds 4. -/
theorem signed2_mask_eq_zero_iff {xs : List ℕ} (hlen : xs.length = 8) (h : ∀ x ∈ xs, x < 2 ^ 3) :
    let v := Nat.ofDigits (2 ^ 3) xs
    let msbs := v &&& 0o44444444
    ((msbs >>> 1 ||| msbs >>> 2) &&& v = 0 ↔ ∀ x ∈ xs, x ≤ 4) := by
  have hmask : (0o44444444 : ℕ) = Nat.ofDigits (2 ^ 3) (xs.map fun _ ↦ 4) := by
    rw [List.map_const', hlen]
    rfl
  have hid : Nat.ofDigits (2 ^ 3) xs = Nat.ofDigits (2 ^ 3) (xs.map fun x ↦ x) := by
    rw [List.map_id']
  have hdvd : ∀ x < 2 ^ 3, ∀ k ≤ 2, 2 ^ k ∣ x &&& 4 := by decide
  have hlt : ∀ x < 2 ^ 3, ∀ k ≤ 2, (x &&& 4) >>> k < 2 ^ 3 := by decide
  have hlt' : ∀ x < 2 ^ 3, (x &&& 4) >>> 1 ||| (x &&& 4) >>> 2 < 2 ^ 3 := by decide
  have hword : ∀ x < 2 ^ 3, ((x &&& 4) >>> 1 ||| (x &&& 4) >>> 2) &&& x = 0 ↔ x ≤ 4 := by decide
  dsimp only
  rw [hid, hmask, ofDigits_map_and h fun _ _ ↦ by decide,
    ofDigits_map_shiftRight fun x hx ↦ hdvd x (h x hx) 1 (by decide),
    ofDigits_map_shiftRight fun x hx ↦ hdvd x (h x hx) 2 (by decide),
    ofDigits_map_or (fun x hx ↦ hlt x (h x hx) 1 (by decide)) fun x hx ↦
      hlt x (h x hx) 2 (by decide),
    ofDigits_map_and (fun x hx ↦ hlt' x (h x hx)) h, ofDigits_eq_zero_iff (by decide),
    List.forall_mem_map]
  exact forall₂_congr fun x hx ↦ hword x (h x hx)

theorem decodeSigned2_eq (hlen : b.length = 3) :
    decodeSigned2 b =
      if ∀ x ∈ unpack 3 8 b, x ≤ 4 then some ((unpack 3 8 b).map (modSub 2)) else none := by
  have hload : loadLe b = Nat.ofDigits (2 ^ 3) (unpack 3 8 b) :=
    (ofDigits_unpack (by rw [hlen])).symm
  have hiff := signed2_mask_eq_zero_iff (length_unpack 3 8 b) fun x hx ↦ unpack_lt hx
  rw [← hload] at hiff
  match b, hlen with
  | [b0, b1, b2], _ =>
    rw [decodeSigned2, ite_not]
    refine if_congr hiff (congrArg (fun xs ↦ some (xs.map (modSub 2)))
      (?_ : [_, _, _, _, _, _, _, _] = _)) rfl
    rw [unpack]
    generalize loadLe [b0, b1, b2] = v
    simp only [Nat.and_two_pow_sub_one_eq_mod _ 3, split, List.cons.injEq,
      and_true, true_and]
    and_intros <;> omega

end Ossl

end MlDsa
