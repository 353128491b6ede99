import QudoPqc.Codec.Tlv

/-!
# ASN.1 lengths and status codes

`asn1_encode_length` and `asn1_decode_length`, of which each interop file has a copy. The writer
stops at three bytes of length, so that it writes a length modulo `2 ^ 24`; every reader accepts up
to four bytes, in any spelling. The copy of the reader in `slhdsa_interop.c` also compares the
length with what is left and is defined there.
-/

namespace Interop

open Codec Codec.Packet

/-- The status codes other than success that do not stem from a NULL argument; `bufferTooSmall`
comes with the value left in the caller's length variable. -/
inductive Failure
  | invalidArg
  | decode
  | bufferTooSmall (len : ℕ)
  /-- A status of the engine, or of an allocation. -/
  | engine
  deriving DecidableEq, Repr

/-- `asn1_encode_length`. -/
def asn1EncodeLength (len : ℕ) : Bytes :=
  if len < 128 then [UInt8.ofNat len]
  else if len ≤ 0xFF then [0x81, UInt8.ofNat len]
  else if len ≤ 0xFFFF then [0x82, UInt8.ofNat (len >>> 8), UInt8.ofNat (len &&& 0xFF)]
  else
    [0x83, UInt8.ofNat (len >>> 16), UInt8.ofNat (len >>> 8 &&& 0xFF), UInt8.ofNat (len &&& 0xFF)]

/-- `asn1_decode_length`. -/
def asn1DecodeLength : Packet ℕ := getByte.bind fun first ↦
  if first.toNat < 128 then ret first.toNat
  else
    let numBytes := first.toNat &&& 0x7F
    (require (¬(numBytes = 0 ∨ numBytes > 4))).bind fun _ ↦
      (getBytes numBytes).map fun bs ↦ bs.foldl (fun len b ↦ len <<< 8 ||| b.toNat) 0

/-- A value with the length that `asn1_encode_length` writes. -/
def tlv (tag : UInt8) (contents : Bytes) : Bytes :=
  tag :: (asn1EncodeLength contents.length ++ contents)

/-! ## Writing lengths -/

/-- The writer stops at three bytes: what it writes is the length modulo `2 ^ 24`. -/
theorem isLength_asn1EncodeLength_mod (len : ℕ) :
    IsLength (asn1EncodeLength len) (len % 2 ^ 24) := by
  have hmask (n : ℕ) : UInt8.ofNat (n &&& 0xFF) = UInt8.ofNat n := by
    rw [Nat.and_two_pow_sub_one_eq_mod _ 8, UInt8.ofNat_mod_size]
  simp only [asn1EncodeLength, hmask, Nat.shiftRight_eq_div_pow]
  split_ifs with h1 h2 h3
  · have hlen : (UInt8.ofNat len).toNat = len % 2 ^ 24 := by
      rw [UInt8.toNat_ofNat_of_lt' (h1.trans (by decide))]
      omega
    conv_rhs => rw [← hlen]
    exact .short (by omega)
  · have hload : loadBe [UInt8.ofNat len] = len % 2 ^ 24 := by
      simp [loadBe]
      omega
    conv_rhs => rw [← hload]
    exact .long rfl (by simp)
  · have hload : loadBe [UInt8.ofNat (len / 2 ^ 8), UInt8.ofNat len] = len % 2 ^ 24 := by
      simp [loadBe]
      omega
    conv_rhs => rw [← hload]
    exact .long rfl (by simp)
  · have hload : loadBe [UInt8.ofNat (len / 2 ^ 16), UInt8.ofNat (len / 2 ^ 8), UInt8.ofNat len] =
        len % 2 ^ 24 := by
      simp [loadBe]
      omega
    conv_rhs => rw [← hload]
    exact .long rfl (by simp)

theorem isLength_asn1EncodeLength {len : ℕ} (h : len < 2 ^ 24) :
    IsLength (asn1EncodeLength len) len := by
  conv_rhs => rw [← Nat.mod_eq_of_lt h]
  exact isLength_asn1EncodeLength_mod len

theorem length_asn1EncodeLength_le (len : ℕ) : (asn1EncodeLength len).length ≤ 4 := by
  unfold asn1EncodeLength
  split_ifs <;> simp

theorem length_tlv (tag : UInt8) (contents : Bytes) :
    (tlv tag contents).length = 1 + (asn1EncodeLength contents.length).length +
    contents.length := by
  rw [tlv, List.length_cons, List.length_append]
  omega

theorem length_tlv_le (tag : UInt8) (contents : Bytes) :
    (tlv tag contents).length ≤ contents.length + 5 := by
  have := length_asn1EncodeLength_le contents.length
  rw [length_tlv]
  omega

/-- The identifiers of the three algorithms have nine bytes. -/
theorem tlv_oid {oid : Bytes} (h : oid.length = 9) : tlv 0x06 oid = 0x06 :: 0x09 :: oid := by
  rw [tlv, h]
  rfl

/-! ## Reading lengths -/

theorem foldl_shift_or (bs : Bytes) (n : ℕ) :
    bs.foldl (fun len b ↦ len <<< 8 ||| b.toNat) n =
      bs.foldl (fun len b ↦ len * 256 + b.toNat) n := by
  induction bs generalizing n with
  | nil => rfl
  | cons b bs ih =>
    have hbyte : b.toNat < 2 ^ 8 := b.toNat_lt
    rw [List.foldl_cons, List.foldl_cons, ih, ← Nat.shiftLeft_add_eq_or_of_lt hbyte,
      Nat.shiftLeft_eq]

/-- The reader accepts every spelling of a length in at most five bytes. -/
theorem asn1DecodeLength_eq_some {bs rest : Bytes} {n : ℕ} :
    asn1DecodeLength bs = some (n, rest) ↔
      ∃ octets, IsLength octets n ∧ octets.length ≤ 5 ∧ bs = octets ++ rest := by
  rw [asn1DecodeLength, bind_eq_some]
  constructor
  · rintro ⟨first, mid, hfirst, hrest⟩
    obtain rfl := getByte_eq_some.mp hfirst
    have hbyte := first.toNat_lt
    split at hrest
    · next hshort =>
      obtain ⟨rfl, rfl⟩ := ret_eq_some.mp hrest
      exact ⟨[first], .short hshort, by simp, rfl⟩
    · next hlong =>
      have hnum : first.toNat &&& 0x7F = first.toNat - 128 := by
        rw [Nat.and_two_pow_sub_one_eq_mod _ 7]
        omega
      simp only [hnum, bind_eq_some, require_eq_some, map_eq_some, getBytes_eq_some] at hrest
      obtain ⟨-, mid, ⟨hrange, rfl⟩, bs, ⟨hlen, rfl⟩, rfl⟩ := hrest
      refine ⟨first :: bs, ?_, ?_, rfl⟩
      · rw [foldl_shift_or]
        refine .long (by omega) ?_
        rintro rfl
        rw [List.length_nil] at hlen
        omega
      · rw [List.length_cons]
        omega
  · rintro ⟨octets, hoctets, hle, rfl⟩
    cases hoctets with
    | @short b hb => exact ⟨b, rest, rfl, by rw [if_pos hb, ret]⟩
    | @long b bs hb hne =>
      have hpos := List.length_pos_of_ne_nil hne
      have hbyte := b.toNat_lt
      have hnum : b.toNat &&& 0x7F = bs.length := by
        rw [Nat.and_two_pow_sub_one_eq_mod _ 7]
        omega
      rw [List.length_cons] at hle
      refine ⟨b, bs ++ rest, rfl, ?_⟩
      rw [if_neg (by omega)]
      simp only [hnum, bind_eq_some, require_eq_some, map_eq_some, getBytes_eq_some]
      exact ⟨(), _, ⟨by omega, rfl⟩, bs, ⟨rfl, rfl⟩, foldl_shift_or bs 0⟩

theorem asn1DecodeLength_append {octets : Bytes} {n : ℕ} (h : IsLength octets n)
    (hle : octets.length ≤ 5) (rest : Bytes) :
    asn1DecodeLength (octets ++ rest) = some (n, rest) :=
  asn1DecodeLength_eq_some.mpr ⟨octets, h, hle, rfl⟩

theorem asn1DecodeLength_encode_mod (n : ℕ) (rest : Bytes) :
    asn1DecodeLength (asn1EncodeLength n ++ rest) = some (n % 2 ^ 24, rest) :=
  asn1DecodeLength_append (isLength_asn1EncodeLength_mod n)
    ((length_asn1EncodeLength_le n).trans (by decide)) rest

theorem asn1DecodeLength_encode {n : ℕ} (h : n < 2 ^ 24) (rest : Bytes) :
    asn1DecodeLength (asn1EncodeLength n ++ rest) = some (n, rest) := by
  rw [asn1DecodeLength_encode_mod, Nat.mod_eq_of_lt h]

end Interop
