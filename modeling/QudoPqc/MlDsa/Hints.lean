import QudoPqc.Codec.Packet
import QudoPqc.MlDsa.Fips204
import Mathlib.Data.List.FinRange
import Mathlib.Data.List.Sort

/-!
# Hint vectors

OpenSSL's `hint_bits_encode` and `hint_bits_decode`, and the engine's `mld_pack_sig_h` and
`mld_sig_unpack_hints`. OpenSSL decodes the whole vector in one pass that carries the index of the
next entry; the engine decodes row `i` on its own, from the tallies of rows `i - 1` and `i`, and
looks at the unused entries with the last row.

## Main results

* `Ossl.parses_hintBitsDecode` : OpenSSL accepts exactly the packings of hints with at most
  `omega` ones.
* `Native.sigUnpackHints_eq_some` : so does the engine, if every row is accepted.
* `Ossl.hintBitsEncode_bits`, `Native.packHint_bits` : both encoders write HintBitPack; the engine
  gives up exactly when there are more than `omega` ones.
-/

namespace MlDsa

open Codec Fips204

/-- The coefficients `0` and `1` of a hint polynomial. -/
def Poly.bits (h : Poly Bool) : Poly ℕ := fun j ↦ if h j then 1 else 0

/-- The coefficients `0` and `1` of a hint vector. -/
def PolyVec.bits {n : ℕ} (h : PolyVec n Bool) : PolyVec n ℕ := fun i ↦ (h i).bits

theorem Poly.bits_ne_zero {h : Poly Bool} {j : Fin numCoeff} : h.bits j ≠ 0 ↔ h j = true := by
  rw [bits]
  cases h j <;> simp

namespace Fips204

/-! ## Rows of positions -/

/-- The polynomial with ones at the positions of a row. -/
def indicator (bs : Bytes) : Poly Bool := fun j ↦ decide (UInt8.ofNat j ∈ bs)

theorem toNat_ofNat_coeff (j : Fin numCoeff) : (UInt8.ofNat j).toNat = j := by
  rw [UInt8.toNat_ofNat']
  exact Nat.mod_eq_of_lt j.isLt

theorem mem_rowBytes {h : Poly Bool} {b : UInt8} :
    b ∈ rowBytes h ↔ h ⟨b.toNat, b.toNat_lt⟩ = true := by
  rw [rowBytes, List.mem_map]
  constructor
  · rintro ⟨j, hj, rfl⟩
    have hpos := (List.mem_filter.mp hj).2
    rwa [show (⟨(UInt8.ofNat j).toNat, (UInt8.ofNat j).toNat_lt⟩ : Fin numCoeff) = j from
      Fin.ext (toNat_ofNat_coeff j)]
  · intro hb
    exact ⟨_, List.mem_filter.mpr ⟨List.mem_finRange _, hb⟩, UInt8.ofNat_toNat⟩

theorem pairwise_rowBytes (h : Poly Bool) : (rowBytes h).Pairwise (· < ·) := by
  refine List.Pairwise.map _ (fun i j hij ↦ ?_) ((List.pairwise_lt_finRange numCoeff).filter _)
  rw [UInt8.lt_iff_toNat_lt, toNat_ofNat_coeff, toNat_ofNat_coeff]
  exact hij

theorem indicator_rowBytes (h : Poly Bool) : indicator (rowBytes h) = h := by
  funext j
  rw [indicator, Bool.eq_iff_iff, decide_eq_true_iff, mem_rowBytes]
  simp only [toNat_ofNat_coeff]

theorem rowBytes_indicator {bs : Bytes} (hbs : bs.Pairwise (· < ·)) :
    rowBytes (indicator bs) = bs := by
  refine (pairwise_rowBytes _).eq_of_mem_iff hbs fun b ↦ ?_
  rw [mem_rowBytes, indicator, decide_eq_true_iff, UInt8.ofNat_toNat]

theorem length_hintBitPack {omega n : ℕ} {h : PolyVec n Bool} (hones : ones h ≤ omega) :
    (hintBitPack omega h).length = omega + n := by
  rw [hintBitPack, List.length_append, length_packEntries hones, length_packLimits]

/-- Two byte strings are the packing of a hint exactly when they have the layout of rows and every
row is increasing. -/
theorem eq_hintBitPack_iff {omega n : ℕ} (homega : omega < 256) {entries limits : Bytes}
    (hentries : entries.length = omega) (hlimits : limits.length = n) (h : PolyVec n Bool) :
    (ones h ≤ omega ∧ entries ++ limits = hintBitPack omega h) ↔
      IsRows omega n entries limits ∧ ∀ i : Fin n,
        (rowAt entries limits i).Pairwise (· < ·) ∧ h i = indicator (rowAt entries limits i) := by
  constructor
  · rintro ⟨hones, hpack⟩
    have hlen := hentries.trans (length_packEntries hones).symm
    obtain ⟨rfl, rfl⟩ := List.append_inj hpack hlen
    obtain ⟨hrows, hrow⟩ := isRows_pack homega hones
    refine ⟨hrows, fun i ↦ ?_⟩
    rw [hrow i]
    exact ⟨pairwise_rowBytes _, (indicator_rowBytes _).symm⟩
  · rintro ⟨hrows, hrow⟩
    have hbytes : (fun i ↦ rowBytes (h i)) = fun i : Fin n ↦ rowAt entries limits i := by
      funext i
      rw [(hrow i).2, rowBytes_indicator (hrow i).1]
    obtain ⟨htally, hentries', hlimits'⟩ := pack_rowAt hrows
    rw [ones, hintBitPack, hbytes, hentries', hlimits']
    exact ⟨htally, rfl⟩

end Fips204

/-! ## OpenSSL -/

namespace Ossl

variable {n : ℕ}

/-- The inner loop of `hint_bits_decode`: `count` more entries from index `coeffIndex`. -/
def decodeRow (input : Bytes) : (count coeffIndex : ℕ) → (last : ℤ) → Poly ℕ →
    Option (Poly ℕ)
  | 0, _, _, p => some p
  | count + 1, coeffIndex, last, p =>
    let byte := (input.getD coeffIndex 0).toNat
    if last ≥ 0 ∧ (byte : ℤ) ≤ last then none
    else decodeRow input count (coeffIndex + 1) byte fun j ↦ if (j : ℕ) = byte then 1 else p j

/-- The outer loop of `hint_bits_decode`: `n` more rows, with the final `coeff_index`. -/
def decodeRows (omega : ℕ) (input : Bytes) :
    (n : ℕ) → (limits : Bytes) → (coeffIndex : ℕ) → Option (PolyVec n ℕ × ℕ)
  | 0, _, coeffIndex => some (Fin.elim0, coeffIndex)
  | n + 1, limits, coeffIndex =>
    let limit := (limits.headD 0).toNat
    if limit < coeffIndex ∨ limit > omega then none
    else (decodeRow input (limit - coeffIndex) coeffIndex (-1) fun _ ↦ 0).bind fun p ↦
      (decodeRows omega input n limits.tail limit).map fun r ↦ (Fin.cons p r.1, r.2)

/-- `hint_bits_decode`. -/
def hintBitsDecode (omega n : ℕ) : Packet (PolyVec n ℕ) :=
  (Packet.getBytes omega).bind fun input ↦ (Packet.getBytes n).bind fun limits rest ↦
    (decodeRows omega input n limits 0).bind fun r ↦
      if (input.drop r.2).all (· == 0) then some (r.1, rest) else none

/-- `hint_bits_encode`: the buffer and `coeff_index` are the state of both loops. -/
def hintBitsEncode (omega : ℕ) (hint : PolyVec n ℕ) : Bytes :=
  ((List.finRange n).foldl (fun st i ↦
    let st := (List.finRange numCoeff).foldl (fun st j ↦
      if hint i j ≠ 0 then (st.1.set st.2 (UInt8.ofNat j), st.2 + 1) else st) st
    (st.1.set (omega + i) (UInt8.ofNat st.2), st.2)) (List.replicate (omega + n) 0, 0)).1

/-- The inner loop accepts increasing entries above `last`, and sets their coefficients. -/
theorem decodeRow_eq_some {input bs rest : Bytes} {i : ℕ} {last : ℤ} {p p' : Poly ℕ}
    (hlast : -1 ≤ last) (hbs : input.drop i = bs ++ rest) :
    decodeRow input bs.length i last p = some p' ↔
      (∀ b ∈ bs, last < b.toNat) ∧ bs.Pairwise (· < ·) ∧
        p' = fun j : Fin numCoeff ↦ if UInt8.ofNat j ∈ bs then 1 else p j := by
  induction bs generalizing i last p with
  | nil => simp [decodeRow, eq_comm]
  | cons b bs ih =>
    have hb : input.getD i 0 = b := by
      have hget := congrArg (List.getD · 0 0) hbs
      simpa using hget
    have hnext : input.drop (i + 1) = bs ++ rest := by
      rw [← List.tail_drop, hbs, List.cons_append, List.tail_cons]
    rw [List.length_cons, decodeRow, hb]
    have hbyte : ∀ j : Fin numCoeff, (j : ℕ) = b.toNat ↔ UInt8.ofNat j = b := by
      intro j
      rw [← UInt8.toNat_inj, toNat_ofNat_coeff]
    rw [List.pairwise_cons, List.forall_mem_cons]
    split
    case isTrue hle =>
      simp only [reduceCtorEq, false_iff]
      rintro ⟨⟨hlt, -⟩, -⟩
      omega
    case isFalse hgt =>
      rw [ih (by omega) hnext]
      -- entries above `b` are above `last`
      have hlt : last < b.toNat := by omega
      constructor
      · rintro ⟨habove, hsorted, rfl⟩
        refine ⟨⟨hlt, fun c hc ↦ hlt.trans (habove c hc)⟩, ⟨fun c hc ↦ ?_, hsorted⟩, ?_⟩
        · exact UInt8.lt_iff_toNat_lt.mpr (by exact_mod_cast habove c hc)
        · funext j
          simp only [List.mem_cons, hbyte]
          split_ifs <;> simp_all
      · rintro ⟨-, ⟨habove, hsorted⟩, rfl⟩
        refine ⟨fun c hc ↦ ?_, hsorted, ?_⟩
        · exact_mod_cast UInt8.lt_iff_toNat_lt.mp (habove c hc)
        · funext j
          simp only [List.mem_cons, hbyte]
          split_ifs <;> simp_all

/-- A row is accepted if its entries increase. -/
theorem decodeRow_slice (input : Bytes) {a b : ℕ} (hab : a ≤ b) (hb : b ≤ input.length)
    (p : Poly ℕ) :
    decodeRow input (b - a) a (-1) (fun _ ↦ 0) = some p ↔
      (slice input a b).Pairwise (· < ·) ∧ p = (indicator (slice input a b)).bits := by
  have hlen : (slice input a b).length = b - a := by
    rw [slice, List.length_drop, List.length_take, Nat.min_eq_left hb]
  have hdrop : input.drop a = slice input a b ++ input.drop b := by
    rw [slice, ← List.drop_append_of_le_length, List.take_append_drop]
    rw [List.length_take, Nat.min_eq_left hb]
    exact hab
  rw [← hlen, decodeRow_eq_some le_rfl hdrop]
  have hbits : (indicator (slice input a b)).bits =
      fun j : Fin numCoeff ↦ if UInt8.ofNat j ∈ slice input a b then 1 else 0 := by
    funext j
    simp only [Poly.bits, indicator, decide_eq_true_iff]
  rw [hbits]
  exact and_iff_right fun c _ ↦ by omega

theorem boundary_zero (start : ℕ) (limits : Bytes) : boundary start limits 0 = start := rfl

theorem boundary_tail (start : ℕ) (limits : Bytes) (i : ℕ) :
    boundary start limits (i + 1) = boundary (limits.headD 0).toNat limits.tail i := by
  cases limits with
  | nil => cases i <;> rfl
  | cons l limits => exact boundary_cons start l limits i

/-- The outer loop checks the rows one by one. -/
theorem decodeRows_eq_some {omega : ℕ} {input : Bytes} (hinput : input.length = omega)
    {limits : Bytes} {start stop : ℕ} {p : PolyVec n ℕ} :
    decodeRows omega input n limits start = some (p, stop) ↔
      stop = boundary start limits n ∧ ∀ i : Fin n,
        (boundary start limits i ≤ boundary start limits (i + 1) ∧
          boundary start limits (i + 1) ≤ omega) ∧
        (slice input (boundary start limits i) (boundary start limits (i + 1))).Pairwise
          (· < ·) ∧
        p i = (indicator
          (slice input (boundary start limits i) (boundary start limits (i + 1)))).bits := by
  induction n generalizing limits start stop with
  | zero =>
    have hp : p = Fin.elim0 := funext fun i ↦ i.elim0
    simp [decodeRows, boundary_zero, hp, eq_comm]
  | succ n ih =>
    rw [decodeRows, Fin.forall_fin_succ]
    simp only [Fin.val_zero, Fin.val_succ, boundary_tail start, boundary_zero]
    split
    case isTrue hbad =>
      simp only [reduceCtorEq, false_iff]
      rintro ⟨-, ⟨⟨h1, h2⟩, -⟩, -⟩
      omega
    case isFalse hok =>
      have hle : start ≤ (limits.headD 0).toNat ∧ (limits.headD 0).toNat ≤ omega := by omega
      have hrow := decodeRow_slice input hle.1 (hle.2.trans hinput.ge)
      simp only [Option.bind_eq_some_iff, Option.map_eq_some_iff, Prod.exists, Prod.mk.injEq,
        hrow, ih]
      constructor
      · rintro ⟨p0, ⟨hsorted, rfl⟩, ps, e, ⟨rfl, hrows⟩, rfl, rfl⟩
        exact ⟨rfl, ⟨hle, hsorted, rfl⟩, hrows⟩
      · rintro ⟨rfl, ⟨-, hsorted, hp⟩, hrows⟩
        refine ⟨p 0, ⟨hsorted, hp⟩, fun i ↦ p i.succ, _, ⟨rfl, hrows⟩, ?_, rfl⟩
        exact Fin.cons_self_tail p

/-- Both loops and the final check accept exactly the packings of hints. -/
theorem decodeRows_iff {omega : ℕ} (homega : omega < 256) {input limits : Bytes}
    (hinput : input.length = omega) (hlimits : limits.length = n) (p : PolyVec n ℕ) :
    (∃ stop, decodeRows omega input n limits 0 = some (p, stop) ∧
        (input.drop stop).all (· == 0) = true) ↔
      ∃ h : PolyVec n Bool, ones h ≤ omega ∧ p = h.bits ∧
        input ++ limits = hintBitPack omega h := by
  simp only [decodeRows_eq_some hinput]
  constructor
  · rintro ⟨_, ⟨rfl, hrows⟩, hrest⟩
    obtain ⟨hones, hpack⟩ := (eq_hintBitPack_iff homega hinput hlimits
      fun i ↦ indicator (rowAt input limits i)).mpr
      ⟨⟨hinput, hlimits, fun i hi ↦ (hrows ⟨i, hi⟩).1.1, fun i hi ↦ (hrows ⟨i, hi⟩).1.2,
        by simpa using hrest⟩, fun i ↦ ⟨(hrows i).2.1, rfl⟩⟩
    exact ⟨_, hones, funext fun i ↦ (hrows i).2.2, hpack⟩
  · rintro ⟨h, hones, rfl, hpack⟩
    obtain ⟨hrows, hrow⟩ :=
      (eq_hintBitPack_iff homega hinput hlimits h).mp ⟨hones, hpack⟩
    refine ⟨_, ⟨rfl, fun i ↦ ⟨⟨hrows.le_next i i.isLt, hrows.next_le i i.isLt⟩, (hrow i).1, ?_⟩⟩,
      by simpa using hrows.rest⟩
    exact congrArg Poly.bits (hrow i).2

/-- The decoder accepts exactly the packings of hints with at most `omega` ones. -/
theorem parses_hintBitsDecode {omega : ℕ} (homega : omega < 256) :
    Parses (hintBitsDecode omega n) fun enc p ↦ ∃ h : PolyVec n Bool,
      ones h ≤ omega ∧ p = h.bits ∧ enc = hintBitPack omega h := by
  intro bs p rest
  rw [hintBitsDecode]
  constructor
  · intro hbind
    obtain ⟨input, mid, hinput, hbind⟩ := Packet.bind_eq_some.mp hbind
    obtain ⟨limits, rest', hlimits, hdec⟩ := Packet.bind_eq_some.mp hbind
    obtain ⟨hlen, rfl⟩ := (reads_getBytes omega bs input mid).mp hinput
    obtain ⟨hlen', rfl⟩ := (reads_getBytes n mid limits rest').mp hlimits
    obtain ⟨⟨p', stop⟩, hrows, hif⟩ := Option.bind_eq_some_iff.mp hdec
    obtain ⟨hall, heq⟩ := Option.ite_none_right_eq_some.mp hif
    cases heq
    obtain ⟨h, hones, rfl, hpack⟩ := (decodeRows_iff homega hlen hlen' p').mp ⟨stop, hrows, hall⟩
    refine ⟨_, ⟨h, hones, rfl, rfl⟩, ?_⟩
    rw [← hpack, List.append_assoc]
    rfl
  · rintro ⟨_, ⟨h, hones, rfl, rfl⟩, rfl⟩
    obtain ⟨stop, hrows, hall⟩ := (decodeRows_iff homega (length_packEntries hones)
      (length_packLimits _) h.bits).mpr ⟨h, hones, rfl, rfl⟩
    rw [hintBitPack, List.append_assoc,
      Packet.bind_of_eq_some _ (getBytes_append (length_packEntries hones) _),
      Packet.bind_of_eq_some _ (getBytes_append (length_packLimits _) _), hrows, Option.bind_some,
      if_pos hall]

end Ossl

/-! ## The engine -/

namespace Native

variable {n : ℕ}

/-- The loop of `mld_sig_unpack_hints`: `count` more entries from index `j`. -/
def unpackRow (packedHints : Bytes) (oldHintCount : ℕ) : (count j : ℕ) → Poly ℕ →
    Option (Poly ℕ)
  | 0, _, h => some h
  | count + 1, j, h =>
    if j > oldHintCount ∧ packedHints.getD j 0 ≤ packedHints.getD (j - 1) 0 then none
    else unpackRow packedHints oldHintCount count (j + 1) fun i ↦
      if (i : ℕ) = (packedHints.getD j 0).toNat then 1 else h i

/-- `mld_sig_unpack_hints` for row `i` of `n`. -/
def sigUnpackHints (omega n : ℕ) (packedHints : Bytes) (i : ℕ) : Option (Poly ℕ) :=
  let oldHintCount := if i = 0 then 0 else (packedHints.getD (omega + i - 1) 0).toNat
  let newHintCount := (packedHints.getD (omega + i) 0).toNat
  if newHintCount < oldHintCount ∨ newHintCount > omega then none
  else (unpackRow packedHints oldHintCount (newHintCount - oldHintCount) oldHintCount
      fun _ ↦ 0).bind fun h ↦
    if i = n - 1 ∧ ¬ (slice packedHints newHintCount omega).all (· == 0) then none else some h

/-- The inner loop of `mld_pack_sig_h`, for the hint bits of one polynomial. -/
def packRow (omega : ℕ) (hintBit : Poly ℕ) (st : Bytes × ℕ) : Option (Bytes × ℕ) :=
  (List.finRange numCoeff).foldlM (fun st j ↦
    if hintBit j ≠ 0 then push omega st (UInt8.ofNat j) else some st) st

/-- The outer loop of `mld_pack_sig_h`. -/
def packRows (omega : ℕ) (hintBit : PolyVec n ℕ) (ks : List (Fin n)) (st : Bytes × ℕ) :
    Option (Bytes × ℕ) :=
  ks.foldlM (fun st k ↦ (packRow omega (hintBit k) st).map fun st ↦
    (st.1.set (omega + k) (UInt8.ofNat st.2), st.2)) st

/-- `mld_pack_sig_h`, for the hint bits of a vector. -/
def packHint (omega : ℕ) (hintBit : PolyVec n ℕ) : Option Bytes :=
  (packRows omega hintBit (List.finRange n) (List.replicate (omega + n) 0, 0)).map Prod.fst

/-- Comparing an entry with the one before it is comparing it with the last one read. -/
theorem unpackRow_eq (packedHints : Bytes) {old count j : ℕ} (hj : old ≤ j) (h : Poly ℕ) :
    unpackRow packedHints old count j h =
      Ossl.decodeRow packedHints count j
        (if j = old then -1 else (packedHints.getD (j - 1) 0).toNat) h := by
  induction count generalizing j h with
  | zero => rfl
  | succ count ih =>
    rw [unpackRow, Ossl.decodeRow, ih (by omega), if_neg (by omega : ¬ j + 1 = old),
      Nat.add_sub_cancel]
    refine if_congr ?_ rfl rfl
    rw [UInt8.le_iff_toNat_le]
    split
    · omega
    · simp only [Nat.cast_le]
      omega

theorem boundary_drop (omega : ℕ) (packedHints : Bytes) (i : ℕ) :
    boundary 0 (packedHints.drop omega) i =
      if i = 0 then 0 else (packedHints.getD (omega + i - 1) 0).toNat := by
  cases i with
  | zero => rfl
  | succ i =>
    rw [boundary, if_neg (Nat.succ_ne_zero i), ← Nat.add_assoc, Nat.add_sub_cancel,
      List.getD_eq_getElem?_getD, List.getD_eq_getElem?_getD, List.getElem?_drop]

/-- What the engine checks for row `i`. -/
theorem sigUnpackHints_row {omega : ℕ} {packedHints : Bytes}
    (hlen : packedHints.length = omega + n) (i : ℕ) (p : Poly ℕ) :
    sigUnpackHints omega n packedHints i = some p ↔
      (boundary 0 (packedHints.drop omega) i ≤ boundary 0 (packedHints.drop omega) (i + 1) ∧
        boundary 0 (packedHints.drop omega) (i + 1) ≤ omega) ∧
      (rowAt (packedHints.take omega) (packedHints.drop omega) i).Pairwise (· < ·) ∧
      p = (indicator (rowAt (packedHints.take omega) (packedHints.drop omega) i)).bits ∧
      (i = n - 1 →
        ∀ b ∈ (packedHints.take omega).drop (boundary 0 (packedHints.drop omega) (i + 1)),
          b = 0) := by
  have hold := boundary_drop omega packedHints i
  have hnew : boundary 0 (packedHints.drop omega) (i + 1) =
      (packedHints.getD (omega + i) 0).toNat := boundary_drop omega packedHints (i + 1)
  rw [sigUnpackHints, ← hold, ← hnew, rowAt]
  generalize boundary 0 (packedHints.drop omega) i = old
  generalize boundary 0 (packedHints.drop omega) (i + 1) = new
  split
  case isTrue hbad =>
    simp only [reduceCtorEq, false_iff]
    rintro ⟨⟨h1, h2⟩, -⟩
    omega
  case isFalse hok =>
    have hle : old ≤ new ∧ new ≤ omega := by omega
    have hslice : slice (packedHints.take omega) old new = slice packedHints old new := by
      rw [slice, slice, List.take_take, Nat.min_eq_left hle.2]
    rw [unpackRow_eq _ le_rfl, if_pos rfl, Option.bind_eq_some_iff, hslice]
    simp only [Ossl.decodeRow_slice packedHints hle.1 (by omega), Option.ite_none_left_eq_some,
      Option.some.injEq, slice, List.all_eq_true, beq_iff_eq, not_and, not_not]
    constructor
    · rintro ⟨h, ⟨hsorted, rfl⟩, hlast, rfl⟩
      exact ⟨hle, hsorted, rfl, hlast⟩
    · rintro ⟨-, hsorted, rfl, hlast⟩
      exact ⟨_, ⟨hsorted, rfl⟩, hlast, rfl⟩

/-- The rows the engine accepts one by one are the packing of a hint. -/
theorem sigUnpackHints_eq_some {omega : ℕ} (homega : omega < 256) (hn : 0 < n)
    {packedHints : Bytes} (hlen : packedHints.length = omega + n) (p : PolyVec n ℕ) :
    (∀ i : Fin n, sigUnpackHints omega n packedHints i = some (p i)) ↔
      ∃ h : PolyVec n Bool, ones h ≤ omega ∧ p = h.bits ∧
        packedHints = hintBitPack omega h := by
  have hentries : (packedHints.take omega).length = omega := by
    rw [List.length_take, hlen]
    omega
  have hlimits : (packedHints.drop omega).length = n := by
    rw [List.length_drop, hlen]
    omega
  have hiff := eq_hintBitPack_iff homega hentries hlimits
  rw [List.take_append_drop] at hiff
  simp only [sigUnpackHints_row hlen]
  constructor
  · intro hrows
    have hrest := (hrows ⟨n - 1, by omega⟩).2.2.2 rfl
    rw [show ((⟨n - 1, by omega⟩ : Fin n) : ℕ) + 1 = n from Nat.sub_add_cancel hn] at hrest
    obtain ⟨hones, hpack⟩ := (hiff fun i ↦ indicator _).mpr
      ⟨⟨hentries, hlimits, fun i hi ↦ (hrows ⟨i, hi⟩).1.1, fun i hi ↦ (hrows ⟨i, hi⟩).1.2, hrest⟩,
        fun i ↦ ⟨(hrows i).2.1, rfl⟩⟩
    exact ⟨_, hones, funext fun i ↦ (hrows i).2.2.1, hpack⟩
  · rintro ⟨h, hones, rfl, hpack⟩ i
    obtain ⟨hrows, hrow⟩ := (hiff h).mp ⟨hones, hpack⟩
    refine ⟨⟨hrows.le_next i i.isLt, hrows.next_le i i.isLt⟩, (hrow i).1,
      congrArg Poly.bits (hrow i).2, fun hi ↦ ?_⟩
    rw [hi, Nat.sub_add_cancel hn]
    exact hrows.rest

/-- The inner loop writes the positions of a row, if there is room for them. -/
theorem packRow_bits {omega free : ℕ} (h : Poly Bool) (done after : Bytes)
    (homega : done.length + free = omega) :
    packRow omega h.bits (done ++ (List.replicate free 0 ++ after), done.length) =
      if (rowBytes h).length ≤ free then
        some (done ++ rowBytes h ++
          (List.replicate (free - (rowBytes h).length) 0 ++ after),
          done.length + (rowBytes h).length)
      else none := by
  have hlen : (rowBytes h).length = ((List.finRange numCoeff).filter h).length :=
    List.length_map _
  rw [packRow, hlen, ← homega]
  simp only [Poly.bits_ne_zero]
  exact foldlM_push h _ _ done after free

theorem packRows_append (omega : ℕ) (hintBit : PolyVec n ℕ) (ks ks' : List (Fin n))
    (st : Bytes × ℕ) :
    packRows omega hintBit (ks ++ ks') st =
      (packRows omega hintBit ks st).bind (packRows omega hintBit ks') :=
  List.foldlM_append

/-- One round of the outer loop: the positions of the row, then its tally. -/
theorem packRows_singleton {omega free : ℕ} (h : PolyVec n Bool) (k : Fin n)
    (done limits : Bytes) (homega : done.length + free = omega) (hlimits : limits.length = k) :
    packRows omega h.bits [k]
        (done ++ (List.replicate free 0 ++ (limits ++ List.replicate (n - k) 0)), done.length) =
      if (rowBytes (h k)).length ≤ free then
        some (done ++ rowBytes (h k) ++
          (List.replicate (free - (rowBytes (h k)).length) 0 ++
            (limits ++ [UInt8.ofNat (done.length + (rowBytes (h k)).length)] ++
              List.replicate (n - (k + 1)) 0)), done.length + (rowBytes (h k)).length)
      else none := by
  rw [packRows, List.foldlM_cons, PolyVec.bits, packRow_bits _ _ _ homega]
  split
  case isFalse hfull => rfl
  case isTrue hroom =>
    have hk : n - (k : ℕ) = n - (k + 1) + 1 := by
      have := k.isLt
      omega
    have hset := set_append_replicate
      (done ++ rowBytes (h k) ++
        List.replicate (free - (rowBytes (h k)).length) 0 ++ limits) [] (n - (k + 1))
      (UInt8.ofNat (done.length + (rowBytes (h k)).length))
    have hat : (done ++ rowBytes (h k) ++
        List.replicate (free - (rowBytes (h k)).length) 0 ++ limits).length =
        omega + k := by
      simp only [List.length_append, List.length_replicate]
      omega
    rw [hat, ← hk, List.append_nil, List.append_nil] at hset
    simp only [List.append_assoc] at hset ⊢
    simp only [Option.map_some, Option.bind_eq_bind, Option.bind_some, List.foldlM_nil, hset]
    rfl

/-- The state of the outer loop after `i` rows. -/
theorem packRows_take (omega : ℕ) {i : ℕ} (h : PolyVec n Bool) (hi : i ≤ n) :
    packRows omega h.bits ((List.finRange n).take i) (List.replicate (omega + n) 0, 0) =
      if tally (fun i ↦ rowBytes (h i)) i ≤ omega then
        some (((List.ofFn fun i ↦ rowBytes (h i)).take i).flatten ++
          (List.replicate (omega - tally (fun i ↦ rowBytes (h i)) i) 0 ++
            ((packLimits fun i ↦ rowBytes (h i)).take i ++ List.replicate (n - i) 0)),
          tally (fun i ↦ rowBytes (h i)) i)
      else none := by
  set rows : Fin n → Bytes := fun i ↦ rowBytes (h i) with hrows
  induction i with
  | zero =>
    rw [tally_zero, if_pos (Nat.zero_le _), packRows]
    simp only [List.take_zero, List.foldlM_nil, List.flatten_nil, List.nil_append, Nat.sub_zero,
      List.replicate_add]
    rfl
  | succ i ih =>
    have htally : tally rows (i + 1) = tally rows i + (rows ⟨i, hi⟩).length :=
      tally_succ rows ⟨i, hi⟩
    have hrange : (List.finRange n).take (i + 1) = (List.finRange n).take i ++ [⟨i, hi⟩] := by
      rw [List.take_succ_eq_append_getElem (by rw [List.length_finRange]; exact hi),
        List.getElem_finRange]
      rfl
    have hdone : ((List.ofFn rows).take i).flatten.length = tally rows i := by
      rw [List.length_flatten, List.map_take, tally]
    have hlimit : (packLimits rows).get ⟨i, by rw [length_packLimits]; exact hi⟩ =
        UInt8.ofNat (tally rows i + (rows ⟨i, hi⟩).length) := by
      rw [← htally, List.get_eq_getElem]
      exact List.getElem_ofFn _
    rw [List.get_eq_getElem] at hlimit
    rw [hrange, packRows_append, ih (Nat.le_of_lt hi)]
    split
    case isFalse hfull => rw [if_neg (by omega), Option.bind_none]
    case isTrue hroom =>
      have hstep := packRows_singleton h ⟨i, hi⟩ ((List.ofFn rows).take i).flatten
        ((packLimits rows).take i) (Nat.add_sub_cancel' (hdone.trans_le hroom))
        (List.length_take_of_le (by rw [length_packLimits]; exact Nat.le_of_lt hi))
      rw [hdone] at hstep
      rw [Option.bind_some, hstep, List.take_succ_eq_append_getElem
          (by rw [List.length_ofFn]; exact hi), List.take_succ_eq_append_getElem
          (by rw [length_packLimits]; exact hi), List.flatten_append, List.flatten_singleton,
        List.getElem_ofFn, hlimit, htally, ← Nat.sub_sub omega]
      refine if_congr ?_ rfl rfl
      rw [show rows ⟨i, hi⟩ = rowBytes (h ⟨i, hi⟩) from rfl]
      omega

/-- The engine writes HintBitPack, and fails exactly when there are too many ones. -/
theorem packHint_bits (omega : ℕ) (h : PolyVec n Bool) :
    packHint omega h.bits =
      if ones h ≤ omega then some (hintBitPack omega h) else none := by
  have hall := packRows_take omega h le_rfl
  rw [List.take_of_length_le (by rw [List.length_finRange]),
    List.take_of_length_le (by rw [List.length_ofFn]),
    List.take_of_length_le (length_packLimits _).le, Nat.sub_self] at hall
  rw [packHint, hall, ones]
  split
  · rw [hintBitPack, packEntries, List.append_assoc, List.replicate_zero, List.append_nil]
    rfl
  · rfl

end Native

namespace Ossl

/-- A loop that may fail and one that does not go through the same states while it succeeds. -/
theorem foldl_of_foldlM {σ α : Type} (step : σ → α → σ) {step' : σ → α → Option σ}
    (h : ∀ s a s', step' s a = some s' → step s a = s') {xs : List α} {s s' : σ}
    (hrun : xs.foldlM step' s = some s') : xs.foldl step s = s' := by
  induction xs generalizing s with
  | nil => exact Option.some.inj hrun
  | cons a xs ih =>
    obtain ⟨mid, hmid, hrest⟩ := Option.bind_eq_some_iff.mp hrun
    rw [List.foldl_cons, h s a mid hmid]
    exact ih hrest

/-- OpenSSL writes HintBitPack when there are at most `omega` ones. -/
theorem hintBitsEncode_bits {n omega : ℕ} {h : PolyVec n Bool} (hones : ones h ≤ omega) :
    hintBitsEncode omega h.bits = hintBitPack omega h := by
  have hpack := (Native.packHint_bits omega h).trans (if_pos hones)
  obtain ⟨st, hst, hfst⟩ := Option.map_eq_some_iff.mp hpack
  rw [hintBitsEncode, ← hfst]
  refine congrArg Prod.fst (foldl_of_foldlM _ (fun s k s' hk ↦ ?_) hst)
  obtain ⟨mid, hrow, rfl⟩ := Option.map_eq_some_iff.mp hk
  have hinner := foldl_of_foldlM (fun st j ↦
    if h.bits k j ≠ 0 then (st.1.set st.2 (UInt8.ofNat j), st.2 + 1) else st)
    (fun s j s' hj ↦ ?_) hrow
  · rw [hinner]
  · split at hj
    case isTrue hbit =>
      obtain ⟨-, hj⟩ := Option.ite_none_left_eq_some.mp hj
      rw [if_pos hbit, Option.some.inj hj]
    case isFalse hbit => rw [if_neg hbit, Option.some.inj hj]

end Ossl

end MlDsa
