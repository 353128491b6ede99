import QudoPqc.Codec.Packet
import QudoPqc.MlKem.Fips203

/-!
# Scalars as bytes

`scalar_encode` collects the words of a scalar in a 64-bit accumulator and stores it whenever it is
full. `Encoder` is the state of that loop and `Encodes` its invariant: the bytes written and the
accumulator are together the number whose digits are the words so far.

`scalar_decode_12` reads two words from three bytes and rejects a word that is not below `q`; it
accepts exactly the encodings of reduced scalars (`reads_vectorDecode12`).
-/

namespace MlKem

open Codec Fips203

namespace Ossl

/-! ## Encoding -/

/-- The loop state of `scalar_encode`: what has been written, `accum` and `used`. -/
structure Encoder where
  out : Bytes
  accum : ℕ
  used : ℕ

/-- One round of `scalar_encode`, on 64-bit words. -/
def Encoder.push (bits : ℕ) (e : Encoder) (element : ℕ) : Encoder :=
  let shifted := (element <<< e.used) % 2 ^ 64
  if e.used + bits < 64 then
    { e with accum := e.accum ||| shifted, used := e.used + bits }
  else if e.used + bits > 64 then
    { out := e.out ++ storeLe 8 (e.accum ||| shifted), accum := element >>> (64 - e.used),
      used := e.used + bits - 64 }
  else
    { out := e.out ++ storeLe 8 (e.accum ||| shifted), accum := 0, used := 0 }

/-- `scalar_encode`. -/
def scalarEncode (bits : ℕ) (s : Scalar ℕ) : Bytes :=
  ((List.ofFn s).foldl (Encoder.push bits) ⟨[], 0, 0⟩).out

/-- `vector_encode`. -/
def vectorEncode (bits : ℕ) {n : ℕ} (a : Vec n ℕ) : Bytes :=
  (List.ofFn fun i ↦ scalarEncode bits (a i)).flatten

/-- What `scalar_encode` has made of the words `xs`. -/
structure Encodes (bits : ℕ) (xs : List ℕ) (e : Encoder) : Prop where
  used_lt : e.used < 64
  accum_lt : e.accum < 2 ^ e.used
  whole : 8 ∣ e.out.length
  length_eq : 8 * e.out.length + e.used = bits * xs.length
  value_eq : loadLe e.out + 256 ^ e.out.length * e.accum = Nat.ofDigits (2 ^ bits) xs

theorem encodes_nil (bits : ℕ) : Encodes bits [] ⟨[], 0, 0⟩ where
  used_lt := by decide
  accum_lt := by decide
  whole := by simp
  length_eq := rfl
  value_eq := rfl

/-- The accumulator with the next word on top. -/
theorem accum_or_shifted {accum used : ℕ} (element : ℕ) (haccum : accum < 2 ^ used)
    (hused : used < 64) :
    accum ||| (element <<< used) % 2 ^ 64 = (accum + element * 2 ^ used) % 2 ^ 64 := by
  obtain ⟨k, hk⟩ := Nat.exists_eq_add_of_le hused.le
  have hpos : 0 < 2 ^ used := Nat.two_pow_pos used
  rw [hk, shiftLeft_mod, or_shiftLeft _ haccum, Nat.pow_add, Nat.mod_mul,
    Nat.add_mul_mod_self_right, Nat.mod_eq_of_lt haccum, Nat.add_mul_div_right _ _ hpos,
    Nat.div_eq_of_lt haccum, Nat.zero_add, Nat.mul_comm]

/-- What is left of the next word after the accumulator has been stored. -/
theorem shiftRight_eq_div {accum used : ℕ} (element : ℕ) (haccum : accum < 2 ^ used)
    (hused : used < 64) :
    element >>> (64 - used) = (accum + element * 2 ^ used) / 2 ^ 64 := by
  have hpow : 2 ^ 64 = 2 ^ used * 2 ^ (64 - used) := by
    rw [← Nat.pow_add, Nat.add_sub_cancel' hused.le]
  rw [Nat.shiftRight_eq_div_pow, hpow, ← Nat.div_div_eq_div_mul,
    Nat.add_mul_div_right _ _ (Nat.two_pow_pos used), Nat.div_eq_of_lt haccum, Nat.zero_add]

theorem Encodes.push {bits : ℕ} {xs : List ℕ} {e : Encoder} (he : Encodes bits xs e) {x : ℕ}
    (hbits : bits ≤ 64) (hx : x < 2 ^ bits) : Encodes bits (xs ++ [x]) (e.push bits x) := by
  obtain ⟨hused, haccum, hwhole, hlen, hval⟩ := he
  have hy : e.accum + x * 2 ^ e.used < 2 ^ (e.used + bits) := by
    have hsucc : (x + 1) * 2 ^ e.used ≤ 2 ^ bits * 2 ^ e.used := Nat.mul_le_mul_right _ hx
    rw [Nat.succ_mul] at hsucc
    rw [Nat.pow_add, Nat.mul_comm (2 ^ e.used)]
    omega
  have hnext : loadLe e.out + 256 ^ e.out.length * (e.accum + x * 2 ^ e.used) =
      Nat.ofDigits (2 ^ bits) (xs ++ [x]) := by
    have hpow : (2 ^ bits) ^ xs.length = 256 ^ e.out.length * 2 ^ e.used := by
      rw [← pow_mul, ← hlen, pow_add, pow_mul]
      norm_num
    rw [Nat.ofDigits_append, Nat.ofDigits_singleton, hpow, ← hval]
    ring
  have hlength : 8 * e.out.length + (e.used + bits) = bits * (xs ++ [x]).length := by
    rw [List.length_append, List.length_singleton, Nat.mul_add, ← hlen]
    omega
  rw [Encoder.push, accum_or_shifted x haccum hused, shiftRight_eq_div x haccum hused]
  generalize e.accum + x * 2 ^ e.used = y at hy hnext
  -- storing eight bytes splits the number at its 64th bit
  have hstore : loadLe (e.out ++ storeLe 8 (y % 2 ^ 64)) +
      256 ^ (e.out ++ storeLe 8 (y % 2 ^ 64)).length * (y / 2 ^ 64) =
        Nat.ofDigits (2 ^ bits) (xs ++ [x]) := by
    rw [← hnext, loadLe_append, loadLe_storeLe, List.length_append, length_storeLe, pow_add]
    norm_num only
    rw [Nat.mod_mod, Nat.add_assoc, Nat.mul_assoc, ← Nat.mul_add, Nat.mod_add_div]
  have hstored : (e.out ++ storeLe 8 (y % 2 ^ 64)).length = e.out.length + 8 := by
    rw [List.length_append, length_storeLe]
  split
  next hlt =>
    rw [Nat.mod_eq_of_lt (hy.trans (Nat.pow_lt_pow_right (by decide) hlt))]
    exact ⟨hlt, hy, hwhole, hlength, hnext⟩
  next hge =>
    split
    next hgt =>
      refine ⟨show e.used + bits - 64 < 64 by omega, ?_, ?_, ?_, hstore⟩
      · rw [Nat.div_lt_iff_lt_mul (by decide), ← pow_add, Nat.sub_add_cancel (by omega)]
        exact hy
      · exact hstored ▸ Nat.dvd_add hwhole (dvd_refl 8)
      · dsimp only
        omega
    next hle =>
      have hsum : e.used + bits = 64 := by omega
      have hzero : y / 2 ^ 64 = 0 := Nat.div_eq_of_lt (hsum ▸ hy)
      refine ⟨show 0 < 64 by decide, show 0 < 2 ^ 0 by decide, ?_, ?_, hzero ▸ hstore⟩
      · exact hstored ▸ Nat.dvd_add hwhole (dvd_refl 8)
      · dsimp only
        omega

/-- The loop of `scalar_encode`. -/
theorem Encodes.foldl {bits : ℕ} (hbits : bits ≤ 64) {done : List ℕ} {e : Encoder}
    (he : Encodes bits done e) {xs : List ℕ} (hxs : ∀ x ∈ xs, x < 2 ^ bits) :
    Encodes bits (done ++ xs) (xs.foldl (Encoder.push bits) e) := by
  induction xs generalizing done e with
  | nil => rwa [List.append_nil]
  | cons x xs ih =>
    rw [List.foldl_cons, ← List.singleton_append, ← List.append_assoc]
    exact ih (he.push hbits (hxs x List.mem_cons_self))
      fun y hy ↦ hxs y (List.mem_cons_of_mem x hy)

/-- `scalar_encode` is ByteEncode. -/
theorem scalarEncode_eq {bits : ℕ} (hbits : bits ≤ 64) {s : Scalar ℕ} (hs : ∀ i, s i < 2 ^ bits) :
    scalarEncode bits s = byteEncode bits s := by
  have hwords : ∀ x ∈ List.ofFn s, x < 2 ^ bits := by
    intro x hx
    obtain ⟨i, rfl⟩ := List.mem_ofFn.mp hx
    exact hs i
  obtain ⟨hused, haccum, ⟨m, hm⟩, hlen, hval⟩ := (encodes_nil bits).foldl hbits hwords
  rw [List.nil_append] at hlen hval
  have hdegree : (List.ofFn s).length = 256 := List.length_ofFn
  -- all words together fill whole accumulators, so nothing is left in the last one
  have hzero : ((List.ofFn s).foldl (Encoder.push bits) ⟨[], 0, 0⟩).used = 0 := by
    rw [hdegree] at hlen
    omega
  rw [hzero] at haccum hlen
  rw [Nat.lt_one_iff.mp haccum, Nat.mul_zero, Nat.add_zero] at hval
  exact eq_pack hlen.symm hval

theorem vectorEncode_eq {bits : ℕ} (hbits : bits ≤ 64) {n : ℕ} {a : Vec n ℕ}
    (ha : ∀ i j, a i j < 2 ^ bits) : vectorEncode bits a = encodeVec bits a := by
  rw [vectorEncode, encodeVec, funext fun i ↦ scalarEncode_eq hbits (ha i)]

/-! ## Decoding reduced scalars -/

/-- One round of `scalar_decode_12`. -/
def decode12 : Bytes → Option (List ℕ)
  | [b1, b2, b3] =>
    let c1 := b1.toNat ||| (b2.toNat &&& 0x0f) <<< 8
    let c2 := b2.toNat >>> 4 ||| b3.toNat <<< 4
    if c1 ≥ q || c2 ≥ q then none else some [c1, c2]
  | _ => none

/-- `scalar_decode_12`. -/
def scalarDecode12 : Packet (Scalar ℕ) := (Packet.getBlocks decode12 3 128).map Scalar.ofList

/-- `vector_decode_12`. -/
def vectorDecode12 (n : ℕ) : Packet (Vec n ℕ) := Packet.getVector scalarDecode12 n

theorem decode12_eq {b : Bytes} (hlen : b.length = 3) :
    decode12 b = if ∀ x ∈ unpack 12 2 b, x < q then some ((unpack 12 2 b).map id) else none := by
  match b, hlen with
  | [b1, b2, b3], _ =>
    have h1 := toNat_lt b1
    have h2 := toNat_lt b2
    have h3 := toNat_lt b3
    have hunpack : unpack 12 2 [b1, b2, b3] =
        [b1.toNat ||| (b2.toNat &&& 0x0f) <<< 8, b2.toNat >>> 4 ||| b3.toNat <<< 4] := by
      rw [Nat.and_two_pow_sub_one_eq_mod _ 4, or_shiftLeft 8 h1, Nat.shiftRight_eq_div_pow,
        or_shiftLeft 4 (by omega)]
      simp only [unpack, split, loadLe, List.cons.injEq, and_true]
      omega
    rw [hunpack, decode12, List.map_id, ← ite_not]
    refine if_congr ?_ rfl rfl
    simp

/-- `scalar_decode_12` accepts exactly the encodings of scalars with coefficients below `q`. -/
theorem reads_scalarDecode12 :
    Reads scalarDecode12 (fun p ↦ ∀ j, p j < q) (byteEncode 12) := by
  have hgroup : ReadsGroup decode12 12 2 3 (fun y ↦ ∃ x, x < 2 ^ 12 ∧ x < q ∧ id x = y) id :=
    readsGroup_of_unpack (fun x ↦ x < q) id id rfl (fun _ _ _ ↦ rfl) fun b hb ↦ decode12_eq hb
  have hlt : ∀ y, (∃ x, x < 2 ^ 12 ∧ x < q ∧ id x = y) → id y < 2 ^ 12 := by
    rintro _ ⟨x, hx, -, rfl⟩
    exact hx
  have hread := (reads_getBlocks (show 12 * 2 = 8 * 3 from rfl) hlt hgroup 128).map
    Scalar.ofList_ofFn
    fun xs hxs ↦ Scalar.ofFn_ofList hxs.1
  refine hread.congr (fun p ↦ ?_) fun p _ ↦ by rw [List.map_id, byteEncode]
  rw [List.length_ofFn, and_iff_right (show degree = 128 * 2 from rfl), List.forall_mem_ofFn_iff]
  refine forall_congr' fun j ↦ ⟨?_, fun h ↦ ⟨p j, h.trans (by decide), h, rfl⟩⟩
  rintro ⟨x, -, hx, rfl⟩
  exact hx

/-- So does `vector_decode_12` for vectors. -/
theorem reads_vectorDecode12 (n : ℕ) :
    Reads (vectorDecode12 n) (fun p ↦ ∀ i j, p i j < q) (encodeVec 12) :=
  reads_scalarDecode12.getVector n

end Ossl

/-! ## Keys are determined by their encodings -/

namespace Fips203

open Ossl

variable {v : Variant}

/-- The encoding of a vector determines it, and where it ends. -/
theorem encodeVec_append_inj {n : ℕ} {p p' : Vec n (ZMod q)} {rest rest' : Bytes}
    (h : encodeVec 12 p.repr ++ rest = encodeVec 12 p'.repr ++ rest') :
    p = p' ∧ rest = rest' := by
  obtain ⟨henc, hrest⟩ := List.append_inj h (by rw [length_encodeVec, length_encodeVec])
  have hread := (reads_vectorDecode12 n (encodeVec 12 p.repr) p.repr []).mpr
    ⟨p.repr_lt, (List.append_nil _).symm⟩
  have hread' := (reads_vectorDecode12 n (encodeVec 12 p.repr) p'.repr []).mpr
    ⟨p'.repr_lt, by rw [List.append_nil, henc]⟩
  exact ⟨Vec.repr_injective (Prod.mk.inj (Option.some.inj (hread.symm.trans hread'))).1, hrest⟩

theorem PublicKey.encode_injective {pk pk' : PublicKey v} (h : pk.encode = pk'.encode) :
    pk = pk' := by
  rcases pk with ⟨t, rho, hrho⟩
  rcases pk' with ⟨t', rho', hrho'⟩
  obtain ⟨rfl, rfl⟩ := encodeVec_append_inj h
  rfl

theorem SecretKey.encode_injective (H : Primitives) {sk sk' : SecretKey v}
    (h : sk.encode H = sk'.encode H) : sk = sk' := by
  rcases sk with ⟨s, pub, z, hz⟩
  rcases sk' with ⟨s', pub', z', hz'⟩
  obtain ⟨rfl, hrest⟩ := encodeVec_append_inj h
  obtain ⟨hpub, hrest⟩ := List.append_inj hrest (pub.length_encode.trans pub'.length_encode.symm)
  obtain rfl := PublicKey.encode_injective hpub
  obtain rfl := List.append_cancel_left hrest
  rfl

end Fips203

end MlKem
