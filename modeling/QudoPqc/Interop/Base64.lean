import QudoPqc.Codec.Packing

/-!
# Base64 in lines

`mldsa_interop.c`, `mlkem_interop.c` and `slhdsa_interop.c` each have a copy of the same base64
functions; the copies differ in the prefix of their names only, and are one here. The writer takes
three bytes at a time and counts columns to break the line after 64 characters. The reader knows
nothing of groups or lines: it skips blanks, shifts six bits at a time into an accumulator and emits
a byte whenever eight have arrived.

Both come together every four characters, when the accumulator is empty again; the round trip is an
induction over groups from there (`b64DecodeLoop_quad`), with the one or two bytes that remain as
the base case.

Characters are bytes.
-/

namespace Interop

open Codec

/-- The bytes of a text of the source. -/
def ascii (s : String) : Bytes := s.toList.map fun c ↦ UInt8.ofNat c.toNat

/-- `b64_alphabet`. -/
def b64Alphabet : Bytes :=
  ascii "ABCDEFGHIJKLMNOPQRSTUVWXYZabcdefghijklmnopqrstuvwxyz0123456789+/"

/-- `b64_decode_char`. -/
def b64DecodeChar (c : UInt8) : Option ℕ :=
  if 0x41 ≤ c ∧ c ≤ 0x5a then some (c.toNat - 0x41)
  else if 0x61 ≤ c ∧ c ≤ 0x7a then some (c.toNat - 0x61 + 26)
  else if 0x30 ≤ c ∧ c ≤ 0x39 then some (c.toNat - 0x30 + 52)
  else if c = 0x2b then some 62
  else if c = 0x2f then some 63
  else none

/-- `PEM_LINE`. -/
def pemLine : ℕ := 64

/-- `b64_encoded_len`. -/
def b64EncodedLen (binLen : ℕ) : ℕ :=
  let groups := (binLen + 2) / 3
  let b64 := groups * 4
  let lines := (b64 + pemLine - 1) / pemLine
  b64 + lines

/-! ## Writing -/

/-- `alphabet[i & 0x3F]`. -/
def b64Char (i : ℕ) : UInt8 := b64Alphabet.getD (i &&& 0x3F) 0

/-- The characters for the one or two bytes that remain. -/
def b64EncodeTail : Bytes → Bytes
  | [a] =>
    let v := a.toNat <<< 16
    [b64Char (v >>> 18), b64Char (v >>> 12), 0x3d, 0x3d]
  | [a, b] =>
    let v := a.toNat <<< 16 ||| b.toNat <<< 8
    [b64Char (v >>> 18), b64Char (v >>> 12), b64Char (v >>> 6), 0x3d]
  | _ => []

/-- The loop of `b64_encode_wrapped` from column `col` on, and what follows it. -/
def b64EncodeLoop : (col : ℕ) → Bytes → Bytes
  | col, a :: b :: c :: rest =>
    let v := a.toNat <<< 16 ||| b.toNat <<< 8 ||| c.toNat
    [b64Char (v >>> 18), b64Char (v >>> 12), b64Char (v >>> 6), b64Char v] ++
      if col + 4 ≥ pemLine then 0x0a :: b64EncodeLoop 0 rest else b64EncodeLoop (col + 4) rest
  | col, rest =>
    let col := if rest = [] then col else col + 4
    b64EncodeTail rest ++ if col ≠ 0 then [0x0a] else []

/-- `b64_encode_wrapped`. -/
def b64EncodeWrapped (input : Bytes) : Bytes := b64EncodeLoop 0 input

/-! ## Reading -/

/-- `c == '\r' || c == '\n' || c == ' ' || c == '\t'`. -/
def isBlank (c : UInt8) : Bool := c = 0x0d ∨ c = 0x0a ∨ c = 0x20 ∨ c = 0x09

/-- The loop of `b64_decode`; `outLen` is the capacity of the output. -/
def b64DecodeLoop (outLen : ℕ) : (input out : Bytes) → (buf bufBits pad : ℕ) →
    Option Bytes
  | [], out, _, _, _ => some out
  | c :: input, out, buf, bufBits, pad =>
    if isBlank c then b64DecodeLoop outLen input out buf bufBits pad
    else if c = 0x3d then b64DecodeLoop outLen input out buf bufBits (pad + 1)
    else if pad ≠ 0 then none
    else (b64DecodeChar c).bind fun v ↦
      let buf := (buf <<< 6 ||| v) % 2 ^ 32
      let bufBits := bufBits + 6
      if bufBits ≥ 8 then
        let bufBits := bufBits - 8
        if out.length ≥ outLen then none
        else b64DecodeLoop outLen input (out ++ [UInt8.ofNat (buf >>> bufBits &&& 0xFF)])
          (buf &&& (1 <<< bufBits - 1)) bufBits pad
      else b64DecodeLoop outLen input out buf bufBits pad

/-- `b64_decode`. -/
def b64Decode (outLen : ℕ) (input : Bytes) : Option Bytes :=
  b64DecodeLoop outLen input [] 0 0 0

/-! ## The alphabet -/

theorem b64Char_eq (i : ℕ) : b64Char i = b64Alphabet.getD (i % 64) 0 := by
  rw [b64Char, Nat.and_two_pow_sub_one_eq_mod _ 6]

theorem b64Alphabet_spec : ∀ i : Fin 64,
    b64DecodeChar (b64Alphabet.getD i 0) = some (i : ℕ) ∧ isBlank (b64Alphabet.getD i 0) = false ∧
      b64Alphabet.getD i 0 ≠ 0x3d ∧ b64Alphabet.getD i 0 ≠ 0x2d ∧ b64Alphabet.getD i 0 ≠ 0 := by
  decide +kernel

theorem b64Char_spec (i : ℕ) :
    b64DecodeChar (b64Char i) = some (i % 64) ∧ isBlank (b64Char i) = false ∧
      b64Char i ≠ 0x3d ∧ b64Char i ≠ 0x2d ∧ b64Char i ≠ 0 := by
  rw [b64Char_eq]
  exact b64Alphabet_spec ⟨i % 64, Nat.mod_lt i (by decide)⟩

/-- The characters that the writer uses. -/
def IsB64 (c : UInt8) : Prop := (∃ i, c = b64Char i) ∨ c = 0x3d ∨ c = 0x0a

theorem IsB64.ne_dash {c : UInt8} (h : IsB64 c) : c ≠ 0x2d := by
  rcases h with ⟨i, rfl⟩ | rfl | rfl
  · exact (b64Char_spec i).2.2.2.1
  · decide
  · decide

theorem IsB64.ne_zero {c : UInt8} (h : IsB64 c) : c ≠ 0 := by
  rcases h with ⟨i, rfl⟩ | rfl | rfl
  · exact (b64Char_spec i).2.2.2.2
  · decide
  · decide

/-! ## The text -/

theorem isB64_tail {rest : Bytes} {c : UInt8} (h : c ∈ b64EncodeTail rest) : IsB64 c := by
  match rest with
  | [] => cases h
  | [a] =>
    simp only [b64EncodeTail, List.mem_cons, List.not_mem_nil, or_false] at h
    rcases h with rfl | rfl | rfl | rfl
    · exact .inl ⟨_, rfl⟩
    · exact .inl ⟨_, rfl⟩
    · exact .inr (.inl rfl)
    · exact .inr (.inl rfl)
  | [a, b] =>
    simp only [b64EncodeTail, List.mem_cons, List.not_mem_nil, or_false] at h
    rcases h with rfl | rfl | rfl | rfl
    · exact .inl ⟨_, rfl⟩
    · exact .inl ⟨_, rfl⟩
    · exact .inl ⟨_, rfl⟩
    · exact .inr (.inl rfl)
  | a :: b :: c :: rest => cases h

theorem isB64_loop {col : ℕ} {input : Bytes} {c : UInt8} (h : c ∈ b64EncodeLoop col input) :
    IsB64 c := by
  induction col, input using b64EncodeLoop.induct with
  | case1 col x y z rest ih0 ih4 =>
    rw [b64EncodeLoop] at h
    rcases List.mem_append.mp h with h | h
    · simp only [List.mem_cons, List.not_mem_nil, or_false] at h
      rcases h with rfl | rfl | rfl | rfl <;> exact .inl ⟨_, rfl⟩
    · split at h
      · rcases List.mem_cons.mp h with rfl | h
        · exact .inr (.inr rfl)
        · exact ih0 h
      · exact ih4 h
  | case2 col rest hrest =>
    rw [b64EncodeLoop] at h
    · rcases List.mem_append.mp h with h | h
      · exact isB64_tail h
      · exact .inr (.inr (List.mem_singleton.mp (List.mem_ite_nil_right.mp h).2))
    · exact hrest

/-- Four characters for each group, and the ends of the lines that they fill from column `col` on.
-/
theorem length_b64EncodeLoop {col : ℕ} (hcol : col < 64) (hcol4 : 4 ∣ col) (input : Bytes) :
    (b64EncodeLoop col input).length =
      (input.length + 2) / 3 * 4 + (col + (input.length + 2) / 3 * 4 + 63) / 64 := by
  induction col, input using b64EncodeLoop.induct with
  | case1 col x y z rest ih0 ih4 =>
    have hgroups : ((x :: y :: z :: rest).length + 2) / 3 = (rest.length + 2) / 3 + 1 := by
      simp only [List.length_cons]
      omega
    have ih0 := ih0 (by omega) (by omega)
    rw [b64EncodeLoop, List.length_append, hgroups, pemLine]
    split
    · simp only [List.length_cons, List.length_nil, ih0]
      omega
    · simp only [List.length_cons, List.length_nil, ih4 (by omega) (by omega)]
      omega
  | case2 col rest hrest =>
    rw [b64EncodeLoop]
    · match rest, hrest with
      | [], _ =>
        simp only [b64EncodeTail, List.nil_append, if_true, List.length_nil]
        split
        · simp only [List.length_singleton]
          omega
        · simp only [List.length_nil]
          omega
      | [a], _ =>
        simp [b64EncodeTail]
        omega
      | [a, b], _ =>
        simp [b64EncodeTail]
        omega
      | x :: y :: z :: rest, hrest => exact (hrest x y z rest rfl).elim
    · exact hrest

theorem length_b64EncodeWrapped (input : Bytes) :
    (b64EncodeWrapped input).length = b64EncodedLen input.length := by
  rw [b64EncodeWrapped, length_b64EncodeLoop (by decide) (by decide), b64EncodedLen, pemLine]
  simp only [Nat.zero_add]
  omega

/-! ## The round trip -/

section Reading

variable {cap : ℕ} {input out : Bytes} {buf bits : ℕ}

theorem b64DecodeLoop_newline (pad : ℕ) :
    b64DecodeLoop cap (0x0a :: input) out buf bits pad = b64DecodeLoop cap input out buf bits pad :=
  rfl

theorem shift_or (i : ℕ) (hbuf : buf < 2 ^ 26) :
    (buf <<< 6 ||| i % 64) % 2 ^ 32 = buf * 64 + i % 64 := by
  have hlow : i % 64 < 2 ^ 6 := Nat.mod_lt i (by decide)
  rw [Nat.or_comm, or_shiftLeft _ hlow]
  omega

/-- A character that leaves fewer than eight bits. -/
theorem b64DecodeLoop_shift (i : ℕ) (hbuf : buf < 2 ^ 26) (hbits : bits + 6 < 8) :
    b64DecodeLoop cap (b64Char i :: input) out buf bits 0 =
      b64DecodeLoop cap input out (buf * 64 + i % 64) (bits + 6) 0 := by
  obtain ⟨hvalue, hblank, heq, -⟩ := b64Char_spec i
  rw [b64DecodeLoop, hblank, if_neg Bool.false_ne_true, if_neg heq, if_neg (by decide), hvalue,
    Option.bind_some]
  dsimp only
  rw [shift_or i hbuf, if_neg (by omega)]

/-- A character that completes a byte. -/
theorem b64DecodeLoop_emit (i left rest : ℕ) (byte : UInt8) (hbuf : buf < 2 ^ 26)
    (hbits : bits + 6 = left + 8) (hsplit : buf * 64 + i % 64 = byte.toNat * 2 ^ left + rest)
    (hrest : rest < 2 ^ left) (hcap : out.length < cap) :
    b64DecodeLoop cap (b64Char i :: input) out buf bits 0 =
      b64DecodeLoop cap input (out ++ [byte]) rest left 0 := by
  obtain ⟨hvalue, hblank, heq, -⟩ := b64Char_spec i
  have hpos := Nat.two_pow_pos left
  have hbyte : UInt8.ofNat ((byte.toNat * 2 ^ left + rest) >>> left &&& 0xFF) = byte := by
    rw [Nat.shiftRight_eq_div_pow, Nat.mul_comm, Nat.mul_add_div hpos, Nat.div_eq_of_lt hrest,
      Nat.add_zero, Nat.and_two_pow_sub_one_eq_mod _ 8, UInt8.ofNat_mod_size, UInt8.ofNat_toNat]
  have hmask : (byte.toNat * 2 ^ left + rest) &&& (1 <<< left - 1) = rest := by
    rw [Nat.shiftLeft_eq, Nat.one_mul, Nat.and_two_pow_sub_one_eq_mod, Nat.mul_comm,
      Nat.mul_add_mod, Nat.mod_eq_of_lt hrest]
  rw [b64DecodeLoop, hblank, if_neg Bool.false_ne_true, if_neg heq, if_neg (by decide), hvalue,
    Option.bind_some]
  dsimp only
  rw [shift_or i hbuf, hbits, hsplit, Nat.add_sub_cancel, if_pos (Nat.le_add_left 8 left),
    if_neg (by omega), hbyte, hmask]

/-- Four characters give three bytes and leave the accumulator empty. -/
theorem b64DecodeLoop_quad (a b c : UInt8) (hcap : out.length + 3 ≤ cap) :
    let v := a.toNat <<< 16 ||| b.toNat <<< 8 ||| c.toNat
    b64DecodeLoop cap
        ([b64Char (v >>> 18), b64Char (v >>> 12), b64Char (v >>> 6), b64Char v] ++ input)
        out 0 0 0 =
      b64DecodeLoop cap input (out ++ [a, b, c]) 0 0 0 := by
  have ha := toNat_lt a
  have hb := toNat_lt b
  have hc := toNat_lt c
  have hv : a.toNat <<< 16 ||| b.toNat <<< 8 ||| c.toNat =
      c.toNat + b.toNat * 2 ^ 8 + a.toNat * 2 ^ 16 := by
    rw [Nat.or_comm, Nat.or_comm (a.toNat <<< 16), ← Nat.or_assoc, or_shiftLeft 8 hc,
      or_shiftLeft 16 (by omega)]
  dsimp only
  rw [hv]
  simp only [Nat.shiftRight_eq_div_pow, List.cons_append, List.nil_append]
  rw [b64DecodeLoop_shift _ (by decide) (by decide),
    b64DecodeLoop_emit _ 4 (b.toNat / 16) a (by omega) rfl (by omega) (by omega) (by omega),
    b64DecodeLoop_emit _ 2 (c.toNat / 64) b (by omega) rfl (by omega) (by omega) (by simp; omega),
    b64DecodeLoop_emit _ 0 0 c (by omega) rfl (by omega) (by omega) (by simp; omega)]
  simp

/-- The one or two bytes that remain; the bits left in the accumulator are dropped. -/
theorem b64DecodeLoop_tail {rest : Bytes} (hrest : rest.length < 3)
    (hcap : out.length + rest.length ≤ cap) {nl : Bytes} (hnl : nl = [] ∨ nl = [0x0a]) :
    b64DecodeLoop cap (b64EncodeTail rest ++ nl) out 0 0 0 = some (out ++ rest) := by
  match rest, hrest with
  | [], _ =>
    rw [List.append_nil]
    rcases hnl with rfl | rfl <;> rfl
  | [a], _ =>
    have ha := toNat_lt a
    rw [List.length_singleton] at hcap
    simp only [b64EncodeTail, List.cons_append, List.nil_append, Nat.shiftLeft_eq,
      Nat.shiftRight_eq_div_pow]
    rw [b64DecodeLoop_shift _ (by decide) (by decide),
      b64DecodeLoop_emit _ 4 0 a (by omega) rfl (by omega) (by decide) (by omega)]
    rcases hnl with rfl | rfl <;> rfl
  | [a, b], _ =>
    have ha := toNat_lt a
    have hb := toNat_lt b
    have hv : a.toNat <<< 16 ||| b.toNat <<< 8 = b.toNat * 2 ^ 8 + a.toNat * 2 ^ 16 := by
      rw [Nat.or_comm, or_shiftLeft 16 (by rw [Nat.shiftLeft_eq]; omega), Nat.shiftLeft_eq]
    simp only [List.length_cons, List.length_nil] at hcap
    simp only [b64EncodeTail, hv, List.cons_append, List.nil_append, Nat.shiftRight_eq_div_pow]
    rw [b64DecodeLoop_shift _ (by decide) (by decide),
      b64DecodeLoop_emit _ 4 (b.toNat / 16) a (by omega) rfl (by omega) (by omega) (by omega),
      b64DecodeLoop_emit _ 2 0 b (by omega) rfl (by omega) (by decide) (by simp; omega)]
    rcases hnl with rfl | rfl <;> simp [b64DecodeLoop, isBlank]

theorem b64DecodeLoop_encodeLoop {col : ℕ} {b : Bytes} (hcap : out.length + b.length ≤ cap) :
    b64DecodeLoop cap (b64EncodeLoop col b) out 0 0 0 = some (out ++ b) := by
  induction col, b using b64EncodeLoop.induct generalizing out with
  | case1 col x y z rest ih0 ih4 =>
    have hlen : (out ++ [x, y, z]).length + rest.length ≤ cap := by
      simp only [List.length_append, List.length_cons, List.length_nil] at hcap ⊢
      omega
    have happ : out ++ x :: y :: z :: rest = out ++ [x, y, z] ++ rest := by simp
    have hquad : out.length + 3 ≤ cap := by
      rw [List.length_cons, List.length_cons, List.length_cons] at hcap
      omega
    rw [b64EncodeLoop, b64DecodeLoop_quad x y z hquad, happ]
    split
    · rw [b64DecodeLoop_newline, ih0 hlen]
    · exact ih4 hlen
  | case2 col rest hrest =>
    rw [b64EncodeLoop]
    · refine b64DecodeLoop_tail ?_ hcap ?_
      · match rest, hrest with
        | [], _ => decide
        | [_], _ => simp
        | [_, _], _ => simp
        | x :: y :: z :: rest, hrest => exact (hrest x y z rest rfl).elim
      · by_cases h : (if rest = [] then col else col + 4) ≠ 0
        · exact .inr (if_pos h)
        · exact .inl (if_neg h)
    · exact hrest

/-- What is decoded consists of blanks, padding and characters of the alphabet. -/
theorem b64DecodeLoop_chars {pad : ℕ} {der : Bytes}
    (h : b64DecodeLoop cap input out buf bits pad = some der) :
    ∀ c ∈ input, isBlank c ∨ c = 0x3d ∨ (b64DecodeChar c).isSome := by
  induction input generalizing out buf bits pad with
  | nil => exact fun c hc ↦ absurd hc List.not_mem_nil
  | cons c input ih =>
    rw [b64DecodeLoop] at h
    split at h
    · next hblank => exact List.forall_mem_cons.mpr ⟨.inl hblank, ih h⟩
    split at h
    · next heq => exact List.forall_mem_cons.mpr ⟨.inr (.inl heq), ih h⟩
    obtain ⟨-, h⟩ := Option.ite_none_left_eq_some.mp h
    obtain ⟨v, hv, h⟩ := Option.bind_eq_some_iff.mp h
    refine List.forall_mem_cons.mpr ⟨.inr (.inr (by rw [hv]; rfl)), ?_⟩
    dsimp only at h
    split_ifs at h
    · exact ih h
    · exact ih h

end Reading

/-- Reading gives back what was written, whatever the lines. -/
theorem b64Decode_encodeWrapped {cap : ℕ} {b : Bytes} (hcap : b.length ≤ cap) :
    b64Decode cap (b64EncodeWrapped b) = some b :=
  b64DecodeLoop_encodeLoop (by simpa using hcap)

/-- There is no dash and no NUL in what is decoded. -/
theorem ne_of_b64Decode {cap : ℕ} {body der : Bytes} (h : b64Decode cap body = some der) :
    (∀ c ∈ body, c ≠ 0x2d) ∧ ∀ c ∈ body, c ≠ 0 := by
  have hchars := b64DecodeLoop_chars h
  constructor
  · rintro c hc rfl
    exact absurd (hchars _ hc) (by decide)
  · rintro c hc rfl
    exact absurd (hchars _ hc) (by decide)

end Interop
