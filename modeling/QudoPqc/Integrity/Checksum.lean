import QudoPqc.Integrity.Hmac
import QudoPqc.Lifecycle.Integrity

/-!
# Checksums of files

`qudo_fipsinstall` computes the HMAC of a file and writes it as a string of hexadecimal digits;
`qudo_pqc_verify_integrity` reads such a string, computes the HMAC again and compares. The two sides
have a parser each. `hex_to_bin` of the module reads with a limit on the number of bytes;
`fips_hexstr2buf` of the installer counts the digits before it reads any. `HexGroups` is the
language of both.

Each side also has a loop of its own that feeds a file to HMAC. The callback of the module may
return with no bytes and go on; the installer stops at the first empty read.
-/

namespace QudoPqc

namespace Integrity

open Digest

variable {c hi lo d : UInt8} {b s : Bytes} {reads : List Bytes}

/-! ## Strings of digits -/

/-- Groups of two hexadecimal digits, with any number of colons before, between and after them. -/
inductive HexGroups : Bytes → Bytes → Prop
  | nil : HexGroups [] []
  | colon {s b : Bytes} (h : HexGroups s b) : HexGroups (0x3a :: s) b
  | group {c d hi lo : UInt8} {s b : Bytes} (hhi : hexDigit c = some hi)
      (hlo : hexDigit d = some lo)
      (h : HexGroups s b) : HexGroups (c :: d :: s) ((16 * hi + lo) :: b)

theorem ne_colon_of_hexDigit {v : UInt8} (h : hexDigit c = some v) : c ≠ 0x3a := by
  rintro rfl
  exact nomatch h

theorem hexDigit_lt {v : UInt8} (h : hexDigit c = some v) : v < 16 := by
  rw [hexDigit] at h
  grind

/-- A group as `hex_to_bin` puts it together. -/
theorem shiftLeft_or (hhi : hi < 16) (hlo : lo < 16) :
    hi <<< 4 ||| lo = 16 * hi + lo := by
  have hall : ∀ a < 16, ∀ b < 16,
      UInt8.ofNat a <<< 4 ||| UInt8.ofNat b = 16 * UInt8.ofNat a + UInt8.ofNat b := by
    decide
  have h := hall hi.toNat (UInt8.lt_iff_toNat_lt.mp hhi) lo.toNat (UInt8.lt_iff_toNat_lt.mp hlo)
  rwa [UInt8.ofNat_toNat, UInt8.ofNat_toNat] at h

theorem hexGroups_nil : HexGroups [] b ↔ b = [] := by
  constructor
  · rintro ⟨⟩
    rfl
  · rintro rfl
    exact .nil

theorem hexGroups_colon : HexGroups (0x3a :: s) b ↔ HexGroups s b := by
  constructor
  · intro h
    cases h with
    | colon h => exact h
    | group hhi _ _ => exact absurd rfl (ne_colon_of_hexDigit hhi)
  · exact .colon

theorem hexGroups_singleton (hc : c ≠ 0x3a) : ¬HexGroups [c] b := by
  rintro ⟨⟩
  exact hc rfl

theorem hexGroups_cons_cons (hc : c ≠ 0x3a) :
    HexGroups (c :: d :: s) b ↔
      ∃ hi lo b', hexDigit c = some hi ∧ hexDigit d = some lo ∧ HexGroups s b' ∧
        b = (16 * hi + lo) :: b' := by
  constructor
  · intro h
    cases h with
    | colon h => exact absurd rfl hc
    | group hhi hlo h => exact ⟨_, _, _, hhi, hlo, h, rfl⟩
  · rintro ⟨hi, lo, b', hhi, hlo, h, rfl⟩
    exact .group hhi hlo h

theorem exists_hexGroups_group {P : Bytes → Prop}
    (hhi : hexDigit c = some hi) (hlo : hexDigit d = some lo) :
    (∃ b, HexGroups (c :: d :: s) b ∧ P b) ↔ ∃ b, HexGroups s b ∧ P ((16 * hi + lo) :: b) := by
  constructor
  · rintro ⟨_, hb, hP⟩
    obtain ⟨_, _, b, hhi', hlo', hs, rfl⟩ :=
      (hexGroups_cons_cons (ne_colon_of_hexDigit hhi)).mp hb
    cases hhi.symm.trans hhi'
    cases hlo.symm.trans hlo'
    exact ⟨b, hs, hP⟩
  · rintro ⟨b, hs, hP⟩
    exact ⟨_, .group hhi hlo hs, hP⟩

/-- Two characters of a string that are not colons make a byte. -/
theorem HexGroups.countP (h : HexGroups s b) :
    s.countP (fun c ↦ c ≠ 0x3a) = 2 * b.length := by
  induction h with
  | nil => rfl
  | colon _ ih => rwa [List.countP_cons_of_neg (by decide)]
  | group hhi hlo _ ih =>
    rw [List.countP_cons_of_pos (by simpa using ne_colon_of_hexDigit hhi),
      List.countP_cons_of_pos (by simpa using ne_colon_of_hexDigit hlo), ih, List.length_cons]
    omega

/-! ## The parser of the module -/

/-- What `hex_to_bin` returns when it returns anything: the groups of the string, if they fit. -/
theorem hexToBin_eq_iff {binLen : ℕ} (hex : Bytes) {bin r : Bytes} (hbin : bin.length ≤ binLen)
    (hr : r ≠ []) :
    hexToBin binLen hex bin = r ↔ ∃ b, HexGroups hex b ∧ r = bin ++ b ∧ r.length ≤ binLen := by
  have hend : ∀ bin : Bytes, bin.length ≤ binLen →
      (bin = r ↔ ∃ b, b = [] ∧ r = bin ++ b ∧ r.length ≤ binLen) := by
    intro bin hbin
    constructor
    · rintro rfl
      exact ⟨[], rfl, (List.append_nil _).symm, hbin⟩
    · rintro ⟨_, rfl, rfl, -⟩
      exact (List.append_nil _).symm
  fun_induction hexToBin binLen hex bin with
  | case1 bin =>
    simp only [hexGroups_nil]
    exact hend bin hbin
  | case2 bin =>
    simp only [hexGroups_colon, hexGroups_nil]
    exact hend bin hbin
  | case3 c bin hc =>
    refine iff_of_false hr.symm ?_
    rintro ⟨b, hb, -⟩
    exact hexGroups_singleton hc hb
  | case4 d hex bin ih =>
    simp only [hexGroups_colon]
    exact ih hbin
  | case5 c d hex bin hc hi lo hlo hhi hfull =>
    -- there is no room for the group
    refine iff_of_false hr.symm ?_
    rintro ⟨b, hb, rfl, hlen⟩
    obtain ⟨_, _, b', -, -, -, rfl⟩ := (hexGroups_cons_cons hc).mp hb
    rw [List.length_append, List.length_cons] at hlen
    omega
  | case6 c d hex bin hc hi lo hlo hhi hroom ih =>
    have hlen : (bin ++ [hi <<< 4 ||| lo]).length ≤ binLen := by
      rw [List.length_append, List.length_singleton]
      omega
    refine Iff.trans (ih hlen) ?_
    rw [shiftLeft_or (hexDigit_lt hhi) (hexDigit_lt hlo)]
    simp only [exists_hexGroups_group hhi hlo, List.append_assoc, List.singleton_append]
  | case7 c d hex bin hc hnot =>
    refine iff_of_false hr.symm ?_
    rintro ⟨b, hb, -⟩
    obtain ⟨hi, lo, _, hhi, hlo, -⟩ := (hexGroups_cons_cons hc).mp hb
    exact hnot hi lo hhi hlo

/-- A string gives a digest exactly when its groups are the bytes of the digest. -/
theorem hexToBin_eq_digest (hlen : b.length = 32) :
    hexToBin 32 s [] = b ↔ HexGroups s b := by
  have hne : b ≠ [] := List.ne_nil_of_length_eq_add_one hlen
  rw [hexToBin_eq_iff s (Nat.zero_le _) hne]
  constructor
  · rintro ⟨b', hb', rfl, -⟩
    exact hb'
  · intro hb
    exact ⟨b, hb, rfl, Nat.le_of_eq hlen⟩

/-! ## The parser of the installer -/

/-- `isxdigit` in the C locale. -/
def isxdigit (c : UInt8) : Bool :=
  (0x30 ≤ c ∧ c ≤ 0x39) ∨ (0x41 ≤ c ∧ c ≤ 0x46) ∨ (0x61 ≤ c ∧ c ≤ 0x66)

/-- `sscanf(p, "%2x", &val)` on the characters `c` and `d`, which are tested to be digits before, so
that a sign or `0x` does not come up. -/
def scan2x (c d : UInt8) : Option ℕ :=
  match hexDigit c, hexDigit d with
  | some hi, some lo => some (16 * hi.toNat + lo.toNat)
  | some hi, none => some hi.toNat
  | none, _ => none

/-- The second loop of `fips_hexstr2buf`, with the bytes written so far. At the last character
`p[1]` is the terminating zero, which is not a digit. -/
def hexstrLoop : (hex out : Bytes) → Option Bytes
  | [], out => some out
  | [c], out => if c = 0x3a then some out else none
  | c :: d :: hex, out =>
    if c = 0x3a then hexstrLoop (d :: hex) out
    else if !isxdigit c || !isxdigit d then none
    else
      match scan2x c d with
      | some val => hexstrLoop hex (out ++ [UInt8.ofNat val])
      | none => none

/-- `fips_hexstr2buf`, with the buffer and `*out_len`. -/
def fipsHexstr2buf (malloc : Bool) (hex : Bytes) : Option (Bytes × ℕ) :=
  let nbytes := hex.countP fun c ↦ c ≠ 0x3a
  if nbytes = 0 ∨ nbytes % 2 ≠ 0 then none
  else if !malloc then none
  else (hexstrLoop hex []).map fun buf ↦ (buf, nbytes / 2)

theorem isxdigit_iff : isxdigit c = true ↔ ∃ v, hexDigit c = some v := by
  rw [← Option.isSome_iff_exists, isxdigit, hexDigit]
  grind

theorem scan2x_of_hexDigit (hhi : hexDigit c = some hi)
    (hlo : hexDigit d = some lo) : scan2x c d = some (16 * hi.toNat + lo.toNat) := by
  rw [scan2x, hhi, hlo]

/-- The loop reads the groups of the string. -/
theorem hexstrLoop_eq_some {hex out r : Bytes} :
    hexstrLoop hex out = some r ↔ ∃ b, HexGroups hex b ∧ r = out ++ b := by
  have hdigit : ∀ {c d : UInt8}, ¬(!isxdigit c || !isxdigit d) = true →
      (∃ hi, hexDigit c = some hi) ∧ ∃ lo, hexDigit d = some lo := by
    intro c d h
    rw [← Bool.not_and, Bool.not_eq_true, Bool.not_eq_false', Bool.and_eq_true] at h
    exact ⟨isxdigit_iff.mp h.1, isxdigit_iff.mp h.2⟩
  fun_induction hexstrLoop hex out with
  | case1 out =>
    simp [hexGroups_nil, eq_comm]
  | case2 out =>
    simp [hexGroups_colon, hexGroups_nil, eq_comm]
  | case3 c out hc =>
    refine iff_of_false (Option.some_ne_none r).symm ?_
    rintro ⟨b, hb, -⟩
    exact hexGroups_singleton hc hb
  | case4 d hex out ih =>
    simp only [hexGroups_colon]
    exact ih
  | case5 c d hex out hc hnot =>
    refine iff_of_false (Option.some_ne_none r).symm ?_
    rintro ⟨b, hb, -⟩
    obtain ⟨hi, lo, _, hhi, hlo, -⟩ := (hexGroups_cons_cons hc).mp hb
    rw [isxdigit_iff.mpr ⟨hi, hhi⟩, isxdigit_iff.mpr ⟨lo, hlo⟩] at hnot
    exact Bool.false_ne_true hnot
  | case6 c d hex out hc hdigits val hval ih =>
    obtain ⟨⟨hi, hhi⟩, lo, hlo⟩ := hdigit hdigits
    have hval' := Option.some.inj (hval.symm.trans (scan2x_of_hexDigit hhi hlo))
    have hbyte : UInt8.ofNat val = 16 * hi + lo := by
      rw [hval', UInt8.ofNat_add, UInt8.ofNat_mul, UInt8.ofNat_toNat, UInt8.ofNat_toNat]
      rfl
    refine Iff.trans ih ?_
    simp only [exists_hexGroups_group hhi hlo, hbyte, List.append_assoc, List.singleton_append]
  | case7 c d hex out hc hdigits hval =>
    obtain ⟨⟨hi, hhi⟩, lo, hlo⟩ := hdigit hdigits
    exact nomatch ((scan2x_of_hexDigit hhi hlo).symm.trans hval)

/-- The string of a digest is read as the digest. -/
theorem fipsHexstr2buf_eq_digest (hlen : b.length = 32) :
    fipsHexstr2buf true s = some (b, 32) ↔ HexGroups s b := by
  constructor
  · intro h
    rw [fipsHexstr2buf] at h
    obtain ⟨-, h⟩ := Option.ite_none_left_eq_some.mp h
    obtain ⟨buf, hloop, hbuf⟩ := Option.map_eq_some_iff.mp h
    obtain ⟨b', hb', rfl⟩ := hexstrLoop_eq_some.mp hloop
    obtain rfl := congrArg Prod.fst hbuf
    exact hb'
  · intro hb
    have hcount := hb.countP
    rw [hlen] at hcount
    rw [fipsHexstr2buf, hcount, hexstrLoop_eq_some.mpr ⟨b, hb, rfl⟩]
    rfl

/-! ## The string of a digest -/

/-- A digit as `%X` prints it. -/
def upperDigit (n : ℕ) : UInt8 :=
  if n < 10 then 0x30 + UInt8.ofNat n else 0x41 + UInt8.ofNat (n - 10)

/-- The loop of `fips_buf2hexstr`: every byte as `%02X`, and a colon after all but the last. -/
def fipsBuf2hexstr : Bytes → Bytes
  | [] => []
  | [b] => [upperDigit (b.toNat / 16), upperDigit (b.toNat % 16)]
  | b :: b' :: buf =>
    upperDigit (b.toNat / 16) :: upperDigit (b.toNat % 16) :: 0x3a :: fipsBuf2hexstr (b' :: buf)

theorem hexDigit_upperDigit {n : ℕ} (hn : n < 16) :
    hexDigit (upperDigit n) = some (UInt8.ofNat n) := by
  have hall : ∀ n < 16, hexDigit (upperDigit n) = some (UInt8.ofNat n) := by decide
  exact hall n hn

/-- The digits of one byte. -/
theorem HexGroups.byte {bs : Bytes} (b : UInt8) (h : HexGroups s bs) :
    HexGroups (upperDigit (b.toNat / 16) :: upperDigit (b.toNat % 16) :: s) (b :: bs) := by
  have hb := b.toNat_lt
  have hbyte : 16 * UInt8.ofNat (b.toNat / 16) + UInt8.ofNat (b.toNat % 16) = b := by
    rw [show (16 : UInt8) = UInt8.ofNat 16 from rfl, ← UInt8.ofNat_mul, ← UInt8.ofNat_add,
      Nat.div_add_mod, UInt8.ofNat_toNat]
  have hgroup := h.group (hexDigit_upperDigit (n := b.toNat / 16) (by omega))
    (hexDigit_upperDigit (n := b.toNat % 16) (by omega))
  rwa [hbyte] at hgroup

theorem hexGroups_fipsBuf2hexstr (buf : Bytes) : HexGroups (fipsBuf2hexstr buf) buf := by
  fun_induction fipsBuf2hexstr buf with
  | case1 => exact .nil
  | case2 b => exact HexGroups.nil.byte b
  | case3 b b' buf ih => exact ih.colon.byte b

/-! ## Reading a file -/

/-- `QUDO_FIPS_KEY_ELEMENTS`. -/
def fixedKey : Bytes :=
  [0x98, 0x7d, 0x57, 0x22, 0x41, 0x23, 0xc8, 0x8f, 0xa3, 0x4e, 0x39, 0x09, 0xeb, 0x79, 0x05, 0x5b,
    0x28, 0xe8, 0x03, 0x5c, 0x98, 0xa6, 0xda, 0xad, 0xad, 0x24, 0xc6, 0xe8, 0x34, 0xd8, 0x3a, 0x85]

variable {sha : Sha256} {W H : Type}

/-- HMAC-SHA-256 under the fixed key. -/
def fileHmac (sha : Sha256) (image : Bytes) : Bytes :=
  Rfc2104.hmac sha.hash hmacBlockSize fixedKey image

theorem length_fileHmac (sha : Sha256) (image : Bytes) : (fileHmac sha image).length = 32 :=
    sha.length_hash _

/-- The loop of `qudo_pqc_verify_integrity`, over what the positive returns of `io_read` have left
in the buffer. -/
def hmacReads (ctx : HmacCtx sha) (reads : List Bytes) : HmacCtx sha :=
  reads.foldl (fun ctx buf ↦ if buf.length > 0 then hmacUpdate ctx buf else ctx) ctx

/-- `qudo_pqc_verify_integrity` with this loop. The context of HMAC and the buffer of the digest are
on the stack. -/
def verifyReads (P : Platform W H) (stack : HmacCtx sha) (computed : Bytes) (config : Config W H)
    (o : Outcome) (w : W) : Bool × W :=
  if !o.kat then (false, w)
  else
    match config.modulePath, config.moduleChecksumHex with
    | some path, some hex =>
      let expected := hexToBin 32 hex []
      if expected.length ≠ 32 then (false, w)
      else
        match (config.io P).ioOpen path w with
        | (none, w₁) => (false, w₁)
        | (some handle, w₁) =>
          let r := (config.io P).ioRead handle w₁
          let w₂ := (config.io P).ioClose handle r.2
          if !r.1.2 then (false, w₂)
          else
            let ctx := hmacReads (hmacInit stack (some fixedKey)) r.1.1
            (o.corrupt (hmacFinal ctx computed).2 = expected, w₂)
    | _, _ => (false, w)

/-- The loop of `compute_file_hmac`, over the returns of `fread`. -/
def hmacFreads (ctx : HmacCtx sha) : List Bytes → HmacCtx sha
  | [] => ctx
  | buf :: reads => if buf.length > 0 then hmacFreads (hmacUpdate ctx buf) reads else ctx

/-- What a file opened for reading gives: the bytes returned by the calls of `fread`, and whether
`ferror` is set in the end. -/
structure Stream where
  reads : List Bytes
  ferror : Bool

/-- `compute_file_hmac`, on no stream if `fopen` fails. -/
def computeFileHmac (stack : HmacCtx sha) (out : Bytes) : Option Stream → Option Bytes
  | none => none
  | some fp =>
    let ctx := hmacFreads (hmacInit stack (some fixedKey)) fp.reads
    if fp.ferror then none else some (hmacFinal ctx out).2

theorem computes_hmacReads {ctx : HmacCtx sha} {key text : Bytes} (h : ctx.Computes key text)
    (reads : List Bytes) : (hmacReads ctx reads).Computes key (text ++ reads.flatten) := by
  induction reads generalizing ctx text with
  | nil => rwa [List.flatten_nil, List.append_nil]
  | cons buf reads ih =>
    rw [hmacReads, List.foldl_cons, List.flatten_cons, ← List.append_assoc]
    by_cases hbuf : buf.length > 0
    · rw [if_pos hbuf]
      exact ih (h.update buf)
    · have hnil : buf = [] := List.eq_nil_of_length_eq_zero (Nat.eq_zero_of_not_pos hbuf)
      rw [if_neg hbuf, hnil, List.append_nil]
      exact ih h

theorem computes_hmacFreads {ctx : HmacCtx sha} {key text : Bytes} (h : ctx.Computes key text)
    (hreads : ∀ buf ∈ reads, buf ≠ []) :
    (hmacFreads ctx reads).Computes key (text ++ reads.flatten) := by
  induction reads generalizing ctx text with
  | nil => rwa [List.flatten_nil, List.append_nil]
  | cons buf reads ih =>
    rw [List.forall_mem_cons] at hreads
    rw [hmacFreads, if_pos (List.length_pos_iff.mpr hreads.1), List.flatten_cons,
      ← List.append_assoc]
    exact ih (h.update buf) hreads.2

/-- Reading in pieces gives the digest of the file. -/
theorem hmacFinal_hmacReads (stack : HmacCtx sha) (reads : List Bytes) (out : Bytes) :
    (hmacFinal (hmacReads (hmacInit stack (some fixedKey)) reads) out).2 =
      fileHmac sha reads.flatten :=
  congrArg Prod.snd ((computes_hmacReads (computes_hmacInit stack fixedKey) reads).final out)

theorem computeFileHmac_eq_some (stack : HmacCtx sha) (out : Bytes)
    (hreads : ∀ buf ∈ reads, buf ≠ []) :
    computeFileHmac stack out (some ⟨reads, false⟩) = some (fileHmac sha reads.flatten) :=
  congrArg (some ∘ Prod.snd)
    ((computes_hmacFreads (computes_hmacInit stack fixedKey) hreads).final out)

/-- The check with the loop is the one in the model of the life cycle. -/
theorem verifyReads_eq_verifyIntegrity {P : Platform W H} (hhmac : P.hmac = fileHmac sha)
    (stack : HmacCtx sha) (computed : Bytes) (config : Config W H) (o : Outcome) (w : W) :
    verifyReads P stack computed config o w = verifyIntegrity P config o w := by
  rw [verifyReads, verifyIntegrity]
  congr 1
  rcases config.modulePath with _ | path
  · rfl
  rcases config.moduleChecksumHex with _ | hex
  · rfl
  simp only [readFile]
  congr 1
  rcases (config.io P).ioOpen path w with ⟨_ | handle, w₁⟩
  · rfl
  dsimp only
  rcases (config.io P).ioRead handle w₁ with ⟨⟨reads, ended⟩, w₂⟩
  cases ended with
  | false => rfl
  | true =>
    simp only [hmacFinal_hmacReads, hhmac]
    rfl

/-- The check passes exactly for the string of the HMAC of the file. -/
theorem verifyReads_iff (P : Platform W H) (stack : HmacCtx sha) (computed : Bytes)
    {io : IoFns W H} {path : Bytes} {w w₁ : W} {handle : H} {ended : Bool}
    (hopen : io.ioOpen path w = (some handle, w₁))
    (hread : (io.ioRead handle w₁).1 = (reads, ended)) :
    (verifyReads P stack computed
      ⟨some path, some s, some io.ioOpen, some io.ioRead, some io.ioClose⟩ .passing w).1 = true ↔
        ended = true ∧ HexGroups s (fileHmac sha reads.flatten) := by
  have hdigest := hexToBin_eq_digest (s := s) (length_fileHmac sha reads.flatten)
  have hio : Config.io P ⟨some path, some s, some io.ioOpen, some io.ioRead,
    some io.ioClose⟩ = io :=
    rfl
  simp only [verifyReads, Outcome.passing, hio, hopen, hread, hmacFinal_hmacReads, ← hdigest]
  by_cases hlen : (hexToBin 32 s []).length = 32
  · rw [if_neg (not_not.mpr hlen)]
    cases ended with
    | false => simp
    | true => simp [eq_comm]
  · -- a string of another length is not that of a digest
    rw [if_pos hlen]
    refine iff_of_false Bool.false_ne_true ?_
    rintro ⟨-, heq⟩
    exact hlen (heq ▸ length_fileHmac sha _)

/-- The module accepts a checksum exactly when it spells the HMAC of the file, the two parsers read
the same digests, and what the installer computes for a file, however it is read, is accepted. -/
theorem file_integrity_agrees (P : Platform W H) (stack stack' : HmacCtx sha) (computed out : Bytes)
    {io : IoFns W H} {path : Bytes} {w w₁ : W} {handle : H} {reads : List Bytes} {ended : Bool}
    (hopen : io.ioOpen path w = (some handle, w₁))
    (hread : (io.ioRead handle w₁).1 = (reads, ended)) :
    let verify (s : Bytes) : Bool := (verifyReads P stack computed
      ⟨some path, some s, some io.ioOpen, some io.ioRead, some io.ioClose⟩ .passing w).1
    (∀ s, verify s = true ↔ ended = true ∧
      ∃ b, HexGroups s b ∧ b.length = 32 ∧ b = fileHmac sha reads.flatten) ∧
    (∀ s b : Bytes, b.length = 32 →
      (hexToBin 32 s [] = b ↔ fipsHexstr2buf true s = some (b, 32))) ∧
    (∀ image, hexToBin 32 (fipsBuf2hexstr (fileHmac sha image)) [] = fileHmac sha image ∧
      fipsHexstr2buf true (fipsBuf2hexstr (fileHmac sha image)) = some (fileHmac sha image, 32)) ∧
    ∀ (fp : Stream) (mac : Bytes), (∀ buf ∈ fp.reads, buf ≠ []) →
      fp.reads.flatten = reads.flatten → computeFileHmac stack' out (some fp) = some mac →
      ended = true → verify (fipsBuf2hexstr mac) = true := by
  intro verify
  have hverify : ∀ s, verify s = true ↔ ended = true ∧ HexGroups s (fileHmac sha reads.flatten) :=
    fun s ↦ verifyReads_iff P stack computed hopen hread
  refine ⟨fun s ↦ (hverify s).trans ?_, fun s b hlen ↦ ?_, fun image ↦ ⟨?_, ?_⟩, ?_⟩
  · refine and_congr_right fun _ ↦ ⟨fun hs ↦ ⟨_, hs, length_fileHmac sha _, rfl⟩, ?_⟩
    rintro ⟨_, hs, -, rfl⟩
    exact hs
  · rw [hexToBin_eq_digest hlen, fipsHexstr2buf_eq_digest hlen]
  · exact (hexToBin_eq_digest (length_fileHmac sha image)).mpr (hexGroups_fipsBuf2hexstr _)
  · exact (fipsHexstr2buf_eq_digest (length_fileHmac sha image)).mpr (hexGroups_fipsBuf2hexstr _)
  · rintro ⟨freads, ferror⟩ mac hfreads hsame hmac hended
    cases ferror with
    | true => exact nomatch hmac
    | false =>
      rw [computeFileHmac_eq_some stack' out hfreads, hsame] at hmac
      rw [hverify, ← Option.some.inj hmac]
      exact ⟨hended, hexGroups_fipsBuf2hexstr _⟩

/-- A file that `io_read` delivers with an empty read in the middle. -/
def threeReads : IoFns Unit Unit where
  ioOpen _ _ := (some (), ())
  ioRead _ _ := (([[1, 2], [], [3]], true), ())
  ioClose _ _ := ()

/-- The checksum of that file, read in two calls of `fread`, verifies. -/
theorem file_integrity_agrees_three_reads :
    (verifyReads (⟨fileHmac truncation, threeReads, fun _ ↦ [], fun _ ↦ [], true⟩ : Platform _ _)
      (.cleared truncation) [] ⟨some [0x66], some (fipsBuf2hexstr (fileHmac truncation [1, 2, 3])),
        some threeReads.ioOpen, some threeReads.ioRead, some threeReads.ioClose⟩
      .passing ()).1 = true :=
  (file_integrity_agrees _ (.cleared truncation) (.cleared truncation) [] []
    (show threeReads.ioOpen [0x66] () = (some (), ()) from rfl)
    (show (threeReads.ioRead () ()).1 = ([[1, 2], [], [3]], true) from rfl)).2.2.2
      ⟨[[1, 2], [3]], false⟩ _ (by decide) rfl
      (computeFileHmac_eq_some (.cleared truncation) [] (by decide)) rfl

end Integrity

end QudoPqc
