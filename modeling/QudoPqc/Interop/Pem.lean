import QudoPqc.Codec.Search
import QudoPqc.Interop.Asn1
import QudoPqc.Interop.Base64

/-!
# The PEM frame

A key in PEM is its DER encoding in base64 between two markers. The text is written the same way by
all three interop files. It is read in two ways: `mldsa_interop.c` and `mlkem_interop.c` search the
whole text for both markers, `slhdsa_interop.c` searches for the end marker behind the begin marker.

The pair works because a base64 line has no dash: no marker can start inside the body, and inside
the begin marker the end marker cannot start either (`search_endMarker`).
-/

namespace Interop

open Codec

/-- What is written between the dashes. -/
inductive Label
  | publicKey
  | privateKey
  deriving DecidableEq, Repr

namespace Label

/-- The characters of a label. -/
def text : Label → Bytes
  | publicKey => ascii "PUBLIC KEY"
  | privateKey => ascii "PRIVATE KEY"

/-- The line before the body, without its end. -/
def beginMarker (l : Label) : Bytes := ascii "-----BEGIN " ++ l.text ++ ascii "-----"

/-- The line after the body, without its end. -/
def endMarker (l : Label) : Bytes := ascii "-----END " ++ l.text ++ ascii "-----"

end Label

/-! ## Writing -/

/-- The text that the PEM functions write before the NUL. -/
def pemText (l : Label) (der : Bytes) : Bytes :=
  l.beginMarker ++ [0x0a] ++ b64EncodeWrapped der ++ (l.endMarker ++ [0x0a])

/-- `need`, with the NUL. -/
def pemNeed (l : Label) (derLen : ℕ) : ℕ :=
  (l.beginMarker ++ [0x0a]).length + b64EncodedLen derLen + (l.endMarker ++ [0x0a]).length + 1

/-- What a function with a buffer returns with success: the size to provide when the buffer is NULL,
or the bytes in the buffer, whose number it reports. -/
inductive Output
  | needed (len : ℕ)
  | written (bytes : Bytes)
  deriving DecidableEq, Repr

/-- The second half of `QUDO_KEM_export_public_key_pem` and of the two ML-DSA functions, from the
DER encoding on. The buffer is NULL or has a capacity. -/
def writePem (l : Label) (der : Bytes) : (buffer : Option ℕ) → Except Failure Output
  | none => .ok (.needed (pemNeed l der.length))
  | some pemLen =>
    if pemLen < pemNeed l der.length then .error (.bufferTooSmall (pemNeed l der.length))
    else .ok (.written (pemText l der))

/-- `slhdsa_pem_wrap`, which reports nothing when the buffer is too small. -/
def slhdsaPemWrap (l : Label) (der : Bytes) : (buffer : Option ℕ) → Except Failure Output
  | none => .ok (.needed (pemNeed l der.length))
  | some outLen =>
    if outLen < pemNeed l der.length then .error (.bufferTooSmall outLen)
    else .ok (.written (pemText l der))

/-! ## Reading -/

/-- The first half of `QUDO_KEM_import_public_key_pem` and of the two ML-DSA functions, up to the
DER encoding; `derLen` is the size of `der_buffer`. -/
def readPem (l : Label) (derLen : ℕ) (pem : Bytes) : Option Bytes :=
  let text := cString pem
  (search l.beginMarker text).bind fun startPos ↦
    (search l.endMarker text).bind fun endPos ↦
      if startPos ≥ endPos then none
      else
        let startPos := startPos + l.beginMarker.length
        -- the end marker may share dashes with the begin marker; the length is then negative as a
        -- `size_t`, and the decoder runs on to the NUL, which it rejects
        b64Decode derLen (if startPos ≤ endPos then (text.drop startPos).take (endPos - startPos)
          else text.drop startPos ++ [0])

/-- `slhdsa_pem_unwrap`. The length `pem_len` is replaced by `strlen` when it is zero and read
nowhere else. -/
def slhdsaPemUnwrap (l : Label) (pem : Bytes) (pemLen derLen : ℕ) : Option Bytes :=
  let text := cString pem
  let _pemLen := if pemLen = 0 then text.length else pemLen
  (search l.beginMarker text).bind fun p ↦
    let rest := text.drop (p + l.beginMarker.length)
    (search l.endMarker rest).bind fun q ↦
      if q = 0 then none else b64Decode derLen (rest.take q)

/-! ## Pairs of functions -/

/-- What is exported comes back. The DER exporter reports the size it needs; the PEM exporter writes
one character less than the size it reports for a NULL buffer, and the importer does not look behind
the NUL that follows. -/
def RoundTrips (exportDer : Bytes → ℕ → Except Failure Bytes)
    (importDer : Bytes → ℕ → Except Failure Bytes)
    (exportPem : Bytes → Option ℕ → Except Failure Output)
    (importPem : Bytes → ℕ → Except Failure Bytes) (key : Bytes) : Prop :=
  ∃ der text : Bytes,
    (∀ derLen, exportDer key derLen =
      if der.length > derLen then .error (.bufferTooSmall der.length) else .ok der) ∧
    (∀ cap, key.length ≤ cap → importDer der cap = .ok key) ∧
    exportPem key none = .ok (.needed (text.length + 1)) ∧
    (∀ pemLen, text.length + 1 ≤ pemLen → exportPem key (some pemLen) = .ok (.written text)) ∧
    ∀ cap rest, key.length ≤ cap → importPem (text ++ 0 :: rest) cap = .ok key

/-! ## What stands where -/

theorem length_pemText (l : Label) (der : Bytes) :
    (pemText l der).length + 1 = pemNeed l der.length := by
  rw [pemText, pemNeed, List.length_append, List.length_append, length_b64EncodeWrapped]

theorem marker_ne_zero (l : Label) :
    (∀ c ∈ l.beginMarker ++ [0x0a], c ≠ 0) ∧ ∀ c ∈ l.endMarker ++ [0x0a], c ≠ 0 := by
  cases l <;> decide +kernel

theorem pemText_ne_zero {l : Label} {der : Bytes} : ∀ c ∈ pemText l der, c ≠ 0 := by
  intro c hc
  rcases List.mem_append.mp hc with hc | hc
  · rcases List.mem_append.mp hc with hc | hc
    · exact (marker_ne_zero l).1 c hc
    · exact (isB64_loop hc).ne_zero
  · exact (marker_ne_zero l).2 c hc

/-- The end marker and a suffix of the begin marker differ somewhere. -/
theorem marker_clash (l : Label) : ∀ j < l.beginMarker.length,
    ¬l.endMarker <+: l.beginMarker.drop j ++ [0x0a] ∧
      ¬l.beginMarker.drop j ++ [0x0a] <+: l.endMarker := by
  cases l <;> decide +kernel

/-- The end marker does not start before its place behind a body without dashes. -/
theorem search_endMarker_body (l : Label) {body : Bytes} (h : ∀ c ∈ body, c ≠ 0x2d)
    (rest : Bytes) : search l.endMarker (body ++ (l.endMarker ++ rest)) = some body.length := by
  obtain ⟨tail, htail⟩ : ∃ tail, l.endMarker = 0x2d :: tail := by
    cases l <;> exact ⟨_, rfl⟩
  have hnone : ∀ j < body.length, ¬l.endMarker <+: body.drop j ++ (l.endMarker ++ rest) := by
    intro j hj
    rw [List.drop_eq_getElem_cons hj, List.cons_append, htail]
    exact not_prefix_of_head_ne (h _ (List.getElem_mem hj)).symm
  rw [search_append hnone, search_eq_zero (List.prefix_append _ _), Option.map_some, Nat.zero_add]

/-- Nor does it start in the begin marker. -/
theorem search_endMarker (l : Label) {body : Bytes} (h : ∀ c ∈ body, c ≠ 0x2d)
    (rest : Bytes) :
    search l.endMarker (l.beginMarker ++ (0x0a :: body ++ (l.endMarker ++ rest))) =
      some (l.beginMarker.length + 1 + body.length) := by
  have hnl : ∀ c ∈ 0x0a :: body, c ≠ 0x2d := List.forall_mem_cons.mpr ⟨by decide, h⟩
  have hnone : ∀ j < l.beginMarker.length,
      ¬l.endMarker <+: l.beginMarker.drop j ++ (0x0a :: body ++ (l.endMarker ++ rest)) := by
    intro j hj hocc
    have hfront : l.beginMarker.drop j ++ [0x0a] <+:
        l.beginMarker.drop j ++ (0x0a :: body ++ (l.endMarker ++ rest)) :=
      ⟨body ++ (l.endMarker ++ rest), by simp⟩
    rcases List.prefix_or_prefix_of_prefix hocc hfront with hpre | hpre
    · exact (marker_clash l j hj).1 hpre
    · exact (marker_clash l j hj).2 hpre
  rw [search_append hnone, search_endMarker_body l hnl, Option.map_some, List.length_cons]
  congr 1
  omega

/-! ## The round trip -/

theorem b64_ne_dash {der : Bytes} : ∀ c ∈ b64EncodeWrapped der, c ≠ 0x2d :=
  fun _ hc ↦ (isB64_loop hc).ne_dash

/-- Blanks before the body make no difference. -/
theorem b64Decode_newline (cap : ℕ) (input : Bytes) :
    b64Decode cap (0x0a :: input) = b64Decode cap input := rfl

/-- The text up to the end marker. -/
theorem pemText_eq (l : Label) (der : Bytes) :
    pemText l der =
      l.beginMarker ++ (0x0a :: b64EncodeWrapped der ++ (l.endMarker ++ [0x0a])) := by
  simp [pemText]

/-- Both readers find the bytes that were written, whatever follows the NUL. -/
theorem readPem_pemText (l : Label) {der : Bytes} {derLen : ℕ} (h : der.length ≤ derLen)
    (rest : Bytes) : readPem l derLen (pemText l der ++ 0 :: rest) = some der := by
  have hbegin : search l.beginMarker (pemText l der) = some 0 := by
    rw [pemText_eq]
    exact search_eq_zero (List.prefix_append _ _)
  have hend : search l.endMarker (pemText l der) =
      some (l.beginMarker.length + 1 + (b64EncodeWrapped der).length) := by
    rw [pemText_eq]
    exact search_endMarker l b64_ne_dash _
  have hbody : ((pemText l der).drop (0 + l.beginMarker.length)).take
      (l.beginMarker.length + 1 + (b64EncodeWrapped der).length - (0 + l.beginMarker.length)) =
      0x0a :: b64EncodeWrapped der := by
    rw [pemText_eq, Nat.zero_add, List.drop_left, List.take_left']
    rw [List.length_cons]
    omega
  rw [readPem, cString_append pemText_ne_zero, hbegin, Option.bind_some, hend, Option.bind_some,
    if_neg (by omega)]
  dsimp only
  rw [if_pos (by omega), hbody, b64Decode_newline, b64Decode_encodeWrapped h]

theorem slhdsaPemUnwrap_pemText (l : Label) {der : Bytes} {derLen : ℕ}
    (h : der.length ≤ derLen) (pemLen : ℕ) (rest : Bytes) :
    slhdsaPemUnwrap l (pemText l der ++ 0 :: rest) pemLen derLen = some der := by
  have hbegin : search l.beginMarker (pemText l der) = some 0 := by
    rw [pemText_eq]
    exact search_eq_zero (List.prefix_append _ _)
  have hnl : ∀ c ∈ 0x0a :: b64EncodeWrapped der, c ≠ 0x2d :=
    List.forall_mem_cons.mpr ⟨by decide, b64_ne_dash⟩
  rw [slhdsaPemUnwrap, cString_append pemText_ne_zero, hbegin, Option.bind_some]
  dsimp only
  rw [pemText_eq, Nat.zero_add, List.drop_left, search_endMarker_body l hnl, Option.bind_some,
    if_neg (by simp), List.take_left, b64Decode_newline, b64Decode_encodeWrapped h]

/-- PEM functions that frame a DER round trip have one of their own, as long as the encoding fits
the buffer between them. -/
theorem RoundTrips.of_der (l : Label) {derCap : ℕ} {key der : Bytes}
    {exportDer importDer : Bytes → ℕ → Except Failure Bytes}
    {exportPem : Bytes → Option ℕ → Except Failure Output}
    {importPem : Bytes → ℕ → Except Failure Bytes}
    (hexport : ∀ derLen, exportDer key derLen =
      if der.length > derLen then .error (.bufferTooSmall der.length) else .ok der)
    (himport : ∀ cap, key.length ≤ cap → importDer der cap = .ok key) (hfits : der.length ≤ derCap)
    (hexportPem : ∀ buffer,
      exportPem key buffer = (exportDer key derCap).bind fun der ↦ writePem l der buffer)
    (himportPem : ∀ pem cap, readPem l derCap pem = some der →
      importPem pem cap = importDer der cap) :
    RoundTrips exportDer importDer exportPem importPem key := by
  have hder : exportDer key derCap = .ok der := by
    rw [hexport, if_neg (Nat.not_lt.mpr hfits)]
  have hneed := length_pemText l der
  refine ⟨der, pemText l der, hexport, himport, ?_, fun pemLen hpem ↦ ?_, fun cap rest hcap ↦ ?_⟩
  · rw [hexportPem, hder, hneed]
    rfl
  · rw [hneed] at hpem
    simp only [hexportPem, hder, Except.bind, writePem]
    rw [if_neg (Nat.not_lt.mpr hpem)]
  · rw [himportPem _ _ (readPem_pemText l hfits rest), himport cap hcap]

end Interop
