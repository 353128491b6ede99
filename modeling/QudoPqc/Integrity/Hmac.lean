import QudoPqc.Digest.Incremental
import QudoPqc.Lifecycle.State

/-!
# HMAC-SHA-256

`qudo_fips_hmac.c` over an implementation of SHA-256 with contexts. A context of HMAC holds three of
SHA-256: the inner and the outer one, each of which has taken one padded block of the key, and the
one in use. `qudo_fips_hmac_init` copies the inner context to the one in use and
`qudo_fips_hmac_final` copies the outer one there.

The functions also return at once on a NULL context, and write nothing.
-/

namespace QudoPqc

open Digest Digest.Incremental

/-- SHA-256 as `sha2_256`, `sha2_256_init`, `sha2_256_update` and `sha2_256_final` compute it. -/
structure Sha256 extends Incremental where
  length_hash : ∀ m, (hash m).length = 32

/-- A hash function whose contexts keep the message. -/
def Sha256.ofHash (hash : Bytes → Bytes) (length_hash : ∀ m, (hash m).length = 32) : Sha256 where
  Ctx := Bytes
  init := []
  update c data := c ++ data
  final c := (hash c, [])
  cleared := []
  hash := hash
  final_updates chunks := by
    have hfold : ∀ c : Bytes, chunks.foldl (fun c data ↦ c ++ data) c = c ++ chunks.flatten := by
      induction chunks with
      | nil => exact fun c ↦ (List.append_nil c).symm
      | cons data chunks ih =>
        intro c
        rw [List.foldl_cons, ih, List.flatten_cons, List.append_assoc]
    exact congrArg hash (hfold [])
  length_hash := length_hash

/-- `QUDO_FIPS_HMAC_SHA256_BLOCK_SIZE`. -/
def hmacBlockSize : ℕ := 64

/-- `QUDO_FIPS_HMAC_SHA256_DIGEST_SIZE`. -/
def hmacDigestSize : ℕ := 32

/-- `qudo_fips_hmac_ctx_t`. -/
structure HmacCtx (sha : Sha256) where
  iCtx : sha.Ctx
  oCtx : sha.Ctx
  mdCtx : sha.Ctx
  blockSize : ℕ
  digestSize : ℕ
  initialized : Bool

variable (sha : Sha256)

/-- A context after `qudo_secure_clear`. -/
def HmacCtx.cleared : HmacCtx sha := ⟨sha.cleared, sha.cleared, sha.cleared, 0, 0, false⟩

variable {sha}

/-- The first `block_size` bytes of `keytmp` in `qudo_fips_hmac_init`. -/
def keytmp (sha : Sha256) (key : Bytes) : Bytes :=
  let tmp := if key.length > hmacBlockSize then sha.hash key else key
  if tmp.length ≠ hmacBlockSize then tmp ++ List.replicate (hmacBlockSize - tmp.length) 0 else tmp

/-- `qudo_fips_hmac_init`; no key is a NULL pointer. -/
def hmacInit (ctx : HmacCtx sha) : Option Bytes → HmacCtx sha
  | none => { ctx with initialized := false }
  | some key =>
    let iCtx := sha.update sha.init ((keytmp sha key).map (0x36 ^^^ ·))
    let oCtx := sha.update sha.init ((keytmp sha key).map (0x5c ^^^ ·))
    ⟨iCtx, oCtx, iCtx, hmacBlockSize, hmacDigestSize, true⟩

/-- `qudo_fips_hmac_update`. -/
def hmacUpdate (ctx : HmacCtx sha) (data : Bytes) : HmacCtx sha :=
  if !ctx.initialized then ctx
  else { ctx with mdCtx := sha.update ctx.mdCtx data }

/-- `qudo_fips_hmac_final`, with the context and the buffer `out` it leaves. -/
def hmacFinal (ctx : HmacCtx sha) (out : Bytes) : HmacCtx sha × Bytes :=
  if !ctx.initialized then (ctx, out)
  else
    let buf := (sha.final ctx.mdCtx).1
    let mdCtx := sha.update ctx.oCtx (buf.take ctx.digestSize)
    (HmacCtx.cleared sha, (sha.final mdCtx).1)

/-- `qudo_fips_hmac_sha256`, whose context is on the stack and has any contents at first. -/
def hmacSha256 (stack : HmacCtx sha) (key : Option Bytes) (data out : Bytes) : Bytes :=
  (hmacFinal (hmacUpdate (hmacInit stack key) data) out).2

/-! ## The digest -/

theorem keytmp_eq_keyBlock (key : Bytes) :
    keytmp sha key = Rfc2104.keyBlock sha.hash hmacBlockSize key := by
  have hfill : ∀ tmp : Bytes, (if tmp.length ≠ hmacBlockSize then
      tmp ++ List.replicate (hmacBlockSize - tmp.length) 0 else tmp) =
        tmp ++ List.replicate (hmacBlockSize - tmp.length) 0 := by
    intro tmp
    by_cases hfull : tmp.length = hmacBlockSize
    · rw [if_neg (not_not.mpr hfull), hfull, Nat.sub_self, List.replicate_zero, List.append_nil]
    · exact if_pos hfull
  exact hfill _

/-- The context is in use and has taken `text` under `key`. -/
structure HmacCtx.Computes (ctx : HmacCtx sha) (key text : Bytes) : Prop where
  initialized : ctx.initialized = true
  digestSize : ctx.digestSize = hmacDigestSize
  outer : Absorbed ctx.oCtx (Rfc2104.padded sha.hash hmacBlockSize 0x5c key)
  inner : Absorbed ctx.mdCtx (Rfc2104.padded sha.hash hmacBlockSize 0x36 key ++ text)

theorem absorbed_pad (byte : UInt8) (key : Bytes) :
    Absorbed (sha.update sha.init ((keytmp sha key).map (byte ^^^ ·)))
      (Rfc2104.padded sha.hash hmacBlockSize byte key) := by
  have hlen : ∀ m, (sha.hash m).length ≤ hmacBlockSize := by
    intro m
    rw [sha.length_hash]
    decide
  rw [keytmp_eq_keyBlock, Rfc2104.padded_eq_map hlen]
  exact absorbed_init.update _

theorem computes_hmacInit (ctx : HmacCtx sha) (key : Bytes) :
    (hmacInit ctx (some key)).Computes key [] where
  initialized := rfl
  digestSize := rfl
  outer := absorbed_pad 0x5c key
  inner := by
    rw [List.append_nil]
    exact absorbed_pad 0x36 key

theorem HmacCtx.Computes.update {ctx : HmacCtx sha} {key text : Bytes} (h : ctx.Computes key text)
    (data : Bytes) : (hmacUpdate ctx data).Computes key (text ++ data) := by
  rw [hmacUpdate, h.initialized, Bool.not_true, if_neg Bool.false_ne_true]
  refine ⟨rfl, h.digestSize, h.outer, ?_⟩
  rw [← List.append_assoc]
  exact h.inner.update data

/-- The loop of updates over any number of chunks. -/
theorem HmacCtx.Computes.updates {ctx : HmacCtx sha} {key text : Bytes} (h : ctx.Computes key text)
    (chunks : List Bytes) :
    (chunks.foldl hmacUpdate ctx).Computes key (text ++ chunks.flatten) := by
  induction chunks generalizing ctx text with
  | nil => rwa [List.flatten_nil, List.append_nil]
  | cons data chunks ih =>
    rw [List.foldl_cons, List.flatten_cons, ← List.append_assoc]
    exact ih (h.update data)

theorem HmacCtx.Computes.final {ctx : HmacCtx sha} {key text : Bytes} (h : ctx.Computes key text)
    (out : Bytes) :
    hmacFinal ctx out = (.cleared sha, Rfc2104.hmac sha.hash hmacBlockSize key text) := by
  have hinner := h.inner.final
  have hwhole : (sha.hash (Rfc2104.padded sha.hash hmacBlockSize 0x36 key ++ text)).take
      ctx.digestSize = sha.hash (Rfc2104.padded sha.hash hmacBlockSize 0x36 key ++ text) := by
    rw [h.digestSize]
    exact List.take_of_length_le (Nat.le_of_eq (sha.length_hash _))
  simp only [hmacFinal, h.initialized, hinner, hwhole, (h.outer.update _).final, Rfc2104.hmac]
  rfl

/-! ## A context that has been used -/

/-- A call on a context that is not `qudo_fips_hmac_init`. -/
inductive HmacOp where
  | update (data : Bytes)
  | final (out : Bytes)
  deriving DecidableEq, Repr

/-- The buffer that a call may write to. -/
def HmacOp.out : HmacOp → Option Bytes
  | update _ => none
  | final out => some out

/-- A sequence of calls, with the buffers given to `qudo_fips_hmac_final` as it leaves them. -/
def hmacRun (ctx : HmacCtx sha) : List HmacOp → HmacCtx sha × List Bytes
  | [] => (ctx, [])
  | .update data :: ops => hmacRun (hmacUpdate ctx data) ops
  | .final out :: ops =>
    let last := hmacFinal ctx out
    let rest := hmacRun last.1 ops
    (rest.1, last.2 :: rest.2)

/-- Nothing happens on a context that is not initialized. -/
theorem hmacRun_of_not_initialized {ctx : HmacCtx sha} (h : ctx.initialized = false)
    (ops : List HmacOp) : hmacRun ctx ops = (ctx, ops.filterMap HmacOp.out) := by
  have hupdate : ∀ data, hmacUpdate ctx data = ctx := by
    intro data
    rw [hmacUpdate, h]
    rfl
  have hfinal : ∀ out, hmacFinal ctx out = (ctx, out) := by
    intro out
    rw [hmacFinal, h]
    rfl
  induction ops with
  | nil => rfl
  | cons op ops ih =>
    cases op with
    | update data =>
      rw [hmacRun, hupdate, ih]
      rfl
    | final out =>
      rw [hmacRun, hfinal, ih]
      rfl

/-- For every key and every way to cut the data into chunks the digest is that of RFC 2104, which
the one-shot function computes too. Calls after `qudo_fips_hmac_final` write nothing. -/
theorem hmac_rfc2104 (sha : Sha256) (ctx stack : HmacCtx sha) (key : Bytes) (chunks : List Bytes)
    (out : Bytes) :
    let last := hmacFinal (chunks.foldl hmacUpdate (hmacInit ctx (some key))) out
    last.2 = Rfc2104.hmac sha.hash 64 key chunks.flatten ∧
      last.2 = hmacSha256 stack (some key) chunks.flatten out ∧
      ∀ ops : List HmacOp, hmacRun last.1 ops = (last.1, ops.filterMap HmacOp.out) := by
  have hchunks := ((computes_hmacInit ctx key).updates chunks).final out
  have hwhole := ((computes_hmacInit stack key).update chunks.flatten).final out
  rw [List.nil_append] at hchunks hwhole
  simp only [hmacSha256, hchunks, hwhole]
  exact ⟨rfl, trivial, hmacRun_of_not_initialized rfl⟩

/-- The first 32 bytes of the message, in the place of SHA-256. -/
def truncation : Sha256 := .ofHash (fun m ↦ (m ++ List.replicate 32 0).take 32) fun m ↦ by simp

/-- A key longer than a block, and data in three chunks of which one is empty. -/
theorem hmac_rfc2104_three_chunks :
    (hmacFinal ([[1, 2], [], [3]].foldl hmacUpdate
      (hmacInit (.cleared truncation) (some (List.replicate 65 7)))) []).2 =
        Rfc2104.hmac truncation.hash 64 (List.replicate 65 7) [[1, 2], [], [3]].flatten :=
  (hmac_rfc2104 truncation (.cleared _) (.cleared _) (List.replicate 65 7)
    [[1, 2], [], [3]] []).1

end QudoPqc
