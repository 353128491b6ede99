import Mathlib.Data.List.Basic

/-!
# Hash functions computed in pieces

A hash function with an interface of contexts: a context is set up, takes the message in pieces of
any lengths, and is asked for the digest of all of them. What a context is made of is left open;
`Absorbed` says which message it has taken so far, and is all that a user of the interface needs.
Since a context is a value, two users may start from a copy of the same one.

The keyed construction of RFC 2104 is stated over an arbitrary hash function.
-/

namespace Digest

/-- A hash function `hash` and contexts that compute it. `final` may also change the context, and
`cleared` is a context that has been overwritten with zeros. -/
structure Incremental where
  Ctx : Type
  init : Ctx
  update : Ctx → List UInt8 → Ctx
  final : Ctx → List UInt8 × Ctx
  cleared : Ctx
  hash : List UInt8 → List UInt8
  final_updates : ∀ chunks : List (List UInt8),
    (final (chunks.foldl update init)).1 = hash chunks.flatten

namespace Incremental

variable {h : Incremental} {c : h.Ctx} {m : List UInt8}

/-- The context has taken the message `m`, in some pieces. -/
def Absorbed (c : h.Ctx) (m : List UInt8) : Prop :=
  ∃ chunks : List (List UInt8), c = chunks.foldl h.update h.init ∧ chunks.flatten = m

theorem absorbed_init : Absorbed h.init [] := ⟨[], rfl, rfl⟩

theorem Absorbed.update (hc : Absorbed c m) (data : List UInt8) :
    Absorbed (h.update c data) (m ++ data) := by
  obtain ⟨chunks, rfl, rfl⟩ := hc
  refine ⟨chunks ++ [data], ?_, ?_⟩
  · rw [List.foldl_append, List.foldl_cons, List.foldl_nil]
  · rw [List.flatten_append, List.flatten_singleton]

theorem Absorbed.final (hc : Absorbed c m) : (h.final c).1 = h.hash m := by
  obtain ⟨chunks, rfl, rfl⟩ := hc
  exact h.final_updates chunks

end Incremental

/-! ## RFC 2104 -/

namespace Rfc2104

variable (H : List UInt8 → List UInt8) (blockLen : ℕ)

/-- The key made into a block: hashed if it is too long, then filled up with zeros. -/
def keyBlock (key : List UInt8) : List UInt8 :=
  let k := if blockLen < key.length then H key else key
  k ++ List.replicate (blockLen - k.length) 0

/-- The block xored with a byte repeated over its length. -/
def padded (byte : UInt8) (key : List UInt8) : List UInt8 :=
  List.zipWith (· ^^^ ·) (keyBlock H blockLen key) (List.replicate blockLen byte)

/-- `H(K XOR opad, H(K XOR ipad, text))`. -/
def hmac (key text : List UInt8) : List UInt8 :=
  H (padded H blockLen 0x5c key ++ H (padded H blockLen 0x36 key ++ text))

variable {H blockLen}

theorem length_keyBlock (hH : ∀ m, (H m).length ≤ blockLen) (key : List UInt8) :
    (keyBlock H blockLen key).length = blockLen := by
  rw [keyBlock]
  split
  · rw [List.length_append, List.length_replicate, Nat.add_sub_cancel' (hH key)]
  · rw [List.length_append, List.length_replicate, Nat.add_sub_cancel' (by omega)]

theorem zipWith_xor_replicate (byte : UInt8) (block : List UInt8) :
    List.zipWith (· ^^^ ·) block (List.replicate block.length byte) =
      block.map (byte ^^^ ·) := by
  induction block with
  | nil => rfl
  | cons b block ih =>
    rw [List.length_cons, List.replicate_succ, List.zipWith_cons_cons, List.map_cons, ih,
      UInt8.xor_comm]

theorem padded_eq_map (hH : ∀ m, (H m).length ≤ blockLen) (byte : UInt8) (key : List UInt8) :
    padded H blockLen byte key = (keyBlock H blockLen key).map (byte ^^^ ·) := by
  have hzip := zipWith_xor_replicate byte (keyBlock H blockLen key)
  rwa [length_keyBlock hH] at hzip

end Rfc2104

end Digest
