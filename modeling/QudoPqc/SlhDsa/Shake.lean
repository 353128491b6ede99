import QudoPqc.SlhDsa.Programs

/-!
# SLH-DSA with SHAKE

The functions of `slh_shake.c`, over any function that takes the place of SHAKE256. They pass their
inputs to it in pieces, except for `shake_chain`, which writes the padded block into the words of
the state itself and calls `keccak_f1600`. `chainBlock_eq` says that it is the block of one call of
SHAKE256, so a chain is what FIPS 205 says (`returns_shakeChain`).
-/

namespace SlhDsa

open Codec Stateful Fips205
open Adrs (toT bytes)

/-- The padded block of a message that fits into one. -/
def shakeBlock (x : Bytes) : Bytes :=
  x ++ 0x1f :: (List.replicate (134 - x.length) 0 ++ 0x80 :: List.replicate 64 0)

/-- What stands for SHAKE256 and for `keccak_f1600` on the 200 bytes of a state. A short output for
a message of one block is the front of the state. -/
structure Shake256 where
  xof : Bytes → ℕ → Bytes
  f1600 : Bytes → Bytes
  length_xof : ∀ x len, (xof x len).length = len
  xof_block : ∀ {x len}, x.length < 135 → len ≤ 136 → xof x len = part (f1600 (shakeBlock x)) 0 len

namespace Shake

open Native

variable (K : Shake256)

/-! ## The functions -/

/-- `shake256_init`, a `shake_update` for each piece, and `shake_out`. -/
def shake (pieces : List Bytes) (len : ℕ) : Bytes := K.xof pieces.flatten len

section Functions

variable (n : ℕ) (v : Var Unit)

/-- `shake_f`. -/
def shakeF (adrs : AdrsT) (m₁ : Bytes) : Bytes := shake K [v.pkSeed, adrs.u8, m₁] n

/-- `shake_prf`. -/
def shakePrf (adrs : AdrsT) : Bytes := shakeF K n v adrs v.skSeed

/-- `shake_t`. -/
def shakeT (adrs : AdrsT) (m : Bytes) : Bytes := shake K [v.pkSeed, adrs.u8, m] n

/-- `shake_h`. -/
def shakeH (adrs : AdrsT) (m₁ m₂ : Bytes) : Bytes := shake K [v.pkSeed, adrs.u8, m₁, m₂] n

/-- The last pieces in `shake_h_msg` and `shake_prf_msg`: the domain separator and the context, if
there is one, and the message. -/
def msgPieces (m : Bytes) : (ctx : Option Bytes) → List Bytes
  | none => [m]
  | some ctx => [[0, UInt8.ofNat (ctx.length &&& 0xff)], ctx, m]

/-- `shake_h_msg`. -/
def shakeHMsg (mLen : ℕ) (r m : Bytes) (ctx : Option Bytes) : Bytes :=
  shake K ([r, v.pkSeed, v.pkRoot] ++ msgPieces m ctx) mLen

/-- `shake_prf_msg`. -/
def shakePrfMsg (optRand m : Bytes) (ctx : Option Bytes) : Bytes :=
  shake K ([v.skPrf, optRand] ++ msgPieces m ctx) n

/-- `shake_mk_var`. -/
def shakeMkVar (old : Var Unit) (pk sk : Option Bytes) : Var Unit :=
  match sk, pk with
  | some sk, _ => ⟨part sk 0 n, part sk n n, part sk (2 * n) n, part sk (3 * n) n, ()⟩
  | none, some pk => { old with pkSeed := part pk 0 n, pkRoot := part pk n n }
  | none, none => old

/-- The words of `ks` in a step of `shake_chain`, all of which are written. -/
def chainBlock (adrs : AdrsT) (node : Bytes) : Bytes :=
  let r := (1600 - 256 * 2) / 64
  let l := n / 8 + 32 / 8 + n / 8
  v.pkSeed ++ adrs.u8 ++ node ++ 0x1f :: (List.replicate 7 0 ++
    (List.replicate (8 * (r - 1 - (l + 1))) 0 ++ (List.replicate 7 0 ++
      0x80 :: List.replicate (8 * (25 - r)) 0)))

/-- `shake_chain`. -/
def shakeChain (x : Bytes) (i s : ℕ) : StateM AdrsT Bytes :=
  if s = 0 then pure x
  else do
    let ks ← loop (fun j ks ↦ do
      let node := if 0 < j then part ks 0 n else x
      modify (·.setHashAddress (i + j))
      gets fun adrs ↦ K.f1600 (chainBlock n v adrs node)) s []
    pure (part ks 0 n)

/-- `shake_wots_chain`. -/
def shakeWotsChain (s : ℕ) : StateM AdrsT Bytes := do
  modify (·.setType .wotsPrf)
  modify (·.setTreeIndex 0)
  let tmp ← gets fun adrs ↦ shakePrf K n v adrs
  modify (·.setType .wotsHash)
  shakeChain K n v tmp 0 s

/-- `shake_fors_hash`. -/
def shakeForsHash (s : ℕ) : StateM AdrsT Bytes := do
  modify (·.setType .forsPrf)
  modify (·.setTreeHeight 0)
  let tmp ← gets fun adrs ↦ shakePrf K n v adrs
  if s = 1 then do
    modify (·.setType .forsTree)
    gets fun adrs ↦ shakeF K n v adrs tmp
  else pure tmp

end Functions

/-- A parameter set of `slh_shake.c`. -/
def param (P : Sizes) : SlhParam Unit where
  toSizes := P
  mkVar := shakeMkVar P.n
  chain := shakeChain K P.n
  wotsChain := shakeWotsChain K P.n
  forsHash := shakeForsHash K P.n
  hMsg v := shakeHMsg K v P.m
  prfMsg v := shakePrfMsg K P.n v
  hF v := shakeF K P.n v
  hH v := shakeH K P.n v
  hT v := shakeT K P.n v

/-! ## Section 11.1 of FIPS 205 -/

/-- The hash functions of FIPS 205 with SHAKE256. -/
def hashFamily (P : Sizes) : HashFamily P.n where
  prf pkSeed skSeed adrs := K.xof (pkSeed ++ adrs ++ skSeed) P.n
  prfMsg skPrf optRand msg := K.xof (skPrf ++ optRand ++ msg) P.n
  hMsg r pkSeed pkRoot msg := K.xof (r ++ pkSeed ++ pkRoot ++ msg) P.m
  f pkSeed adrs msg := K.xof (pkSeed ++ adrs ++ msg) P.n
  h pkSeed adrs msg := K.xof (pkSeed ++ adrs ++ msg) P.n
  t pkSeed adrs msg := K.xof (pkSeed ++ adrs ++ msg) P.n
  length_prf _ _ _ := K.length_xof _ _
  length_prfMsg _ _ _ := K.length_xof _ _
  length_f _ _ _ := K.length_xof _ _
  length_h _ _ _ := K.length_xof _ _
  length_t _ _ _ := K.length_xof _ _

section Realizes

variable {P : Sizes} {v : Var Unit} {A : Adrs} {x : Bytes}

theorem shakeF_eq (adrs : AdrsT) (x : Bytes) :
    shakeF K P.n v adrs x = (hashFamily K P).f v.pkSeed adrs.u8 x := by
  simp [shakeF, shake, hashFamily]

/-- The secret value at an address. -/
theorem shakePrf_eq (htree : A.tree < 2 ^ 64) :
    shakePrf K P.n v A.toT = (hashFamily K P).prf v.pkSeed v.skSeed A.bytes := by
  rw [shakePrf, shakeF_eq, u8_toT htree]
  rfl

theorem flatten_msgPieces (m : Bytes) (ctx : Option Bytes) :
    (msgPieces m ctx).flatten = encodeMsg m ctx := by
  cases ctx with
  | none => simp [msgPieces, encodeMsg]
  | some ctx =>
    have hbyte : UInt8.ofNat (ctx.length &&& 0xff) = UInt8.ofNat ctx.length := by
      have hmask : ctx.length &&& 0xff = ctx.length % 2 ^ 8 :=
        Nat.and_two_pow_sub_one_eq_mod ctx.length 8
      rw [hmask]
      exact UInt8.toNat_inj.mp (by simp)
    simp [msgPieces, encodeMsg, hbyte]

/-- The words written by `shake_chain` are the padded block. -/
theorem chainBlock_eq (hv : v.pkSeed.length = P.n) {adrs : AdrsT} (hadrs : adrs.u8.length = 32)
    (hx : x.length = P.n) : chainBlock P.n v adrs x = shakeBlock (v.pkSeed ++ adrs.u8 ++ x) := by
  have hlen : (v.pkSeed ++ adrs.u8 ++ x).length = P.n + 32 + P.n := by
    rw [List.length_append, List.length_append, hv, hadrs, hx]
  have hgap : 134 - (P.n + 32 + P.n) =
      7 + (8 * (17 - 1 - (P.n / 8 + 32 / 8 + P.n / 8 + 1)) + 7) := by
    rcases P.n_mem with h | h | h <;> rw [h]
  rw [chainBlock, shakeBlock, hlen, hgap, List.replicate_add, List.replicate_add]
  simp

/-! ## Chains -/

/-- `ks` before step `j` of a chain. -/
def chainState (P : Sizes) (v : Var Unit) (A : Adrs) (x : Bytes) (i : ℕ) : ℕ → Bytes
  | 0 => []
  | j + 1 => K.f1600 (shakeBlock (v.pkSeed ++ bytes { A with index := i + j } ++
      chain (hashFamily K P) v.pkSeed A x i j))

/-- The value of the chain is at the front of the state. -/
theorem part_chainState (hv : v.pkSeed.length = P.n) (hx : x.length = P.n) (i j : ℕ) :
    part (chainState K P v A x i (j + 1)) 0 P.n =
      chain (hashFamily K P) v.pkSeed A x i (j + 1) := by
  have hn : P.n ≤ 32 := by rcases P.n_mem with h | h | h <;> omega
  have hlen : (v.pkSeed ++ bytes { A with index := i + j } ++
      chain (hashFamily K P) v.pkSeed A x i j).length < 135 := by
    rw [List.length_append, List.length_append, hv, Adrs.length_bytes, length_chain _ _ _ hx]
    omega
  rw [chainState, ← K.xof_block hlen (by omega)]
  rfl

theorem returns_shakeChain (hv : v.pkSeed.length = P.n) (hx : x.length = P.n)
    (htree : A.tree < 2 ^ 64) (i s : ℕ) :
    Returns (· = A.toT) (shakeChain K P.n v x i s)
      (chain (hashFamily K P) v.pkSeed A x i s)
      fun a ↦ ∃ ix, a = toT { A with index := ix } := by
  cases s with
  | zero =>
    rw [shakeChain, if_pos rfl]
    exact .pure fun _ hs ↦ ⟨A.index, hs⟩
  | succ s =>
    rw [shakeChain, if_neg (by omega), ← part_chainState K hv hx]
    refine .bind (.mono (I := fun a ↦ ∃ ix, a = toT { A with index := ix })
      (.loop (f := chainState K P v A x i) fun j _ ↦ ?_) (fun _ hs ↦ ⟨A.index, hs⟩) fun _ hs ↦ hs)
      (.pure fun _ hs ↦ hs)
    have hnode : (if 0 < j then part (chainState K P v A x i j) 0 P.n else x) =
        chain (hashFamily K P) v.pkSeed A x i j := by
      cases j with
      | zero => rfl
      | succ j => rw [if_pos (by omega), part_chainState K hv hx]
    refine .modify_bind (J := (· = toT { A with index := i + j }))
      (.mono (.gets (I := (· = toT { A with index := i + j })) ?_) (fun _ hs ↦ hs)
        fun _ hs ↦ ⟨_, hs⟩) ?_
    · rintro _ rfl
      have hu8 : (toT { A with index := i + j }).u8 = bytes { A with index := i + j } :=
        u8_toT htree
      rw [hnode, chainBlock_eq hv (by rw [hu8, Adrs.length_bytes]) (length_chain _ _ _ hx _ _), hu8,
        chainState]
    · rintro _ ⟨ix, rfl⟩
      rw [toT_setHashAddress]

theorem returns_shakeWotsChain (hv : v.pkSeed.length = P.n) (htree : A.tree < 2 ^ 64) (s : ℕ) :
    Returns (· = A.toT) (shakeWotsChain K P.n v s)
      (chain (hashFamily K P) v.pkSeed { A with type := .wotsHash, index := 0 }
        ((hashFamily K P).prf v.pkSeed v.skSeed
          (bytes { A with type := .wotsPrf, index := 0 })) 0 s)
      fun a ↦ ∃ ix, a = toT { A with type := .wotsHash, index := ix } := by
  have hchain := returns_shakeChain K (A := { A with type := .wotsHash, index := 0 }) hv
    ((hashFamily K P).length_prf v.pkSeed v.skSeed
      (bytes { A with type := .wotsPrf, index := 0 })) htree 0 s
  refine .modify_bind (J := (· = toT { A with type := .wotsPrf })) (.modify_bind
    (J := (· = toT { A with type := .wotsPrf, index := 0 }))
    (.gets_bind (.modify_bind hchain ?_)
      ?_) ?_) ?_
  · rintro _ rfl
    rw [toT_setType]
  · rintro _ rfl
    exact shakePrf_eq K htree
  · rintro _ rfl
    rw [toT_setTreeIndex]
  · rintro _ rfl
    rw [toT_setType]

/-- `shake_fors_hash` up to the test of `s`. -/
theorem returns_shakeForsHash (htree : A.tree < 2 ^ 64) {s : ℕ} {y : Bytes} {J : AdrsT → Prop}
    (h : Returns (· = toT { A with type := .forsPrf, height := 0 })
      (if s = 1 then do
          modify (·.setType .forsTree)
          gets fun adrs ↦ shakeF K P.n v adrs ((hashFamily K P).prf v.pkSeed v.skSeed
            (bytes { A with type := .forsPrf, height := 0 }))
        else pure ((hashFamily K P).prf v.pkSeed v.skSeed
          (bytes { A with type := .forsPrf, height := 0 }))) y J) :
    Returns (· = A.toT) (shakeForsHash K P.n v s) y J := by
  refine .modify_bind (J := (· = toT { A with type := .forsPrf })) (.modify_bind
    (J := (· = toT { A with type := .forsPrf, height := 0 })) (.gets_bind h ?_) ?_) ?_
  · rintro _ rfl
    exact shakePrf_eq K htree
  · rintro _ rfl
    rw [toT_setTreeHeight]
  · rintro _ rfl
    rw [toT_setType]

/-- The functions of `slh_shake.c` are those of section 11.1. -/
theorem realizes (P : Sizes) :
    Realizes (param K P) (hashFamily K P) fun v ↦ v.pkSeed.length = P.n where
  mkVar_sk old sk hsk := ⟨length_part (by rw [hsk]; change 2 * P.n + P.n ≤ 4 * P.n; omega),
    rfl, rfl,
    rfl, rfl⟩
  mkVar_pk old pk hpk := ⟨length_part (by rw [hpk]; change 0 + P.n ≤ 2 * P.n; omega), rfl, rfl⟩
  hF _ a x := shakeF_eq K a x
  hH _ a x y := by simp [param, shakeH, shake, hashFamily]
  hT _ a x := shakeF_eq K a x
  chain hv _ htree _ hx i s := returns_shakeChain K hv hx htree i s
  wotsChain hv _ htree s := returns_shakeWotsChain K hv htree s
  forsHash_zero _ _ htree := returns_shakeForsHash K htree (.pure fun _ hs ↦ hs)
  forsHash_one := by
    intro v _ A htree
    have hu8 : (toT { A with type := .forsTree, height := 0 }).u8 =
        bytes { A with type := .forsTree, height := 0 } := u8_toT htree
    refine returns_shakeForsHash K htree (.modify_bind
      (J := (· = toT { A with type := .forsTree, height := 0 })) (.gets ?_) ?_)
    · rintro _ rfl
      rw [shakeF_eq, hu8]
    · rintro _ rfl
      rw [toT_setType]
  hMsg _ _ _ m ctx := by simp [param, shakeHMsg, shake, flatten_msgPieces, hashFamily]
  length_hMsg _ _ _ _ := K.length_xof _ _
  prfMsg _ _ _ m ctx := by simp [param, shakePrfMsg, shake, flatten_msgPieces, hashFamily]

end Realizes

theorem rotation_block {x : Bytes} {len : ℕ} (hx : x.length < 135) (hlen : len ≤ 136) :
    part (shakeBlock x ++ List.replicate (24 + len) 0) 24 len =
      part (part (shakeBlock x) 24 136) 0 len := by
  have hblock : (shakeBlock x).length = 200 := by
    simp [shakeBlock]
    omega
  rw [part_part (by omega), part, part, List.drop_append_of_le_length (by omega),
    List.take_append_of_le_length (by rw [List.length_drop]; omega)]

/-- A function that only moves the bytes of the state: the values depend on the address. -/
def rotation : Shake256 where
  xof x len := part (shakeBlock x ++ List.replicate (24 + len) 0) 24 len
  f1600 st := part st 24 136
  length_xof x len := length_part (by simp)
  xof_block hx hlen := rotation_block hx hlen

end Shake

end SlhDsa
