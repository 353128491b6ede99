import QudoPqc.SlhDsa.Fips205
import QudoPqc.Stateful.Returns

/-!
# The functions of `slh_dsa.c`

The engine's SLH-DSA over the functions of a parameter set. Its functions work on one address, which
they change field by field and leave behind for the next one, so they are programs on `AdrsT`. Each
sets only the fields which differ from what was left, and the refinement in `SlhDsa.Programs` is
about just that.

A pointer to `n` bytes is a list of `n` bytes. `xmss_node` and `fors_node` compute the root of a
subtree with a stack of nodes, the lowest of which is the output buffer itself; the two are one loop
(`treeHash`) with different leaves and addresses.
-/

namespace SlhDsa

namespace Native

open Codec Stateful

/-- `slh_var_t` without the address. `Pre` is for the precomputed values. -/
structure Var (Pre : Type) where
  skSeed : Bytes
  skPrf : Bytes
  pkSeed : Bytes
  pkRoot : Bytes
  pre : Pre

/-- `slh_param_t`. Without a context, `ctx_sz` is `SLH_CTX_SZ_NO_CONTEXT`. -/
structure SlhParam (Pre : Type) extends Sizes where
  mkVar : (old : Var Pre) → (pk sk : Option Bytes) → Var Pre
  chain : Var Pre → (x : Bytes) → (i s : ℕ) → StateM AdrsT Bytes
  wotsChain : Var Pre → (s : ℕ) → StateM AdrsT Bytes
  forsHash : Var Pre → (s : ℕ) → StateM AdrsT Bytes
  hMsg : Var Pre → (r m : Bytes) → (ctx : Option Bytes) → Bytes
  prfMsg : Var Pre → (optRand m : Bytes) → (ctx : Option Bytes) → Bytes
  hF : Var Pre → AdrsT → (m₁ : Bytes) → Bytes
  hH : Var Pre → AdrsT → (m₁ m₂ : Bytes) → Bytes
  hT : Var Pre → AdrsT → (m : Bytes) → Bytes

/-! ## Lengths and digits -/

section Digits

variable (P : Sizes)

/-- `get_len1`. -/
def getLen1 : ℕ := (8 * P.n + (P.lgW - 1)) / P.lgW

/-- The loop of `gen_len2`. -/
def genLen2Loop (maxs : ℕ) : (fuel cap len2 : ℕ) → ℕ
  | 0, _, len2 => len2
  | fuel + 1, cap, len2 =>
    if cap < maxs then genLen2Loop maxs fuel (cap <<< P.lgW) (len2 + 1) else len2

/-- `gen_len2`. -/
def genLen2 : ℕ :=
  if P.lgW = 4 ∧ 9 ≤ P.n ∧ P.n ≤ 136 then 3
  else
    let maxs := getLen1 P * ((1 <<< P.lgW) - 1)
    genLen2Loop P maxs maxs (1 <<< P.lgW) 1

/-- `get_len`. -/
def getLen : ℕ := getLen1 P + genLen2 P

/-- `slh_sig_sz`. -/
def slhSigSz : ℕ := (1 + P.k * (1 + P.a) + P.h + P.d * getLen P) * P.n

/-- The inner loop of `base_2b`: `j`, `l` and `t` when there are `b` bits in `t`. -/
def refill (x : Bytes) (b : ℕ) : (fuel j l t : ℕ) → ℕ × ℕ × ℕ
  | 0, j, l, t => (j, l, t)
  | fuel + 1, j, l, t =>
    if l < b then refill x b fuel (j + 1) (l + 8) (((t <<< 8) + (x.getD j 0).toNat) % 2 ^ 32)
    else (j, l, t)

/-- The outer loop of `base_2b`. -/
def base2bFrom (x : Bytes) (b : ℕ) : (left j l t : ℕ) → List ℕ
  | 0, _, _, _ => []
  | left + 1, j, l, t =>
    let (j, l, t) := refill x b b j l t
    ((t >>> (l - b)) &&& ((1 <<< b) - 1)) :: base2bFrom x b left j (l - b) t

/-- `base_2b`. -/
def base2b (x : Bytes) (b vLen : ℕ) : List ℕ := base2bFrom x b vLen 0 0 0

/-- `wots_csum`. -/
def wotsCsum (m : Bytes) : List ℕ :=
  let len1 := getLen1 P
  let len2 := genLen2 P
  let vm := base2b m P.lgW len1
  let t := (1 <<< P.lgW) - 1
  let csum := vm.foldl (fun csum v ↦ (csum + (t - v)) % 2 ^ 32) 0
  let csum := csum <<< ((8 - (len2 * P.lgW &&& 7)) &&& 7) % 2 ^ 32
  let t := (len2 * P.lgW + 7) / 8
  let buf := toByte csum t ++ List.replicate (4 - t) 0
  vm ++ base2b buf P.lgW len2

end Digits

/-! ## Subtrees -/

/-- The local variables `node`, `h` and `p` of `xmss_node` and `fors_node`. -/
structure Nodes where
  node : Bytes
  h : List Bytes
  p : ℤ

namespace Nodes

/-- The buffers before the first leaf, with `cap` entries in `h`. -/
def empty (cap : ℕ) : Nodes := ⟨[], List.replicate cap [], -1⟩

/-- `h0 = p >= 0 ? h[p] : node; p++;` and the leaf written to `h0`. -/
def push (s : Nodes) (x : Bytes) : Nodes :=
  if 0 ≤ s.p then { s with h := s.h.set s.p.toNat x, p := s.p + 1 }
  else { s with node := x, p := s.p + 1 }

/-- `p--; h0 = p >= 1 ? h[p - 1] : node;`: what is in `h0` and in `h[p]`. -/
def operands (s : Nodes) : Bytes × Bytes :=
  let p := s.p - 1
  (if 1 ≤ p then s.h.getD (p - 1).toNat [] else s.node, s.h.getD p.toNat [])

/-- The result written to `h0`. -/
def replace (s : Nodes) (x : Bytes) : Nodes :=
  let p := s.p - 1
  if 1 ≤ p then { s with h := s.h.set (p - 1).toNat x, p := p } else { s with node := x, p := p }

end Nodes

section Trees

variable (leaf : ℕ → StateM AdrsT Bytes)
  (join : (z i : ℕ) → (l r : Bytes) → StateM AdrsT Bytes)

/-- `for (k = 0; (j >> k) & 1; k++)`. -/
def mergeLoop (i j : ℕ) : (fuel k : ℕ) → Nodes → StateM AdrsT Nodes
  | 0, _, s => pure s
  | fuel + 1, k, s =>
    if (j >>> k) &&& 1 = 1 then do
      let x ← join (k + 1) (i >>> (k + 1)) s.operands.1 s.operands.2
      mergeLoop i j fuel (k + 1) (s.replace x)
    else pure s

/-- The loop over the leaves. `j` has 32 bits, and `h` has `cap` entries: a write outside of it is
lost. -/
def treeHash (cap i z : ℕ) : StateM AdrsT Bytes := do
  let s ← loop (fun j s ↦ do
    let x ← leaf ((i <<< z) + j)
    mergeLoop join ((i <<< z) + j) j 32 0 (s.push x)) (1 <<< z) (Nodes.empty cap)
  pure s.node

end Trees

/-- `SLH_MAX_HP`. -/
abbrev slhMaxHp : ℕ := 9

/-- `SLH_MAX_A`. -/
abbrev slhMaxA : ℕ := 14

section Functions

variable {Pre : Type} (prm : SlhParam Pre) (var : Var Pre)

/-! ## WOTS+ -/

/-- `wots_sign`. -/
def wotsSign (m : Bytes) : StateM AdrsT Bytes := do
  let vm := wotsCsum prm.toSizes m
  let sig ← collect (fun i ↦ do
    modify (·.setChainAddress i)
    prm.wotsChain var (vm.getD i 0)) (getLen prm.toSizes)
  pure sig.flatten

/-- `wots_pk_from_sig`. -/
def wotsPkFromSig (sig m : Bytes) : StateM AdrsT Bytes := do
  let vm := wotsCsum prm.toSizes m
  let t := (1 <<< prm.lgW) - 1
  let tmp ← collect (fun i ↦ do
    modify (·.setChainAddress i)
    prm.chain var (part sig (i * prm.n) prm.n) (vm.getD i 0) (t - vm.getD i 0)) (getLen prm.toSizes)
  modify (·.setTypeAndClearNotKp .wotsPk)
  gets fun adrs ↦ prm.hT var adrs tmp.flatten

/-! ## XMSS -/

/-- A leaf of `xmss_node`. -/
def xmssLeaf (i : ℕ) : StateM AdrsT Bytes := do
  modify (·.setKeyPairAddress i)
  let w1 := (1 <<< prm.lgW) - 1
  let tmp ← collect (fun k ↦ do
    modify (·.setChainAddress k)
    prm.wotsChain var w1) (getLen prm.toSizes)
  modify (·.setTypeAndClearNotKp .wotsPk)
  gets fun adrs ↦ prm.hT var adrs tmp.flatten

/-- An inner node of `xmss_node`. -/
def xmssJoin (z i : ℕ) (l r : Bytes) : StateM AdrsT Bytes := do
  modify (·.setTypeAndClear .tree)
  modify (·.setTreeHeight z)
  modify (·.setTreeIndex i)
  gets fun adrs ↦ prm.hH var adrs l r

/-- `xmss_node`. -/
def xmssNode (i z : ℕ) : StateM AdrsT Bytes :=
  treeHash (xmssLeaf prm var) (xmssJoin prm var) slhMaxHp i z

/-- `xmss_sign`. -/
def xmssSign (m : Bytes) (idx : ℕ) : StateM AdrsT Bytes := do
  let auth ← collect (fun j ↦ xmssNode prm var ((idx >>> j) ^^^ 1) j) prm.hp
  modify (·.setTypeAndClearNotKp .wotsHash)
  modify (·.setKeyPairAddress idx)
  let sx ← wotsSign prm var m
  pure (sx ++ auth.flatten)

/-- `xmss_pk_from_sig`. -/
def xmssPkFromSig (idx : ℕ) (sig m : Bytes) : StateM AdrsT Bytes := do
  modify (·.setTypeAndClearNotKp .wotsHash)
  modify (·.setKeyPairAddress idx)
  let root ← wotsPkFromSig prm var sig m
  modify (·.setTypeAndClear .tree)
  let auth := getLen prm.toSizes * prm.n
  loop (fun k root ↦ do
    modify (·.setTreeHeight (k + 1))
    modify (·.setTreeIndex (idx >>> (k + 1)))
    let node := part sig (auth + k * prm.n) prm.n
    gets fun adrs ↦
      if (idx >>> k) &&& 1 = 0 then prm.hH var adrs root node else prm.hH var adrs node root)
    prm.hp root

/-! ## The hypertree -/

/-- The local variables of `ht_sign`: what has been written, what `sh` points to, `m`, `i_tree` and
`i_leaf`. -/
structure HtState where
  sig : Bytes
  sh : Bytes
  m : Bytes
  iTree : ℕ
  iLeaf : ℕ

/-- `ht_sign`. -/
def htSign (m : Bytes) (iTree iLeaf : ℕ) : StateM AdrsT Bytes := do
  modify (·.zero)
  modify (·.setTreeAddress iTree)
  let sh ← xmssSign prm var m iLeaf
  let s ← loop (fun j s ↦ do
    let m ← xmssPkFromSig prm var s.iLeaf s.sh s.m
    let iLeaf := s.iTree &&& ((1 <<< prm.hp) - 1)
    let iTree := s.iTree >>> prm.hp
    modify (·.setLayerAddress (j + 1))
    modify (·.setTreeAddress iTree)
    let sh ← xmssSign prm var m iLeaf
    pure (HtState.mk (s.sig ++ sh) sh m iTree iLeaf)) (prm.d - 1) (HtState.mk sh sh m iTree iLeaf)
  pure s.sig

/-- `slh_ct_compare`. -/
def slhCtCompare (a b : Bytes) (len : ℕ) : Bool :=
  (List.range len).foldl (fun diff i ↦ diff ||| (a.getD i 0 ^^^ b.getD i 0)) (0 : UInt8) == 0

/-- `ht_verify`. -/
def htVerify (m sigHt : Bytes) (iTree iLeaf : ℕ) : StateM AdrsT Bool := do
  modify (·.zero)
  modify (·.setTreeAddress iTree)
  let node ← xmssPkFromSig prm var iLeaf sigHt m
  let stSz := (prm.hp + getLen prm.toSizes) * prm.n
  let (node, _) ← loop (fun j (node, iTree) ↦ do
    let iLeaf := iTree &&& ((1 <<< prm.hp) - 1)
    let iTree := iTree >>> prm.hp
    modify (·.setLayerAddress (j + 1))
    modify (·.setTreeAddress iTree)
    let node ← xmssPkFromSig prm var iLeaf (sigHt.drop ((j + 1) * stSz)) node
    pure (node, iTree)) (prm.d - 1) (node, iTree)
  pure (slhCtCompare node var.pkRoot prm.n)

/-! ## FORS -/

/-- A leaf of `fors_node`. -/
def forsLeaf (i : ℕ) : StateM AdrsT Bytes := do
  modify (·.setTreeIndex i)
  prm.forsHash var 1

/-- An inner node of `fors_node`. -/
def forsJoin (z i : ℕ) (l r : Bytes) : StateM AdrsT Bytes := do
  modify (·.setTreeHeight z)
  modify (·.setTreeIndex i)
  gets fun adrs ↦ prm.hH var adrs l r

/-- `fors_node`. -/
def forsNode (i z : ℕ) : StateM AdrsT Bytes :=
  treeHash (forsLeaf prm var) (forsJoin prm var) slhMaxA i z

/-- `fors_sign`. -/
def forsSign (md : Bytes) : StateM AdrsT Bytes := do
  let vi := base2b md prm.a prm.k
  let sf ← collect (fun i ↦ do
    let v := vi.getD i 0
    modify (·.setTreeIndex ((i <<< prm.a) + v))
    let sk ← prm.forsHash var 0
    let auth ← collect (fun j ↦ forsNode prm var ((i <<< (prm.a - j)) + ((v >>> j) ^^^ 1)) j) prm.a
    pure (sk ++ auth.flatten)) prm.k
  pure sf.flatten

/-- `fors_pk_from_sig`. -/
def forsPkFromSig (sf md : Bytes) : StateM AdrsT Bytes := do
  let vi := base2b md prm.a prm.k
  let n := prm.n
  let root ← collect (fun i ↦ do
    let sf := sf.drop (i * (1 + prm.a) * n)
    let v := vi.getD i 0
    modify (·.setTreeHeight 0)
    let idx := (i <<< prm.a) + v
    modify (·.setTreeIndex idx)
    let node ← gets fun adrs ↦ prm.hF var adrs (part sf 0 n)
    loop (fun j node ↦ do
      modify (·.setTreeHeight (j + 1))
      modify (·.setTreeIndex (idx >>> (j + 1)))
      let auth := part sf ((j + 1) * n) n
      gets fun adrs ↦
        if (v >>> j) &&& 1 = 0 then prm.hH var adrs node auth else prm.hH var adrs auth node)
      prm.a node) prm.k
  modify (·.setTypeAndClearNotKp .forsRoots)
  gets fun adrs ↦ prm.hT var adrs root.flatten

/-! ## The interface -/

/-- `slh_toint`. -/
def slhToint : Bytes → ℕ
  | [] => 0
  | b :: x => x.foldl (fun t b ↦ ((t <<< 8) % 2 ^ 64 + b.toNat) % 2 ^ 64) b.toNat

/-- `split_digest`. -/
def splitDigest (P : Sizes) (digest : Bytes) : ℕ × ℕ :=
  let mdSz := (P.k * P.a + 7) / 8
  let iTreeSz := (P.h - P.hp + 7) / 8
  let iLeafSz := (P.hp + 7) / 8
  let iTree := slhToint (part digest mdSz iTreeSz)
  let iLeaf := slhToint (part digest (mdSz + iTreeSz) iLeafSz) % 2 ^ 32
  (if P.h - P.hp ≠ 64 then iTree &&& ((1 <<< (P.h - P.hp)) - 1) else iTree,
    iLeaf &&& ((1 <<< P.hp) - 1))

/-- The address before FORS in `slh_sign_digest` and `slh_verify_digest`. -/
def setForsAddress (iTree iLeaf : ℕ) : StateM AdrsT Unit := do
  modify (·.zero)
  modify (·.setTreeAddress iTree)
  modify (·.setTypeAndClearNotKp .forsTree)
  modify (·.setKeyPairAddress iLeaf)

/-- `slh_sign_digest`. -/
def slhSignDigest (digest : Bytes) : StateM AdrsT Bytes := do
  let (iTree, iLeaf) := splitDigest prm.toSizes digest
  setForsAddress iTree iLeaf
  let sigFors ← forsSign prm var digest
  let pkFors ← forsPkFromSig prm var sigFors digest
  let sigHt ← htSign prm var pkFors iTree iLeaf
  pure (sigFors ++ sigHt)

/-- `slh_verify_digest`. -/
def slhVerifyDigest (digest sig : Bytes) : StateM AdrsT Bool := do
  let sigFors := sig.drop prm.n
  let sigHt := sig.drop ((1 + prm.k * (1 + prm.a)) * prm.n)
  if sig.length ≠ slhSigSz prm.toSizes then
    return false
  let (iTree, iLeaf) := splitDigest prm.toSizes digest
  setForsAddress iTree iLeaf
  let pkFors ← forsPkFromSig prm var sigFors digest
  htVerify prm var pkFors sigHt iTree iLeaf

/-- A local `slh_var_t` before `mk_var`. -/
structure Local (Pre : Type) where
  var : Var Pre
  adrs : AdrsT

variable (stack : Local Pre)

/-- `slh_keygen_internal`: the secret and the public key. -/
def slhKeygenInternal (skSeed skPrf pkSeed : Bytes) : Bytes × Bytes :=
  let sk := skSeed ++ skPrf ++ pkSeed
  let var := prm.mkVar stack.var none (some (sk ++ List.replicate prm.n 0))
  let adrs := stack.adrs.zero.setLayerAddress (prm.d - 1)
  let root := (xmssNode prm var 0 prm.hp adrs).1
  (sk ++ root, pkSeed ++ root)

/-- `opt_rand` in `slh_sign_internal` and `slh_sign`. -/
def optRand (addrnd : Option Bytes) : Bytes := addrnd.getD var.pkSeed

/-- What `slh_sign_internal` and `slh_sign` share. -/
def signWith (m : Bytes) (ctx : Option Bytes) (sk : Bytes)
    (addrnd : Option Bytes) : Bytes :=
  let var := prm.mkVar stack.var none (some sk)
  let r := prm.prfMsg var (optRand var addrnd) m ctx
  let digest := prm.hMsg var r m ctx
  r ++ (slhSignDigest prm var digest stack.adrs).1

/-- `slh_sign_internal`. -/
def slhSignInternal (m sk : Bytes) (addrnd : Option Bytes) : Bytes :=
  signWith prm stack m none sk addrnd

/-- `slh_sign`, which writes nothing if the context is too long. -/
def slhSign (m ctx sk : Bytes) (addrnd : Option Bytes) : Bytes :=
  if 255 < ctx.length then [] else signWith prm stack m (some ctx) sk addrnd

/-- What `slh_verify_internal` and `slh_verify` share. -/
def verifyWith (m sig : Bytes) (ctx : Option Bytes) (pk : Bytes) : Bool :=
  let var := prm.mkVar stack.var (some pk) none
  let digest := prm.hMsg var (part sig 0 prm.n) m ctx
  (slhVerifyDigest prm var digest sig stack.adrs).1

/-- `slh_verify_internal`. -/
def slhVerifyInternal (m sig pk : Bytes) : Bool := verifyWith prm stack m sig none pk

/-- `slh_verify`. -/
def slhVerify (m sig ctx pk : Bytes) : Bool :=
  if 255 < ctx.length then false else verifyWith prm stack m sig (some ctx) pk

end Functions

end Native

end SlhDsa
