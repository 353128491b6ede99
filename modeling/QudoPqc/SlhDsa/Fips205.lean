import QudoPqc.Merkle.Tree
import QudoPqc.SlhDsa.Address

/-!
# SLH-DSA as FIPS 205 has it

The algorithms of FIPS 205 as functions: one-time signatures from hash chains (WOTS+), trees over
their public keys (XMSS), the hypertree made of `d` layers of such trees, and the few-time
signatures of the message digest (FORS). The hash functions are a parameter. A signature is a row of
strings of `n` bytes, here a function from positions to strings, so that the parts of a signature
are shifts of it.

The trees are those of `Merkle`, and that a signature leads back to the root is
`Merkle.climb_eq_node`, once for XMSS and once for FORS. `verifyDigest_signDigest` puts the layers
together: the message signed in layer `j + 1` is the root of the tree in layer `j`, and in the top
layer there is one tree only.
-/

namespace SlhDsa

open Codec

/-- The numbers of a parameter set, within the limits of the buffers in `slh_var.h`. -/
structure Sizes where
  n : ℕ
  h : ℕ
  d : ℕ
  hp : ℕ
  a : ℕ
  k : ℕ
  lgW : ℕ
  m : ℕ
  n_mem : n = 16 ∨ n = 24 ∨ n = 32 := by decide
  h_eq : h = d * hp := by decide
  d_pos : 0 < d := by decide
  d_le : d ≤ 22 := by decide
  hp_pos : 0 < hp := by decide
  hp_le : hp ≤ 9 := by decide
  tree_le : h - hp ≤ 64 := by decide
  a_pos : 0 < a := by decide
  a_le : a ≤ 14 := by decide
  k_le : k ≤ 35 := by decide
  lgW_eq : lgW = 4 := by decide
  m_eq : m = (k * a + 7) / 8 + (h - hp + 7) / 8 + (hp + 7) / 8 := by decide

namespace Fips205

/-- The functions of section 4.1 for strings of `n` bytes. -/
structure HashFamily (n : ℕ) where
  prf : (pkSeed skSeed adrs : Bytes) → Bytes
  prfMsg : (skPrf optRand msg : Bytes) → Bytes
  hMsg : (r pkSeed pkRoot msg : Bytes) → Bytes
  f : (pkSeed adrs msg : Bytes) → Bytes
  h : (pkSeed adrs msg : Bytes) → Bytes
  t : (pkSeed adrs msg : Bytes) → Bytes
  length_prf : ∀ pkSeed skSeed adrs, (prf pkSeed skSeed adrs).length = n
  length_prfMsg : ∀ skPrf optRand msg, (prfMsg skPrf optRand msg).length = n
  length_f : ∀ pkSeed adrs msg, (f pkSeed adrs msg).length = n
  length_h : ∀ pkSeed adrs msg, (h pkSeed adrs msg).length = n
  length_t : ∀ pkSeed adrs msg, (t pkSeed adrs msg).length = n

/-- Entry `i` of `base_2b(X, b, ·)`: the `i`-th group of `b` bits. -/
def base2b (x : Bytes) (b i : ℕ) : ℕ :=
  let bytes := (b * (i + 1) + 7) / 8
  toInt (x.take bytes) / 2 ^ (8 * bytes - b * (i + 1)) % 2 ^ b

theorem base2b_lt (x : Bytes) (b i : ℕ) : base2b x b i < 2 ^ b :=
  Nat.mod_lt _ (Nat.two_pow_pos b)

variable (P : Sizes) (H : HashFamily P.n) (pkSeed skSeed : Bytes)

/-! ## WOTS+ -/

/-- Equation 5.2. -/
def len1 : ℕ := (8 * P.n + P.lgW - 1) / P.lgW

/-- Equation 5.3. -/
def len2 : ℕ := Nat.log 2 (len1 P * (2 ^ P.lgW - 1)) / P.lgW + 1

/-- Equation 5.4. -/
def len : ℕ := len1 P + len2 P

/-- The sum which keeps a signature from being turned into one for larger digits. -/
def checksum (msg : Bytes) : ℕ :=
  ((List.range (len1 P)).map fun i ↦ 2 ^ P.lgW - 1 - base2b msg P.lgW i).sum

/-- The digits which are signed: those of the message, then those of the checksum. -/
def digits (msg : Bytes) (i : ℕ) : ℕ :=
  if i < len1 P then base2b msg P.lgW i
  else
    let csum := checksum P msg <<< ((8 - len2 P * P.lgW % 8) % 8)
    base2b (toByte csum ((len2 P * P.lgW + 7) / 8)) P.lgW (i - len1 P)

theorem digits_lt (msg : Bytes) (i : ℕ) : digits P msg i < 2 ^ P.lgW := by
  rw [digits]
  split <;> exact base2b_lt _ _ _

variable {P}

variable {layer tree keyPair i iTree iLeaf j : ℕ} {sig : ℕ → Bytes} {msg : Bytes}

/-- Algorithm 5: the steps from `i` on. -/
def chain (A : Adrs) (x : Bytes) (i : ℕ) : ℕ → Bytes
  | 0 => x
  | s + 1 => H.f pkSeed (Adrs.bytes { A with index := i + s }) (chain A x i s)

theorem chain_chain (A : Adrs) (x : Bytes) (i s t : ℕ) :
    chain H pkSeed A (chain H pkSeed A x i s) (i + s) t = chain H pkSeed A x i (s + t) := by
  induction t with
  | zero => rfl
  | succ t ih => rw [chain, ih, ← Nat.add_assoc, chain, Nat.add_assoc]

theorem length_chain (A : Adrs) {x : Bytes} (hx : x.length = P.n) (i s : ℕ) :
    (chain H pkSeed A x i s).length = P.n := by
  cases s with
  | zero => exact hx
  | succ s => exact H.length_f _ _ _

/-- The start of chain `c`. -/
def wotsSk (layer tree keyPair c : ℕ) : Bytes :=
  H.prf pkSeed skSeed (Adrs.mk layer tree .wotsPrf keyPair c 0).bytes

/-- The address of chain `c`. -/
abbrev chainAdrs (layer tree keyPair c : ℕ) : Adrs := Adrs.mk layer tree .wotsHash keyPair c 0

/-- The public key, from the ends of the chains. -/
def wotsPk (layer tree keyPair : ℕ) (ends : ℕ → Bytes) : Bytes :=
  H.t pkSeed (Adrs.mk layer tree .wotsPk keyPair 0 0).bytes ((List.range (len P)).flatMap ends)

/-- Algorithm 6. -/
def wotsPkGen (layer tree keyPair : ℕ) : Bytes :=
  wotsPk H pkSeed layer tree keyPair fun c ↦
    chain H pkSeed (chainAdrs layer tree keyPair c) (wotsSk H pkSeed skSeed layer tree keyPair c) 0
      (2 ^ P.lgW - 1)

/-- Algorithm 7. -/
def wotsSign (layer tree keyPair : ℕ) (msg : Bytes) (c : ℕ) : Bytes :=
  chain H pkSeed (chainAdrs layer tree keyPair c) (wotsSk H pkSeed skSeed layer tree keyPair c) 0
    (digits P msg c)

/-- Algorithm 8. -/
def wotsPkFromSig (layer tree keyPair : ℕ) (sig : ℕ → Bytes) (msg : Bytes) : Bytes :=
  wotsPk H pkSeed layer tree keyPair fun c ↦
    chain H pkSeed (chainAdrs layer tree keyPair c) (sig c) (digits P msg c)
      (2 ^ P.lgW - 1 - digits P msg c)

variable {H pkSeed skSeed}

theorem wotsPk_congr {ends ends' : ℕ → Bytes}
    (h : ∀ c < len P, ends c = ends' c) :
    wotsPk H pkSeed layer tree keyPair ends = wotsPk H pkSeed layer tree keyPair ends' := by
  have hends : (List.range (len P)).flatMap ends = (List.range (len P)).flatMap ends' := by
    rw [List.flatMap_def, List.flatMap_def]
    congr 1
    exact List.map_congr_left fun c hc ↦ h c (List.mem_range.mp hc)
  rw [wotsPk, wotsPk, hends]

/-- The verifier walks the rest of each chain. -/
theorem wotsPkFromSig_wotsSign
    (h : ∀ c < len P, sig c = wotsSign H pkSeed skSeed layer tree keyPair msg c) :
    wotsPkFromSig H pkSeed layer tree keyPair sig msg =
      wotsPkGen H pkSeed skSeed layer tree keyPair := by
  refine wotsPk_congr fun c hc ↦ ?_
  have hdigit := digits_lt P msg c
  have hrest := chain_chain H pkSeed (chainAdrs layer tree keyPair c)
    (wotsSk H pkSeed skSeed layer tree keyPair c) 0 (digits P msg c)
    (2 ^ P.lgW - 1 - digits P msg c)
  rw [Nat.zero_add] at hrest
  rw [h c hc, wotsSign, hrest]
  congr 1
  omega

/-! ## XMSS -/

variable (H pkSeed skSeed)

/-- A node of a tree in the hypertree, from its children. -/
def treeJoin (layer tree z i : ℕ) (l r : Bytes) : Bytes :=
  H.h pkSeed (Adrs.mk layer tree .tree 0 z i).bytes (l ++ r)

/-- Algorithm 9. -/
def xmssNode (layer tree : ℕ) : (z i : ℕ) → Bytes :=
  Merkle.node (wotsPkGen H pkSeed skSeed layer tree) (treeJoin H pkSeed layer tree)

/-- Algorithm 10: the one-time signature, then the siblings on the way up. -/
def xmssSign (layer tree idx : ℕ) (msg : Bytes) (i : ℕ) : Bytes :=
  if i < len P then wotsSign H pkSeed skSeed layer tree idx msg i
  else xmssNode H pkSeed skSeed layer tree (i - len P) ((idx >>> (i - len P)) ^^^ 1)

/-- Algorithm 11. -/
def xmssPkFromSig (layer tree idx : ℕ) (sig : ℕ → Bytes) (msg : Bytes) : Bytes :=
  Merkle.climb (treeJoin H pkSeed layer tree) idx (fun j ↦ sig (len P + j)) P.hp
    (wotsPkFromSig H pkSeed layer tree idx sig msg)

variable {H pkSeed skSeed}

/-- A signature of a tree leads to its root. -/
theorem xmssPkFromSig_xmssSign {idx : ℕ}
    (hidx : idx < 2 ^ P.hp)
    (h : ∀ i < len P + P.hp, sig i = xmssSign H pkSeed skSeed layer tree idx msg i) :
    xmssPkFromSig H pkSeed layer tree idx sig msg = xmssNode H pkSeed skSeed layer tree P.hp 0 := by
  have hwots : ∀ c < len P, sig c = wotsSign H pkSeed skSeed layer tree idx msg c := by
    intro c hc
    rw [h c (by omega), xmssSign, if_pos hc]
  have hauth : ∀ j < P.hp, sig (len P + j) = Merkle.node (wotsPkGen H pkSeed skSeed layer tree)
      (treeJoin H pkSeed layer tree) j ((idx >>> j) ^^^ 1) := by
    intro j hj
    rw [h _ (by omega), xmssSign, if_neg (by omega), Nat.add_sub_cancel_left, xmssNode]
  rw [xmssPkFromSig, wotsPkFromSig_wotsSign hwots, Merkle.climb_eq_node hauth,
    Nat.shiftRight_eq_div_pow, Nat.div_eq_of_lt hidx, xmssNode]

/-! ## The hypertree -/

variable (P) in
/-- The tree of layer `j`. -/
def treeAt (iTree j : ℕ) : ℕ := iTree >>> (P.hp * j)

variable (P) in
/-- The leaf of layer `j`. -/
def leafAt (iTree iLeaf : ℕ) : ℕ → ℕ
  | 0 => iLeaf
  | j + 1 => treeAt P iTree j % 2 ^ P.hp

variable (P) in
/-- The signature of layer `j` in a signature of the hypertree. -/
def layerSig (sig : ℕ → Bytes) (j : ℕ) : ℕ → Bytes := fun i ↦ sig (j * (len P + P.hp) + i)

variable (H pkSeed skSeed)

/-- The nodes of Algorithm 13: what the signature says about the roots below layer `j`. -/
def htNode (iTree iLeaf : ℕ) (sig : ℕ → Bytes) (msg : Bytes) : ℕ → Bytes
  | 0 => msg
  | j + 1 => xmssPkFromSig H pkSeed j (treeAt P iTree j) (leafAt P iTree iLeaf j) (layerSig P sig j)
      (htNode iTree iLeaf sig msg j)

/-- The messages of Algorithm 12: what is signed in layer `j`. -/
def htMsg (iTree iLeaf : ℕ) (msg : Bytes) : ℕ → Bytes
  | 0 => msg
  | j + 1 => xmssPkFromSig H pkSeed j (treeAt P iTree j) (leafAt P iTree iLeaf j)
      (xmssSign H pkSeed skSeed j (treeAt P iTree j) (leafAt P iTree iLeaf j)
        (htMsg iTree iLeaf msg j))
      (htMsg iTree iLeaf msg j)

/-- Algorithm 12. -/
def htSign (iTree iLeaf : ℕ) (msg : Bytes) (i : ℕ) : Bytes :=
  let j := i / (len P + P.hp)
  xmssSign H pkSeed skSeed j (treeAt P iTree j) (leafAt P iTree iLeaf j)
    (htMsg H pkSeed skSeed iTree iLeaf msg j) (i % (len P + P.hp))

variable {H pkSeed skSeed}

theorem row_div {c r : ℕ} (hr : r < c) : (i * c + r) / c = i := by
  rw [Nat.mul_comm, Nat.mul_add_div (by omega), Nat.div_eq_of_lt hr, Nat.add_zero]

theorem row_mod {c r : ℕ} (hr : r < c) : (i * c + r) % c = r := by
  rw [Nat.mul_comm, Nat.mul_add_mod, Nat.mod_eq_of_lt hr]

theorem layerSig_htSign (j : ℕ) (hi : i < len P + P.hp) :
    layerSig P (htSign H pkSeed skSeed iTree iLeaf msg) j i =
      xmssSign H pkSeed skSeed j (treeAt P iTree j) (leafAt P iTree iLeaf j)
        (htMsg H pkSeed skSeed iTree iLeaf msg j) i := by
  rw [layerSig, htSign, row_div hi, row_mod hi]

theorem leafAt_lt (h : iLeaf < 2 ^ P.hp) (j : ℕ) :
    leafAt P iTree iLeaf j < 2 ^ P.hp := by
  cases j with
  | zero => exact h
  | succ j => exact Nat.mod_lt _ (Nat.two_pow_pos _)

/-- What is signed in a layer is the root of the tree in the layer below. -/
theorem htMsg_succ (hleaf : iLeaf < 2 ^ P.hp) (msg : Bytes) (j : ℕ) :
    htMsg H pkSeed skSeed iTree iLeaf msg (j + 1) =
      xmssNode H pkSeed skSeed j (treeAt P iTree j) P.hp 0 :=
  xmssPkFromSig_xmssSign (leafAt_lt hleaf j) fun _ _ ↦ rfl

/-- The verifier finds the messages of the signer. -/
theorem htNode_htSign (hleaf : iLeaf < 2 ^ P.hp) (h : ∀ i < j * (len P + P.hp),
      sig i = htSign H pkSeed skSeed iTree iLeaf msg i) :
    htNode H pkSeed iTree iLeaf sig msg j = htMsg H pkSeed skSeed iTree iLeaf msg j := by
  induction j with
  | zero => rfl
  | succ j ih =>
    have hsig : ∀ i < len P + P.hp, layerSig P sig j i =
        xmssSign H pkSeed skSeed j (treeAt P iTree j) (leafAt P iTree iLeaf j)
          (htMsg H pkSeed skSeed iTree iLeaf msg j) i := by
      intro i hi
      rw [← layerSig_htSign j hi]
      exact h _ (by rw [Nat.succ_mul]; omega)
    rw [htNode, ih fun i hi ↦ h i (by rw [Nat.succ_mul]; omega),
      xmssPkFromSig_xmssSign (leafAt_lt hleaf j) hsig, htMsg_succ hleaf]

/-- There is one tree in the top layer. -/
theorem treeAt_top (h : iTree < 2 ^ (P.h - P.hp)) : treeAt P iTree (P.d - 1) = 0 := by
  have hexp : P.hp * (P.d - 1) = P.h - P.hp := by
    rw [P.h_eq, Nat.mul_comm, Nat.sub_mul, Nat.one_mul]
  rw [treeAt, hexp, Nat.shiftRight_eq_div_pow, Nat.div_eq_of_lt h]

/-! ## FORS -/

variable (H pkSeed skSeed)

/-- Algorithm 14. -/
def forsSk (tree keyPair idx : ℕ) : Bytes :=
  H.prf pkSeed skSeed (Adrs.mk 0 tree .forsPrf keyPair 0 idx).bytes

/-- A leaf, from the secret value. -/
def forsLeaf (tree keyPair idx : ℕ) (sk : Bytes) : Bytes :=
  H.f pkSeed (Adrs.mk 0 tree .forsTree keyPair 0 idx).bytes sk

def forsJoin (tree keyPair z i : ℕ) (l r : Bytes) : Bytes :=
  H.h pkSeed (Adrs.mk 0 tree .forsTree keyPair z i).bytes (l ++ r)

/-- The leaf of the secret value that belongs to it. -/
def forsLeafGen (tree keyPair idx : ℕ) : Bytes :=
  forsLeaf H pkSeed tree keyPair idx (forsSk H pkSeed skSeed tree keyPair idx)

/-- Algorithm 15. -/
def forsNode (tree keyPair : ℕ) : (z i : ℕ) → Bytes :=
  Merkle.node (forsLeafGen H pkSeed skSeed tree keyPair) (forsJoin H pkSeed tree keyPair)

variable (P) in
/-- The leaf which the digest selects in tree `i`, among the leaves of all trees. -/
def forsIdx (md : Bytes) (i : ℕ) : ℕ := i * 2 ^ P.a + base2b md P.a i

/-- Algorithm 16: for each tree the secret value, then the siblings on the way up. -/
def forsSign (tree keyPair : ℕ) (md : Bytes) (b : ℕ) : Bytes :=
  let i := b / (P.a + 1)
  let r := b % (P.a + 1)
  if r = 0 then forsSk H pkSeed skSeed tree keyPair (forsIdx P md i)
  else
    let j := r - 1
    forsNode H pkSeed skSeed tree keyPair j (i * 2 ^ (P.a - j) + ((base2b md P.a i >>> j) ^^^ 1))

/-- The root of tree `i`, from a signature. -/
def forsRoot (tree keyPair : ℕ) (sig : ℕ → Bytes) (md : Bytes) (i : ℕ) : Bytes :=
  Merkle.climb (forsJoin H pkSeed tree keyPair) (forsIdx P md i)
    (fun j ↦ sig (i * (P.a + 1) + (j + 1))) P.a
    (forsLeaf H pkSeed tree keyPair (forsIdx P md i) (sig (i * (P.a + 1))))

/-- Algorithm 17. -/
def forsPkFromSig (tree keyPair : ℕ) (sig : ℕ → Bytes) (md : Bytes) : Bytes :=
  H.t pkSeed (Adrs.mk 0 tree .forsRoots keyPair 0 0).bytes
    ((List.range P.k).flatMap (forsRoot H pkSeed tree keyPair sig md))

variable {H pkSeed skSeed}

theorem forsIdx_shiftRight (md : Bytes) (i : ℕ) (hj : j ≤ P.a) :
    forsIdx P md i >>> j = i * 2 ^ (P.a - j) + base2b md P.a i >>> j := by
  have hpow : 2 ^ P.a = 2 ^ j * 2 ^ (P.a - j) := by rw [← pow_add, Nat.add_sub_cancel' hj]
  rw [forsIdx, Nat.shiftRight_eq_div_pow, Nat.shiftRight_eq_div_pow, hpow, Nat.mul_left_comm,
    Nat.mul_add_div (Nat.two_pow_pos j)]

theorem forsIdx_xor (md : Bytes) (i : ℕ) (hj : j < P.a) :
    forsIdx P md i >>> j ^^^ 1 = i * 2 ^ (P.a - j) + (base2b md P.a i >>> j ^^^ 1) := by
  have hpow : 2 ^ (P.a - j) = 2 * 2 ^ (P.a - j - 1) := by
    rw [← pow_succ', Nat.sub_add_cancel (by omega)]
  rw [forsIdx_shiftRight md i hj.le, hpow, Nat.mul_left_comm]
  generalize base2b md P.a i >>> j = v
  rcases Nat.mod_two_eq_zero_or_one v with heven | hodd
  · rw [Nat.xor_one_of_even (Nat.even_iff.mpr heven),
      Nat.xor_one_of_even (Nat.even_iff.mpr (by omega)), Nat.add_assoc]
  · rw [Nat.xor_one_of_odd (Nat.odd_iff.mpr hodd), Nat.xor_one_of_odd (Nat.odd_iff.mpr (by omega))]
    omega

/-- The secret value in the signature of tree `i`. -/
theorem forsSign_secret {md : Bytes} (i : ℕ) :
    forsSign H pkSeed skSeed tree keyPair md (i * (P.a + 1)) =
      forsSk H pkSeed skSeed tree keyPair (forsIdx P md i) := by
  rw [forsSign, Nat.mul_mod_left, if_pos rfl, Nat.mul_div_cancel _ (by omega)]

/-- The siblings in the signature of tree `i`. -/
theorem forsSign_auth {md : Bytes} (i : ℕ) (hj : j < P.a) :
    forsSign H pkSeed skSeed tree keyPair md (i * (P.a + 1) + (j + 1)) =
      forsNode H pkSeed skSeed tree keyPair j
        (i * 2 ^ (P.a - j) + ((base2b md P.a i >>> j) ^^^ 1)) := by
  rw [forsSign, row_div (by omega), row_mod (by omega), if_neg (by omega), Nat.add_sub_cancel]

/-- A signature leads to the roots of the trees. -/
theorem forsRoot_forsSign {md : Bytes}
    (h : ∀ r < P.a + 1, sig (i * (P.a + 1) + r) =
      forsSign H pkSeed skSeed tree keyPair md (i * (P.a + 1) + r)) :
    forsRoot H pkSeed tree keyPair sig md i = forsNode H pkSeed skSeed tree keyPair P.a i := by
  have hsecret : sig (i * (P.a + 1)) = forsSk H pkSeed skSeed tree keyPair (forsIdx P md i) :=
    (h 0 (by omega)).trans (forsSign_secret i)
  have hauth : ∀ j < P.a, sig (i * (P.a + 1) + (j + 1)) =
      Merkle.node (forsLeafGen H pkSeed skSeed tree keyPair) (forsJoin H pkSeed tree keyPair) j
        ((forsIdx P md i >>> j) ^^^ 1) := by
    intro j hj
    rw [h (j + 1) (by omega), forsSign_auth i hj, forsIdx_xor md i hj, forsNode]
  have htop : forsIdx P md i >>> P.a = i := by
    rw [forsIdx_shiftRight md i le_rfl, Nat.sub_self, pow_zero, mul_one, Nat.shiftRight_eq_div_pow,
      Nat.div_eq_of_lt (base2b_lt _ _ _), Nat.add_zero]
  have hclimb := Merkle.climb_eq_node hauth
  rw [htop] at hclimb
  rw [forsRoot, hsecret, ← forsLeafGen, hclimb, forsNode]

theorem forsPkFromSig_forsSign {md : Bytes}
    (h : ∀ b < P.k * (P.a + 1), sig b = forsSign H pkSeed skSeed tree keyPair md b) :
    forsPkFromSig H pkSeed tree keyPair sig md =
      forsPkFromSig H pkSeed tree keyPair (forsSign H pkSeed skSeed tree keyPair md) md := by
  have hroot : ∀ i ∈ List.range P.k, forsRoot H pkSeed tree keyPair sig md i =
      forsRoot H pkSeed tree keyPair (forsSign H pkSeed skSeed tree keyPair md) md i := by
    intro i hi
    have hblock : (i + 1) * (P.a + 1) ≤ P.k * (P.a + 1) :=
      Nat.mul_le_mul_right _ (List.mem_range.mp hi)
    rw [Nat.succ_mul] at hblock
    rw [forsRoot_forsSign fun r hr ↦ h _ (by omega), forsRoot_forsSign fun _ _ ↦ rfl]
  rw [forsPkFromSig, forsPkFromSig, List.flatMap_def, List.flatMap_def, List.map_congr_left hroot]

/-! ## Keys, signatures and verification -/

section Digest

variable (P) (digest : Bytes)

/-- The length of the part of the digest which FORS signs. -/
def mdLen : ℕ := (P.k * P.a + 7) / 8

/-- The part of the digest which FORS signs. -/
def md : Bytes := part digest 0 (mdLen P)

/-- The tree of the lowest layer which the digest selects. -/
def idxTree : ℕ := toInt (part digest (mdLen P) ((P.h - P.hp + 7) / 8)) % 2 ^ (P.h - P.hp)

/-- The leaf which the digest selects in it. -/
def idxLeaf : ℕ :=
  toInt (part digest (mdLen P + (P.h - P.hp + 7) / 8) ((P.hp + 7) / 8)) % 2 ^ P.hp

theorem idxTree_lt : idxTree P digest < 2 ^ (P.h - P.hp) := Nat.mod_lt _ (Nat.two_pow_pos _)

theorem idxLeaf_lt : idxLeaf P digest < 2 ^ P.hp := Nat.mod_lt _ (Nat.two_pow_pos _)

/-- The strings of a signature behind the randomizer. -/
def sigBlocks : ℕ := P.k * (P.a + 1) + P.d * (len P + P.hp)

end Digest

variable (H pkSeed skSeed)

/-- PK.root in Algorithm 18. -/
def slhRoot : Bytes := xmssNode H pkSeed skSeed (P.d - 1) 0 P.hp 0

/-- SIG_FORS in Algorithm 19. -/
def sigFors (digest : Bytes) : ℕ → Bytes :=
  forsSign H pkSeed skSeed (idxTree P digest) (idxLeaf P digest) (md P digest)

/-- PK_FORS, from a signature. -/
def pkFors (digest : Bytes) (sig : ℕ → Bytes) : Bytes :=
  forsPkFromSig H pkSeed (idxTree P digest) (idxLeaf P digest) sig (md P digest)

/-- The signature of a digest in Algorithm 19: SIG_FORS, then SIG_HT. -/
def signDigest (digest : Bytes) (b : ℕ) : Bytes :=
  if b < P.k * (P.a + 1) then sigFors H pkSeed skSeed digest b
  else
    htSign H pkSeed skSeed (idxTree P digest) (idxLeaf P digest)
      (pkFors H pkSeed digest (sigFors H pkSeed skSeed digest)) (b - P.k * (P.a + 1))

/-- The verification of a digest in Algorithm 20. -/
def verifyDigest (pkRoot digest : Bytes) (sig : ℕ → Bytes) : Bool :=
  htNode H pkSeed (idxTree P digest) (idxLeaf P digest) (fun i ↦ sig (P.k * (P.a + 1) + i))
    (pkFors H pkSeed digest sig) P.d == pkRoot

variable {H pkSeed skSeed}

/-- A signed digest is accepted. -/
theorem verifyDigest_signDigest {digest : Bytes}
    (h : ∀ b < sigBlocks P, sig b = signDigest H pkSeed skSeed digest b) :
    verifyDigest H pkSeed (slhRoot H pkSeed skSeed) digest sig = true := by
  have hleaf := idxLeaf_lt P digest
  have hfors : ∀ b < P.k * (P.a + 1), sig b = sigFors H pkSeed skSeed digest b := by
    intro b hb
    rw [h b (by rw [sigBlocks]; omega), signDigest, if_pos hb]
  have hpk : pkFors H pkSeed digest sig = pkFors H pkSeed digest (sigFors H pkSeed skSeed digest) :=
    forsPkFromSig_forsSign hfors
  have hht : ∀ i < P.d * (len P + P.hp), sig (P.k * (P.a + 1) + i) =
      htSign H pkSeed skSeed (idxTree P digest) (idxLeaf P digest)
        (pkFors H pkSeed digest (sigFors H pkSeed skSeed digest)) i := by
    intro i hi
    rw [h _ (by rw [sigBlocks]; omega), signDigest, if_neg (by omega), Nat.add_sub_cancel_left]
  have htop : htMsg H pkSeed skSeed (idxTree P digest) (idxLeaf P digest)
      (pkFors H pkSeed digest (sigFors H pkSeed skSeed digest)) (P.d - 1 + 1) =
        slhRoot H pkSeed skSeed := by
    rw [htMsg_succ hleaf, treeAt_top (idxTree_lt P digest), slhRoot]
  rw [Nat.sub_add_cancel P.d_pos] at htop
  rw [verifyDigest, beq_iff_eq, hpk, htNode_htSign hleaf hht, htop]

end Fips205

end SlhDsa
