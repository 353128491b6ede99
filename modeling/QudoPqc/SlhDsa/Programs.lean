import QudoPqc.SlhDsa.Refinement

/-!
# The engine's trees and signatures are those of FIPS 205

`Realizes` is what `slh_dsa.c` relies on in the functions of a parameter set: each computes the hash
function of FIPS 205 it is named after, at the address it finds, and says which fields of the
address it leaves changed. From this follows what every function of `slh_dsa.c` returns, from every
address that its callers leave.

The address goes from one function to the next, so the conditions say how much of it is known.
`InTree` is enough for XMSS, where the key pair and the type are always set again. WOTS+ needs the
key pair (`AtLeaf`), and the functions that do not set the type need that too (`AtType`): the chains
of the verifier, and the inner nodes of FORS. After the secret values of `fors_sign` the type is
wrong for an inner node, and it is right again since the first sibling is a leaf.
-/

namespace SlhDsa

open Codec Fips205

/-! ## Rows of strings -/

section Concat

variable {f g : ℕ → Bytes} {n : ℕ}

/-- The strings `f 0` to `f (N - 1)`, one after the other. -/
def concat (f : ℕ → Bytes) (N : ℕ) : Bytes := ((List.range N).map f).flatten

theorem concat_congr {N : ℕ} (h : ∀ i < N, f i = g i) : concat f N = concat g N := by
  rw [concat, concat, List.map_congr_left fun i hi ↦ h i (List.mem_range.mp hi)]

theorem concat_add (f : ℕ → Bytes) (N M : ℕ) :
    concat f (N + M) = concat f N ++ concat (fun i ↦ f (N + i)) M := by
  rw [concat, List.range_add, List.map_append, List.flatten_append, List.map_map]
  rfl

theorem length_concat (h : ∀ i, (f i).length = n) (N : ℕ) : (concat f N).length = N * n := by
  induction N with
  | zero => rw [Nat.zero_mul]; rfl
  | succ N ih =>
    rw [concat_add, List.length_append, ih, Nat.succ_mul, concat]
    simp [h]

/-- The strings are found where they were put. -/
theorem part_concat (h : ∀ i, (f i).length = n) {i N : ℕ} (hi : i < N) :
    part (concat f N) (i * n) n = f i := by
  obtain ⟨M, rfl⟩ : ∃ M, N = i + (1 + M) := ⟨N - i - 1, by omega⟩
  rw [part, concat_add, List.drop_left' (length_concat h i), concat_add]
  have hone : concat (fun r ↦ f (i + r)) 1 = f i := by simp [concat]
  rw [hone, List.take_left' (h i)]

/-- Rows of rows. -/
theorem concat_mul (f : ℕ → Bytes) (c N : ℕ) :
    concat (fun i ↦ concat (fun r ↦ f (i * c + r)) c) N = concat f (N * c) := by
  induction N with
  | zero => rw [Nat.zero_mul]; rfl
  | succ N ih =>
    rw [concat_add, ih, Nat.succ_mul, concat_add]
    congr 1
    simp [concat]

end Concat

namespace Native

open Codec Stateful

variable {Pre : Type} {layer tree z iTree iLeaf : ℕ} {a : AdrsT} {P : Sizes} {m : Bytes}

/-- The message with its context, as it is hashed. -/
def encodeMsg (m : Bytes) : (ctx : Option Bytes) → Bytes
  | none => m
  | some ctx => 0 :: UInt8.ofNat ctx.length :: ctx ++ m

/-- The functions of a parameter set compute those of FIPS 205 when the variables are `Good`. A
program is given the address `A` and leaves one which differs only in the fields it says. -/
structure Realizes (prm : SlhParam Pre) (H : HashFamily prm.n) (Good : Var Pre → Prop) :
    Prop where
  mkVar_sk : ∀ old sk, sk.length = 4 * prm.n →
    Good (prm.mkVar old none (some sk)) ∧
      (prm.mkVar old none (some sk)).skSeed = part sk 0 prm.n ∧
      (prm.mkVar old none (some sk)).skPrf = part sk prm.n prm.n ∧
      (prm.mkVar old none (some sk)).pkSeed = part sk (2 * prm.n) prm.n ∧
      (prm.mkVar old none (some sk)).pkRoot = part sk (3 * prm.n) prm.n
  mkVar_pk : ∀ old pk, pk.length = 2 * prm.n →
    Good (prm.mkVar old (some pk) none) ∧
      (prm.mkVar old (some pk) none).pkSeed = part pk 0 prm.n ∧
      (prm.mkVar old (some pk) none).pkRoot = part pk prm.n prm.n
  hF : ∀ {v}, Good v → ∀ a x, prm.hF v a x = H.f v.pkSeed a.u8 x
  hH : ∀ {v}, Good v → ∀ a x y, prm.hH v a x y = H.h v.pkSeed a.u8 (x ++ y)
  hT : ∀ {v}, Good v → ∀ a x, prm.hT v a x = H.t v.pkSeed a.u8 x
  chain : ∀ {v}, Good v → ∀ {A : Adrs}, A.tree < 2 ^ 64 → ∀ {x : Bytes}, x.length = prm.n →
    ∀ i s, Returns (· = A.toT) (prm.chain v x i s) (Fips205.chain H v.pkSeed A x i s)
      fun a ↦ ∃ ix, a = Adrs.toT { A with index := ix }
  wotsChain : ∀ {v}, Good v → ∀ {A : Adrs}, A.tree < 2 ^ 64 → ∀ s,
    Returns (· = A.toT) (prm.wotsChain v s)
      (Fips205.chain H v.pkSeed { A with type := .wotsHash, index := 0 }
        (H.prf v.pkSeed v.skSeed (Adrs.bytes { A with type := .wotsPrf, index := 0 })) 0 s)
      fun a ↦ ∃ ix, a = Adrs.toT { A with type := .wotsHash, index := ix }
  forsHash_zero : ∀ {v}, Good v → ∀ {A : Adrs}, A.tree < 2 ^ 64 →
    Returns (· = A.toT) (prm.forsHash v 0)
      (H.prf v.pkSeed v.skSeed (Adrs.bytes { A with type := .forsPrf, height := 0 }))
      fun a ↦ a = Adrs.toT { A with type := .forsPrf, height := 0 }
  forsHash_one : ∀ {v}, Good v → ∀ {A : Adrs}, A.tree < 2 ^ 64 →
    Returns (· = A.toT) (prm.forsHash v 1)
      (H.f v.pkSeed (Adrs.bytes { A with type := .forsTree, height := 0 })
        (H.prf v.pkSeed v.skSeed (Adrs.bytes { A with type := .forsPrf, height := 0 })))
      fun a ↦ a = Adrs.toT { A with type := .forsTree, height := 0 }
  hMsg : ∀ {v}, Good v → ∀ {r : Bytes}, r.length = prm.n → ∀ m ctx,
    prm.hMsg v r m ctx = H.hMsg r v.pkSeed v.pkRoot (encodeMsg m ctx)
  length_hMsg : ∀ r pkSeed pkRoot m, (H.hMsg r pkSeed pkRoot m).length = prm.m
  prfMsg : ∀ {v}, Good v → ∀ {rnd : Bytes}, rnd.length = prm.n → ∀ m ctx,
    prm.prfMsg v rnd m ctx = H.prfMsg v.skPrf rnd (encodeMsg m ctx)

/-! ## What is known of the address -/

/-- The address is in a tree. -/
def InTree (layer tree : ℕ) (a : AdrsT) : Prop :=
  ∃ y kp h ix, a = (Adrs.mk layer tree y kp h ix).toT

/-- The address belongs to a leaf. -/
def AtLeaf (layer tree kp : ℕ) (a : AdrsT) : Prop :=
  ∃ y h ix, a = (Adrs.mk layer tree y kp h ix).toT

/-- The address belongs to a leaf and has a type. -/
def AtType (layer tree : ℕ) (y : AdrsType) (kp : ℕ) (a : AdrsT) : Prop :=
  ∃ h ix, a = (Adrs.mk layer tree y kp h ix).toT

theorem AtLeaf.inTree {kp : ℕ} (h : AtLeaf layer tree kp a) :
    InTree layer tree a := by
  obtain ⟨y, ht, ix, rfl⟩ := h
  exact ⟨y, kp, ht, ix, rfl⟩

theorem AtType.atLeaf {kp : ℕ} {y : AdrsType}
    (h : AtType layer tree y kp a) : AtLeaf layer tree kp a := by
  obtain ⟨ht, ix, rfl⟩ := h
  exact ⟨y, ht, ix, rfl⟩

variable {prm : SlhParam Pre} {H : HashFamily prm.n} {Good : Var Pre → Prop}
  {v : Var Pre} {kp : ℕ}

/-! ## WOTS+ -/

/-- A chain sets the last field of the address itself. -/
theorem chain_index (H : HashFamily P.n) (pkSeed : Bytes) (A : Adrs)
    (ix : ℕ) (x : Bytes) (i s : ℕ) :
    Fips205.chain H pkSeed { A with index := ix } x i s = Fips205.chain H pkSeed A x i s := by
  induction s with
  | zero => rfl
  | succ s ih => rw [Fips205.chain, Fips205.chain, ih]

theorem two_pow_lgW (P : Sizes) : (1 <<< P.lgW) - 1 = 2 ^ P.lgW - 1 := by
  rw [Nat.shiftLeft_eq, Nat.one_mul]

/-- A value computed at a node of a tree. -/
theorem returns_atNode {y : AdrsType} {i : ℕ} {g : AdrsT → Bytes} {x : Bytes}
    (h : g (Adrs.mk layer tree y kp z i).toT = x) :
    Returns (AtType layer tree y kp)
      (do modify (·.setTreeHeight z)
          modify (·.setTreeIndex i)
          gets g) x (AtType layer tree y kp) := by
  rintro _ ⟨ht, ix, rfl⟩
  have hadrs : ((Adrs.mk layer tree y kp ht ix).toT.setTreeHeight z).setTreeIndex i =
      (Adrs.mk layer tree y kp z i).toT := by
    rw [toT_setTreeHeight, toT_setTreeIndex]
  refine ⟨?_, z, i, hadrs⟩
  rw [← h, ← hadrs]
  rfl

section Trees

variable (R : Realizes prm H Good) (hv : Good v) (htree : tree < 2 ^ 64)

include R hv htree

/-- The signer's and the key generator's chain: the address is set to it, and then walked. -/
theorem returns_wotsChain (c s : ℕ) :
    Returns (AtLeaf layer tree kp) (do modify (·.setChainAddress c); prm.wotsChain v s)
      (Fips205.chain H v.pkSeed (chainAdrs layer tree kp c)
        (wotsSk H v.pkSeed v.skSeed layer tree kp c) 0 s) (AtLeaf layer tree kp) := by
  rintro a ⟨y, h, ix, rfl⟩
  have hchain := R.wotsChain hv (A := Adrs.mk layer tree y kp c ix) htree s
  refine Returns.modify_bind (I := (· = (Adrs.mk layer tree y kp h ix).toT))
    (hchain.mono (fun _ hs ↦ hs) ?_) ?_ _ rfl
  · rintro _ ⟨ix', rfl⟩
    exact ⟨_, _, ix', rfl⟩
  · rintro _ rfl
    rw [toT_setChainAddress]

/-- The ends of the chains are hashed to the public key. -/
theorem returns_wotsPk (ends : ℕ → Bytes) :
    Returns (AtLeaf layer tree kp)
      (do modify (·.setTypeAndClearNotKp .wotsPk)
          gets fun adrs ↦ prm.hT v adrs
            ((List.range (len prm.toSizes)).map ends).flatten)
      (wotsPk H v.pkSeed layer tree kp ends) (AtLeaf layer tree kp) := by
  rintro a ⟨y, h, ix, rfl⟩
  have hgets : Returns (· = (Adrs.mk layer tree .wotsPk kp 0 0).toT)
      (gets fun adrs ↦ prm.hT v adrs ((List.range (len prm.toSizes)).map ends).flatten)
      (wotsPk H v.pkSeed layer tree kp ends)
      (· = (Adrs.mk layer tree .wotsPk kp 0 0).toT) := by
    refine .gets ?_
    rintro _ rfl
    rw [R.hT hv, u8_toT htree, wotsPk, List.flatMap_def]
  refine Returns.modify_bind (I := (· = (Adrs.mk layer tree y kp h ix).toT))
    (hgets.mono (fun _ hs ↦ hs) ?_) ?_ _ rfl
  · rintro _ rfl
    exact ⟨_, _, _, rfl⟩
  · rintro _ rfl
    rw [toT_setTypeAndClearNotKp]

theorem returns_wotsSign (hm : m.length = prm.n) :
    Returns (AtLeaf layer tree kp) (wotsSign prm v m)
      ((List.range (len prm.toSizes)).map
        (Fips205.wotsSign H v.pkSeed v.skSeed layer tree kp m)).flatten
      (AtLeaf layer tree kp) := by
  rw [wotsSign, getLen_eq]
  refine .bind (.collect fun i hi ↦ ?_) (.pure fun _ hs ↦ hs)
  rw [getD_wotsCsum _ hm hi]
  exact returns_wotsChain R hv htree i _

theorem returns_wotsPkFromSig
    {sig : Bytes} (hsig : len prm.toSizes * prm.n ≤ sig.length)
    (hm : m.length = prm.n) :
    Returns (AtType layer tree .wotsHash kp) (wotsPkFromSig prm v sig m)
      (Fips205.wotsPkFromSig H v.pkSeed layer tree kp (fun i ↦ part sig (i * prm.n) prm.n) m)
      (AtLeaf layer tree kp) := by
  rw [wotsPkFromSig, getLen_eq, two_pow_lgW]
  refine .bind (J := AtType layer tree .wotsHash kp) (.collect fun i hi ↦ ?_)
    ((returns_wotsPk R hv htree _).mono (fun _ ↦ AtType.atLeaf) fun _ hs ↦ hs)
  rintro a ⟨h, ix, rfl⟩
  have hlen : (part sig (i * prm.n) prm.n).length = prm.n := by
    have hle : (i + 1) * prm.n ≤ len prm.toSizes * prm.n := Nat.mul_le_mul_right _ hi
    rw [Nat.succ_mul] at hle
    rw [length_part]
    omega
  rw [getD_wotsCsum _ hm hi]
  have hchain := R.chain hv (A := Adrs.mk layer tree .wotsHash kp i ix) htree hlen
    (digits prm.toSizes m i) (2 ^ prm.lgW - 1 - digits prm.toSizes m i)
  rw [← chain_index H v.pkSeed (chainAdrs layer tree kp i) ix]
  refine Returns.modify_bind (I := (· = (Adrs.mk layer tree .wotsHash kp h ix).toT))
    (hchain.mono (fun _ hs ↦ hs) ?_) ?_ _ rfl
  · rintro _ ⟨ix', rfl⟩
    exact ⟨_, ix', rfl⟩
  · rintro _ rfl
    rw [toT_setChainAddress]

/-! ## XMSS -/

theorem returns_xmssLeaf (i : ℕ) :
    Returns (InTree layer tree) (xmssLeaf prm v i)
      (wotsPkGen H v.pkSeed v.skSeed layer tree i) (InTree layer tree) := by
  rw [xmssLeaf, getLen_eq, two_pow_lgW]
  refine Returns.modify_bind (J := AtLeaf layer tree i)
    (.bind (.collect fun c _ ↦ returns_wotsChain R hv htree c _)
      ((returns_wotsPk R hv htree _).mono (fun _ hs ↦ hs) fun _ ↦ AtLeaf.inTree)) ?_
  rintro _ ⟨y, kp, h, ix, rfl⟩
  exact ⟨y, h, ix, by rw [toT_setKeyPairAddress]⟩

theorem returns_xmssJoin (z i : ℕ)
    (l r : Bytes) :
    Returns (InTree layer tree) (xmssJoin prm v z i l r)
      (treeJoin H v.pkSeed layer tree z i l r) (InTree layer tree) := by
  rintro a ⟨y, kp, h, ix, rfl⟩
  have hadrs : ((((Adrs.mk layer tree y kp h ix).toT.setTypeAndClear .tree).setTreeHeight
      z).setTreeIndex i) = (Adrs.mk layer tree .tree 0 z i).toT := by
    rw [toT_setTypeAndClear, toT_setTreeHeight, toT_setTreeIndex]
  refine ⟨?_, ⟨.tree, 0, z, i, hadrs⟩⟩
  have hrun : (xmssJoin prm v z i l r (Adrs.mk layer tree y kp h ix).toT).1 =
      prm.hH v (((Adrs.mk layer tree y kp h ix).toT.setTypeAndClear .tree).setTreeHeight
        z |>.setTreeIndex i) l r := rfl
  rw [hrun, hadrs, R.hH hv, u8_toT htree, treeJoin]

theorem returns_xmssNode
    (hz : z ≤ slhMaxHp) (i : ℕ) :
    Returns (InTree layer tree) (xmssNode prm v i z)
      (Fips205.xmssNode H v.pkSeed v.skSeed layer tree z i) (InTree layer tree) :=
  returns_treeHash (returns_xmssLeaf R hv htree) (returns_xmssJoin R hv htree) (fun _ hs ↦ hs) hz
    (hz.trans (by decide)) i

theorem returns_xmssSign (idx : ℕ) (hm : m.length = prm.n) :
    Returns (InTree layer tree) (xmssSign prm v m idx)
      ((List.range (len prm.toSizes + prm.hp)).map
        (Fips205.xmssSign H v.pkSeed v.skSeed layer tree idx m)).flatten (InTree layer tree) := by
  have hsplit : ((List.range (len prm.toSizes + prm.hp)).map
      (Fips205.xmssSign H v.pkSeed v.skSeed layer tree idx m)).flatten =
      ((List.range (len prm.toSizes)).map
        (Fips205.wotsSign H v.pkSeed v.skSeed layer tree idx m)).flatten ++
      ((List.range prm.hp).map fun j ↦
        Fips205.xmssNode H v.pkSeed v.skSeed layer tree j ((idx >>> j) ^^^ 1)).flatten := by
    rw [List.range_add, List.map_append, List.flatten_append, List.map_map]
    congr 2
    · refine List.map_congr_left fun i hi ↦ ?_
      rw [Fips205.xmssSign, if_pos (List.mem_range.mp hi)]
    · refine List.map_congr_left fun j _ ↦ ?_
      rw [Function.comp_apply, Fips205.xmssSign, if_neg (by omega), Nat.add_sub_cancel_left]
  rw [xmssSign, hsplit]
  refine .bind (.collect fun j hj ↦ returns_xmssNode R hv htree (hj.le.trans prm.hp_le) _)
    (.modify_bind (J := InTree layer tree) (.modify_bind (J := AtLeaf layer tree idx)
      ((returns_wotsSign R hv htree hm).bind (.pure fun _ ↦ AtLeaf.inTree)) ?_) ?_)
  · rintro _ ⟨y, kp, h, ix, rfl⟩
    exact ⟨y, h, ix, by rw [toT_setKeyPairAddress]⟩
  · rintro _ ⟨y, kp, h, ix, rfl⟩
    exact ⟨_, kp, 0, 0, by rw [toT_setTypeAndClearNotKp]⟩

theorem returns_xmssPkFromSig (idx : ℕ) {sig : Bytes}
    (hsig : len prm.toSizes * prm.n ≤ sig.length) (hm : m.length = prm.n) :
    Returns (InTree layer tree) (xmssPkFromSig prm v idx sig m)
      (Fips205.xmssPkFromSig H v.pkSeed layer tree idx (fun i ↦ part sig (i * prm.n) prm.n) m)
      (InTree layer tree) := by
  rw [xmssPkFromSig, getLen_eq]
  refine .modify_bind (J := fun a ↦ ∃ kp, AtType layer tree .wotsHash kp a)
    (.modify_bind (J := AtType layer tree .wotsHash idx) (.bind
      (returns_wotsPkFromSig R hv htree hsig hm) (.modify_bind
      (J := AtType layer tree .tree 0) (.mono (J := AtType layer tree .tree 0)
        (.loop (f := fun k ↦ Merkle.climb (treeJoin H v.pkSeed layer tree) idx
          (fun j ↦ part sig ((len prm.toSizes + j) * prm.n) prm.n) k _) fun k _ ↦ ?_)
        (fun _ hs ↦ hs) fun _ hs ↦ hs.atLeaf.inTree) ?_)) ?_) ?_
  · refine returns_atNode ?_
    rw [R.hH hv, R.hH hv, u8_toT htree, Nat.and_one_is_mod, ← Nat.add_mul, Merkle.climb,
      treeJoin, treeJoin]
  · rintro _ ⟨y, h, ix, rfl⟩
    exact ⟨0, 0, by rw [toT_setTypeAndClear]⟩
  · rintro _ ⟨kp, h, ix, rfl⟩
    exact ⟨h, ix, by rw [toT_setKeyPairAddress]⟩
  · rintro _ ⟨y, kp, h, ix, rfl⟩
    exact ⟨kp, 0, 0, by rw [toT_setTypeAndClearNotKp]⟩

end Trees

/-! ## Lengths -/

section Lengths

variable {H : HashFamily P.n} {pkSeed skSeed : Bytes}

theorem length_xmssNode (layer tree z i : ℕ) :
    (Fips205.xmssNode H pkSeed skSeed layer tree z i).length = P.n := by
  cases z with
  | zero => exact H.length_t _ _ _
  | succ z => exact H.length_h _ _ _

theorem length_xmssSign (layer tree idx : ℕ) (m : Bytes) (i : ℕ) :
    (Fips205.xmssSign H pkSeed skSeed layer tree idx m i).length = P.n := by
  rw [Fips205.xmssSign]
  split
  · exact length_chain H pkSeed _ (H.length_prf _ _ _) _ _
  · exact length_xmssNode _ _ _ _

theorem length_htMsg (hleaf : iLeaf < 2 ^ P.hp)
    (hm : m.length = P.n) (j : ℕ) :
    (htMsg H pkSeed skSeed iTree iLeaf m j).length = P.n := by
  cases j with
  | zero => exact hm
  | succ j => rw [htMsg_succ hleaf]; exact length_xmssNode _ _ _ _

theorem length_htSign (iTree iLeaf : ℕ) (m : Bytes) (i : ℕ) :
    (Fips205.htSign H pkSeed skSeed iTree iLeaf m i).length = P.n :=
  length_xmssSign _ _ _ _ _

theorem length_climb {join : ℕ → ℕ → Bytes → Bytes → Bytes} {n : ℕ}
    (hjoin : ∀ z i l r, (join z i l r).length = n) (idx : ℕ) (auth : ℕ → Bytes)
    (hz : 0 < z) (x : Bytes) : (Merkle.climb join idx auth z x).length = n := by
  obtain ⟨z, rfl⟩ : ∃ y, z = y + 1 := ⟨z - 1, by omega⟩
  rw [Merkle.climb]
  split <;> exact hjoin _ _ _ _

theorem length_htNode (iTree iLeaf : ℕ) (sig : ℕ → Bytes)
    (hm : m.length = P.n) (j : ℕ) :
    (htNode H pkSeed iTree iLeaf sig m j).length = P.n := by
  cases j with
  | zero => exact hm
  | succ j => exact length_climb (fun _ _ _ _ ↦ H.length_h _ _ _) _ _ P.hp_pos _

theorem length_forsNode (tree kp z i : ℕ) :
    (Fips205.forsNode H pkSeed skSeed tree kp z i).length = P.n := by
  cases z with
  | zero => exact H.length_f _ _ _
  | succ z => exact H.length_h _ _ _

theorem length_forsSign (tree kp : ℕ) (md : Bytes) (b : ℕ) :
    (Fips205.forsSign H pkSeed skSeed tree kp md b).length = P.n := by
  rw [Fips205.forsSign]
  split
  · exact H.length_prf _ _ _
  · exact length_forsNode _ _ _ _

theorem length_pkFors (pkSeed digest : Bytes) (sig : ℕ → Bytes) :
    (pkFors H pkSeed digest sig).length = P.n :=
  H.length_t _ _ _

end Lengths

/-! ## The hypertree -/

theorem treeAt_succ (P : Sizes) (iTree j : ℕ) :
    treeAt P iTree (j + 1) = treeAt P iTree j >>> P.hp := by
  rw [treeAt, treeAt, Nat.mul_succ, Nat.shiftRight_add]

theorem treeAt_lt (h : iTree < 2 ^ 64) (j : ℕ) :
    treeAt P iTree j < 2 ^ 64 :=
  (Nat.shiftRight_le _ _).trans_lt h

theorem InTree.setLayerAddress (h : InTree layer tree a) (x : ℕ) :
    InTree x tree (a.setLayerAddress x) := by
  obtain ⟨y, kp, ht, ix, rfl⟩ := h
  exact ⟨y, kp, ht, ix, toT_setLayerAddress _ _⟩

theorem InTree.setTreeAddress (h : InTree layer tree a) (x : ℕ) :
    InTree layer x (a.setTreeAddress x) := by
  obtain ⟨y, kp, ht, ix, rfl⟩ := h
  exact ⟨y, kp, ht, ix, toT_setTreeAddress _ _⟩

theorem inTree_zero (a : AdrsT) : InTree 0 0 a.zero := ⟨_, _, _, _, zero_eq a⟩

/-- The local variables of `ht_sign` when the layers up to `j` are signed. -/
def htState (prm : SlhParam Pre) (H : HashFamily prm.n) (v : Var Pre) (iTree iLeaf : ℕ)
    (m : Bytes) (j : ℕ) : HtState where
  sig := concat (Fips205.htSign H v.pkSeed v.skSeed iTree iLeaf m)
    ((j + 1) * (len prm.toSizes + prm.hp))
  sh := concat (Fips205.xmssSign H v.pkSeed v.skSeed j (treeAt prm.toSizes iTree j)
    (leafAt prm.toSizes iTree iLeaf j)
    (htMsg H v.pkSeed v.skSeed iTree iLeaf m j)) (len prm.toSizes + prm.hp)
  m := htMsg H v.pkSeed v.skSeed iTree iLeaf m j
  iTree := treeAt prm.toSizes iTree j
  iLeaf := leafAt prm.toSizes iTree iLeaf j

/-- A layer of a signature of the hypertree. -/
theorem concat_layer (H : HashFamily prm.n) (iTree iLeaf : ℕ) (m : Bytes) (j : ℕ) :
    concat (fun i ↦ Fips205.htSign H v.pkSeed v.skSeed iTree iLeaf m
      (j * (len prm.toSizes + prm.hp) + i)) (len prm.toSizes + prm.hp) =
      (htState prm H v iTree iLeaf m j).sh :=
  concat_congr fun _ hi ↦ layerSig_htSign j hi

/-- The variables before the loop. -/
theorem htState_zero (H : HashFamily prm.n) (iTree iLeaf : ℕ) (m : Bytes) :
    HtState.mk (htState prm H v iTree iLeaf m 0).sh (htState prm H v iTree iLeaf m 0).sh m iTree
      iLeaf = htState prm H v iTree iLeaf m 0 := by
  have hsig : (htState prm H v iTree iLeaf m 0).sig = (htState prm H v iTree iLeaf m 0).sh := by
    rw [← concat_layer]
    simp [htState]
  have heta : HtState.mk (htState prm H v iTree iLeaf m 0).sig
      (htState prm H v iTree iLeaf m 0).sh m iTree iLeaf = htState prm H v iTree iLeaf m 0 := rfl
  rwa [hsig] at heta

/-- The variables after one more layer. -/
theorem htState_succ (H : HashFamily prm.n) (iTree iLeaf : ℕ) (m : Bytes) (j : ℕ) :
    HtState.mk ((htState prm H v iTree iLeaf m j).sig ++ (htState prm H v iTree iLeaf m (j + 1)).sh)
      (htState prm H v iTree iLeaf m (j + 1)).sh (htState prm H v iTree iLeaf m (j + 1)).m
      (htState prm H v iTree iLeaf m (j + 1)).iTree (htState prm H v iTree iLeaf m (j + 1)).iLeaf =
        htState prm H v iTree iLeaf m (j + 1) := by
  have hsig : (htState prm H v iTree iLeaf m (j + 1)).sig =
      (htState prm H v iTree iLeaf m j).sig ++ (htState prm H v iTree iLeaf m (j + 1)).sh := by
    rw [← concat_layer, htState, htState, ← concat_add, ← Nat.succ_mul]
  rw [← hsig]

/-- The message of the next layer: the signature of this one leads to it. -/
theorem htState_m_succ (H : HashFamily prm.n) (hleaf : iLeaf < 2 ^ prm.hp)
    (m : Bytes) (j : ℕ) :
    Fips205.xmssPkFromSig H v.pkSeed j (htState prm H v iTree iLeaf m j).iTree
      (htState prm H v iTree iLeaf m j).iLeaf
      (fun i ↦ part (htState prm H v iTree iLeaf m j).sh (i * prm.n) prm.n)
      (htState prm H v iTree iLeaf m j).m = (htState prm H v iTree iLeaf m (j + 1)).m := by
  have hroot : htMsg H v.pkSeed v.skSeed iTree iLeaf m (j + 1) = _ :=
    htMsg_succ hleaf m j
  refine (xmssPkFromSig_xmssSign (leafAt_lt hleaf j) fun i hi ↦ ?_).trans
    hroot.symm
  exact part_concat (fun _ ↦ length_xmssSign _ _ _ _ _) hi

theorem returns_htSign (R : Realizes prm H Good) (hv : Good v)
    (htree : iTree < 2 ^ 64) (hleaf : iLeaf < 2 ^ prm.hp)
    (hm : m.length = prm.n) :
    Returns (fun _ ↦ True) (htSign prm v m iTree iLeaf)
      (concat (Fips205.htSign H v.pkSeed v.skSeed iTree iLeaf m)
        (prm.d * (len prm.toSizes + prm.hp))) (fun _ ↦ True) := by
  have hlast : (htState prm H v iTree iLeaf m (prm.d - 1)).sig =
      concat (Fips205.htSign H v.pkSeed v.skSeed iTree iLeaf m)
        (prm.d * (len prm.toSizes + prm.hp)) := by
    rw [htState, Nat.sub_add_cancel prm.d_pos]
  rw [htSign, ← hlast]
  refine .modify_bind (J := InTree 0 0) (.modify_bind (J := InTree 0 iTree)
    (.bind (returns_xmssSign R hv htree iLeaf hm) (.bind (J := fun _ ↦ True) ?_
      (.pure fun _ hs ↦ hs))) ?_) ?_
  · -- one round takes the variables of layer `j` to those of layer `j + 1`
    refine .mono (J := InTree (prm.d - 1) (treeAt prm.toSizes iTree (prm.d - 1))) ?_
      (fun _ hs ↦ hs) fun _ _ ↦ trivial
    change Returns _ (loop _ _ (HtState.mk (htState prm H v iTree iLeaf m 0).sh
      (htState prm H v iTree iLeaf m 0).sh m iTree iLeaf)) _ _
    rw [htState_zero]
    refine Returns.loop_steps (I := fun j ↦ InTree j (treeAt prm.toSizes iTree j))
      (f := htState prm H v iTree iLeaf m) fun j _ ↦ ?_
    have hsh : len prm.toSizes * prm.n ≤ (htState prm H v iTree iLeaf m j).sh.length := by
      rw [htState, length_concat fun _ ↦ length_xmssSign _ _ _ _ _]
      exact Nat.mul_le_mul_right _ (Nat.le_add_right _ _)
    have hmask : (htState prm H v iTree iLeaf m j).iTree &&& ((1 <<< prm.hp) - 1) =
        (htState prm H v iTree iLeaf m (j + 1)).iLeaf := by
      rw [and_mask]
      rfl
    have hshift : (htState prm H v iTree iLeaf m j).iTree >>> prm.hp =
        (htState prm H v iTree iLeaf m (j + 1)).iTree := (treeAt_succ _ _ _).symm
    have hpk : Returns (InTree j (htState prm H v iTree iLeaf m j).iTree)
        (xmssPkFromSig prm v (htState prm H v iTree iLeaf m j).iLeaf
          (htState prm H v iTree iLeaf m j).sh (htState prm H v iTree iLeaf m j).m)
        (htState prm H v iTree iLeaf m (j + 1)).m
        (InTree j (htState prm H v iTree iLeaf m j).iTree) := by
      rw [← htState_m_succ H hleaf m j]
      exact returns_xmssPkFromSig R hv (treeAt_lt htree j) _ hsh (length_htMsg hleaf hm j)
    rw [← htState_succ]
    refine .bind hpk ?_
    rw [hmask, hshift]
    exact .modify_bind (.modify_bind (.bind
      (returns_xmssSign R hv (treeAt_lt htree (j + 1)) _ (length_htMsg hleaf hm (j + 1)))
      (.pure fun _ hs ↦ hs)) fun _ hs ↦ hs.setTreeAddress _) fun _ hs ↦ hs.setLayerAddress _
  · exact fun _ hs ↦ hs.setTreeAddress _
  · exact fun a _ ↦ inTree_zero a

theorem foldl_or_eq_zero {g : ℕ → UInt8} (l : List ℕ) (d : UInt8) :
    l.foldl (fun diff i ↦ diff ||| g i) d = 0 ↔ d = 0 ∧ ∀ i ∈ l, g i = 0 := by
  induction l generalizing d with
  | nil => simp
  | cons i l ih => rw [List.foldl_cons, ih, UInt8.or_eq_zero_iff, List.forall_mem_cons, and_assoc]

/-- The comparison in constant time is equality. -/
theorem slhCtCompare_eq {a b : Bytes} {len : ℕ} (ha : a.length = len) (hb : b.length = len) :
    slhCtCompare a b len = (a == b) := by
  have hiff : (List.range len).foldl (fun diff i ↦ diff ||| (a.getD i 0 ^^^ b.getD i 0)) 0 = 0 ↔
      a = b := by
    rw [foldl_or_eq_zero]
    refine ⟨fun h ↦ List.ext_getElem (by omega) fun i hi hi' ↦ ?_, fun h ↦ ⟨rfl, fun i _ ↦ ?_⟩⟩
    · have hxor := h.2 i (List.mem_range.mpr (by omega))
      rw [UInt8.xor_eq_zero_iff, List.getD_eq_getElem _ _ hi, List.getD_eq_getElem _ _ hi'] at hxor
      exact hxor
    · rw [h, UInt8.xor_self]
  rw [slhCtCompare, Bool.eq_iff_iff, beq_iff_eq, beq_iff_eq, hiff]

theorem part_drop (l : Bytes) (a b c : ℕ) : part (l.drop a) b c = part l (a + b) c := by
  rw [part, part, List.drop_drop]

theorem layerSig_part (P : Sizes) (sigHt : Bytes) (j : ℕ) :
    (fun i ↦ part (sigHt.drop (j * ((P.hp + len P) * P.n))) (i * P.n) P.n) =
      layerSig P (fun i ↦ part sigHt (i * P.n) P.n) j := by
  funext i
  rw [part_drop, layerSig]
  congr 1
  ring

section Verify

variable {sigHt : Bytes}

theorem returns_htLayer (R : Realizes prm H Good) (hv : Good v) (htree : iTree < 2 ^ 64)
    (iLeaf : ℕ) (hm : m.length = prm.n)
    (hsig : sigHt.length = prm.d * (len prm.toSizes + prm.hp) * prm.n) {j : ℕ}
    (hj : j < prm.d) :
    Returns (InTree j (treeAt prm.toSizes iTree j))
      (xmssPkFromSig prm v (leafAt prm.toSizes iTree iLeaf j)
        (sigHt.drop (j * ((prm.hp + len prm.toSizes) * prm.n)))
        (htNode H v.pkSeed iTree iLeaf (fun i ↦ part sigHt (i * prm.n) prm.n) m j))
      (htNode H v.pkSeed iTree iLeaf (fun i ↦ part sigHt (i * prm.n) prm.n) m (j + 1))
      (InTree j (treeAt prm.toSizes iTree j)) := by
  have hlen : len prm.toSizes * prm.n ≤
      (sigHt.drop (j * ((prm.hp + len prm.toSizes) * prm.n))).length := by
    have hle := Nat.mul_le_mul_right ((len prm.toSizes + prm.hp) * prm.n) hj
    rw [Nat.succ_mul, Nat.add_mul] at hle
    rw [List.length_drop, hsig, Nat.mul_assoc, Nat.add_comm prm.hp, Nat.add_mul]
    omega
  rw [htNode, ← layerSig_part]
  exact returns_xmssPkFromSig R hv (treeAt_lt htree j) _ hlen (length_htNode _ _ _ hm j)

theorem returns_htVerify (R : Realizes prm H Good) (hv : Good v) (htree : iTree < 2 ^ 64)
    (iLeaf : ℕ) (hm : m.length = prm.n) (hroot : v.pkRoot.length = prm.n)
    (hsig : sigHt.length = prm.d * (len prm.toSizes + prm.hp) * prm.n) :
    Returns (fun _ ↦ True) (htVerify prm v m sigHt iTree iLeaf)
      (htNode H v.pkSeed iTree iLeaf (fun i ↦ part sigHt (i * prm.n) prm.n) m prm.d ==
        v.pkRoot) (fun _ ↦ True) := by
  have hd := prm.d_pos
  have hfirst := returns_htLayer R hv htree iLeaf hm hsig hd
  rw [Nat.zero_mul, List.drop_zero] at hfirst
  rw [htVerify, getLen_eq]
  refine .modify_bind (.modify_bind (.bind hfirst (.bind (.loop_steps
    (I := fun j ↦ InTree j (treeAt prm.toSizes iTree j))
    (f := fun j ↦ (htNode H v.pkSeed iTree iLeaf (fun i ↦ part sigHt (i * prm.n) prm.n) m
      (j + 1), treeAt prm.toSizes iTree j)) fun j hj ↦ ?_) ?_))
    fun _ hs ↦ hs.setTreeAddress _) fun a _ ↦ inTree_zero a
  · have hlayer := returns_htLayer R hv htree iLeaf hm hsig (j := j + 1) (by omega)
    have hmask : treeAt prm.toSizes iTree j &&& ((1 <<< prm.hp) - 1) =
        leafAt prm.toSizes iTree iLeaf (j + 1) := by
      rw [and_mask]
      rfl
    dsimp only
    rw [hmask, ← treeAt_succ]
    exact .modify_bind (.modify_bind (.bind hlayer (.pure fun _ hs ↦ hs))
      fun _ hs ↦ hs.setTreeAddress _) fun _ hs ↦ hs.setLayerAddress _
  · dsimp only
    rw [Nat.sub_add_cancel hd, ← slhCtCompare_eq (length_htNode _ _ _ hm _) hroot]
    exact .pure fun _ _ ↦ trivial

end Verify

/-! ## FORS -/

section Digits

variable {digest : Bytes}

/-- The digits of the digest are those of its part for FORS. -/
theorem getD_forsDigits (hdigest : digest.length = P.m) {i : ℕ} (hi : i < P.k) :
    (base2b digest P.a P.k).getD i 0 = Fips205.base2b (md P digest) P.a i := by
  have ha := P.a_le
  have hm := P.m_eq
  have hle : P.a * (i + 1) ≤ P.a * P.k := Nat.mul_le_mul_left _ hi
  have hcomm : P.k * P.a = P.a * P.k := Nat.mul_comm _ _
  have htake : (md P digest).take ((P.a * (i + 1) + 7) / 8) =
      digest.take ((P.a * (i + 1) + 7) / 8) := by
    rw [md, part, List.drop_zero, List.take_take, Nat.min_eq_left]
    rw [mdLen]
    omega
  rw [base2b_eq (by omega) (by omega), List.getD_eq_getElem _ _ (by simpa using hi),
    List.getElem_map, List.getElem_range, Fips205.base2b, Fips205.base2b, htake]

end Digits

/-- The parity of a digit is that of the index it belongs to. -/
theorem forsIdx_mod_two (md : Bytes) (i : ℕ) {j : ℕ} (hj : j < P.a) :
    (forsIdx P md i >>> j) % 2 = (Fips205.base2b md P.a i >>> j) % 2 := by
  have hpow : 2 ^ (P.a - j) = 2 * 2 ^ (P.a - j - 1) := by
    rw [← pow_succ', Nat.sub_add_cancel (by omega)]
  rw [forsIdx_shiftRight md i hj.le, hpow, Nat.mul_left_comm, Nat.mul_add_mod]

section Fors

variable (R : Realizes prm H Good) (hv : Good v) (htree : tree < 2 ^ 64)

include R hv htree

theorem returns_forsLeaf (i : ℕ) :
    Returns (AtLeaf 0 tree kp) (forsLeaf prm v i)
      (forsLeafGen H v.pkSeed v.skSeed tree kp i) (AtType 0 tree .forsTree kp) := by
  rintro _ ⟨y, h, ix, rfl⟩
  have hhash := R.forsHash_one hv (A := Adrs.mk 0 tree y kp h i) htree
  refine Returns.modify_bind (I := (· = (Adrs.mk 0 tree y kp h ix).toT))
    (hhash.mono (fun _ hs ↦ hs) fun _ hs ↦ ⟨0, i, hs⟩) ?_ _ rfl
  rintro _ rfl
  rw [toT_setTreeIndex]

theorem returns_forsJoin (z i : ℕ)
    (l r : Bytes) :
    Returns (AtType 0 tree .forsTree kp) (forsJoin prm v z i l r)
      (Fips205.forsJoin H v.pkSeed tree kp z i l r) (AtType 0 tree .forsTree kp) := by
  refine returns_atNode ?_
  rw [R.hH hv, u8_toT htree, Fips205.forsJoin]

theorem returns_forsNode
    (hz : z ≤ slhMaxA) (i : ℕ) :
    Returns (AtLeaf 0 tree kp) (forsNode prm v i z)
      (Fips205.forsNode H v.pkSeed v.skSeed tree kp z i) (AtType 0 tree .forsTree kp) :=
  returns_treeHash (returns_forsLeaf R hv htree) (returns_forsJoin R hv htree)
    (fun _ ↦ AtType.atLeaf) hz (hz.trans (by decide)) i

variable {digest : Bytes}

theorem returns_forsSign (hdigest : digest.length = prm.m) :
    Returns (AtType 0 tree .forsTree kp) (forsSign prm v digest)
      (concat (Fips205.forsSign H v.pkSeed v.skSeed tree kp (md prm.toSizes digest))
        (prm.k * (prm.a + 1))) (AtType 0 tree .forsTree kp) := by
  rw [forsSign, ← concat_mul]
  refine .bind (.collect fun i hi ↦ ?_) (.pure fun _ hs ↦ hs)
  -- a tree: the secret value, then the siblings
  rw [getD_forsDigits hdigest hi, Nat.add_comm prm.a 1, concat_add, Nat.add_comm 1 prm.a]
  have hsecret : concat (fun r ↦ Fips205.forsSign H v.pkSeed v.skSeed tree kp
      (md prm.toSizes digest) (i * (prm.a + 1) + r)) 1 =
        forsSk H v.pkSeed v.skSeed tree kp
          (forsIdx prm.toSizes (md prm.toSizes digest) i) := by
    simp [concat, forsSign_secret]
  rw [hsecret, concat_congr fun j hj ↦ by rw [Nat.add_comm 1, forsSign_auth i hj]]
  -- the secret value leaves the type of its PRF; the last sibling restores the one of the tree
  have hauth : Returns (AtLeaf 0 tree kp)
      (collect (fun j ↦ forsNode prm v ((i <<< (prm.a - j)) +
        ((Fips205.base2b (md prm.toSizes digest) prm.a i >>> j) ^^^ 1)) j) prm.a)
      ((List.range prm.a).map fun j ↦ Fips205.forsNode H v.pkSeed v.skSeed tree kp j
        (i * 2 ^ (prm.a - j) +
          ((Fips205.base2b (md prm.toSizes digest) prm.a i >>> j) ^^^ 1)))
      (AtType 0 tree .forsTree kp) := by
    refine .collect_last prm.a_pos (fun _ hs ↦ hs.atLeaf) fun j hj ↦ ?_
    rw [Nat.shiftLeft_eq]
    exact returns_forsNode R hv htree (hj.le.trans prm.a_le) _
  rintro _ ⟨h, ix, rfl⟩
  have hhash := R.forsHash_zero hv (A := Adrs.mk 0 tree .forsTree kp h
    (forsIdx prm.toSizes (md prm.toSizes digest) i)) htree
  refine Returns.modify_bind (I := (· = (Adrs.mk 0 tree .forsTree kp h ix).toT))
    (.bind (J := AtLeaf 0 tree kp) (hhash.mono (fun _ hs ↦ hs) fun _ hs ↦ ⟨_, _, _, hs⟩)
      (.bind hauth ?_)) ?_ _ rfl
  · exact .pure fun _ hs ↦ hs
  · rintro _ rfl
    rw [toT_setTreeIndex, Nat.shiftLeft_eq, forsIdx]

theorem returns_forsPkFromSig (kp : ℕ) (hdigest : digest.length = prm.m) (sf : Bytes) :
    Returns (AtType 0 tree .forsTree kp) (forsPkFromSig prm v sf digest)
      (Fips205.forsPkFromSig H v.pkSeed tree kp (fun b ↦ part sf (b * prm.n) prm.n)
        (md prm.toSizes digest)) (fun _ ↦ True) := by
  rw [forsPkFromSig]
  refine .bind (J := AtType 0 tree .forsTree kp) (.collect (f := forsRoot H v.pkSeed tree kp
    (fun b ↦ part sf (b * prm.n) prm.n) (md prm.toSizes digest)) fun i hi ↦ ?_) ?_
  · have hleaf : part (sf.drop (i * (1 + prm.a) * prm.n)) 0 prm.n =
        part sf (i * (prm.a + 1) * prm.n) prm.n := by
      rw [part_drop, Nat.add_zero, Nat.add_comm 1]
    have hauth : ∀ j, part (sf.drop (i * (1 + prm.a) * prm.n)) ((j + 1) * prm.n) prm.n =
        part sf ((i * (prm.a + 1) + (j + 1)) * prm.n) prm.n := by
      intro j
      rw [part_drop, ← Nat.add_mul, Nat.add_comm 1]
    have hidx : (i <<< prm.a) + Fips205.base2b (md prm.toSizes digest) prm.a i =
        forsIdx prm.toSizes (md prm.toSizes digest) i := by
      rw [Nat.shiftLeft_eq, forsIdx]
    rw [getD_forsDigits hdigest hi]
    dsimp only
    rw [hidx, hleaf]
    refine .modify_bind (J := fun a ↦ ∃ ix, a = (Adrs.mk 0 tree .forsTree kp 0 ix).toT)
      (.modify_bind
      (J := (· = (Adrs.mk 0 tree .forsTree kp 0
        (forsIdx prm.toSizes (md prm.toSizes digest) i)).toT))
      (.gets_bind (.mono (I := AtType 0 tree .forsTree kp) (.loop (f := fun j ↦
        Merkle.climb (Fips205.forsJoin H v.pkSeed tree kp)
          (forsIdx prm.toSizes (md prm.toSizes digest) i)
          (fun j ↦ part sf ((i * (prm.a + 1) + (j + 1)) * prm.n) prm.n) j
          (Fips205.forsLeaf H v.pkSeed tree kp
            (forsIdx prm.toSizes (md prm.toSizes digest) i)
            (part sf (i * (prm.a + 1) * prm.n) prm.n))) fun j hj ↦ ?_)
        (fun _ hs ↦ ⟨_, _, hs⟩) fun _ hs ↦ hs) ?_) ?_) ?_
    · -- left or right goes by the digit; the index among the nodes of all trees has the same bit
      refine returns_atNode ?_
      rw [R.hH hv, R.hH hv, u8_toT htree, Nat.and_one_is_mod, ← forsIdx_mod_two _ i hj, hauth,
        Merkle.climb, Fips205.forsJoin, Fips205.forsJoin]
    · rintro _ rfl
      rw [R.hF hv, u8_toT htree, Merkle.climb, Fips205.forsLeaf]
    · rintro _ ⟨ix, rfl⟩
      rw [toT_setTreeIndex]
    · rintro _ ⟨h, ix, rfl⟩
      exact ⟨ix, toT_setTreeHeight _ _⟩
  · refine .modify_bind (J := (· = (Adrs.mk 0 tree .forsRoots kp 0 0).toT))
      (.mono (.gets (I := (· = (Adrs.mk 0 tree .forsRoots kp 0 0).toT)) ?_) (fun _ hs ↦ hs)
        fun _ _ ↦ trivial) ?_
    · rintro _ rfl
      rw [R.hT hv, u8_toT htree, Fips205.forsPkFromSig, List.flatMap_def]
    · rintro _ ⟨h, ix, rfl⟩
      rw [toT_setTypeAndClearNotKp]

end Fors

end Native

end SlhDsa
