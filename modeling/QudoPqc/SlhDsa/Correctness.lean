import QudoPqc.SlhDsa.Shake
import QudoPqc.Wrapper.Service

/-!
# Keys, signatures and verification

Algorithms 18 to 20 of FIPS 205 on byte strings, and the functions of the engine that applications
call. For a parameter set that realizes the hash functions, the engine computes these algorithms,
whatever its local variables hold at the start (`slhKeygenInternal_eq`, `signWith_eq` and
`verifyWith_eq`).
-/

namespace SlhDsa

open Codec Fips205

namespace Native

open Stateful

variable {Pre : Type} {prm : SlhParam Pre} {H : HashFamily prm.n} {Good : Var Pre → Prop}
  {v : Var Pre}

/-! ## The digest -/

theorem slhToint_eq (x : Bytes) : slhToint x = toInt x % 2 ^ 64 := by
  induction x using List.reverseRecOn with
  | nil => rfl
  | append_singleton x b ih =>
    have hb := b.toNat_lt
    rw [toInt_append_singleton]
    cases x with
    | nil =>
      have hnil : toInt [] = 0 := rfl
      have hone : slhToint ([] ++ [b]) = b.toNat := rfl
      rw [hnil, hone]
      omega
    | cons y x =>
      have hstep : slhToint (y :: x ++ [b]) =
          ((slhToint (y :: x) <<< 8) % 2 ^ 64 + b.toNat) % 2 ^ 64 := by
        rw [List.cons_append, slhToint, List.foldl_append, slhToint]
        rfl
      rw [hstep, ih, Nat.shiftLeft_eq]
      omega

theorem splitDigest_eq (P : Sizes) (digest : Bytes) :
    splitDigest P digest = (idxTree P digest, idxLeaf P digest) := by
  have htree := P.tree_le
  have hhp := P.hp_le
  rw [splitDigest, idxTree, idxLeaf, mdLen, slhToint_eq, slhToint_eq, and_mask, and_mask]
  refine Prod.ext ?_ ?_
  · by_cases h64 : P.h - P.hp = 64
    · simp only [h64, ne_eq, not_true_eq_false, if_false]
    · simp only [ne_eq, h64, not_false_eq_true, if_true]
      exact Nat.mod_mod_of_dvd _ (pow_dvd_pow 2 htree)
  · dsimp only
    rw [Nat.mod_mod_of_dvd _ (pow_dvd_pow 2 (by omega)),
      Nat.mod_mod_of_dvd _ (pow_dvd_pow 2 (by omega))]

theorem idxTree_lt_word (P : Sizes) (digest : Bytes) : idxTree P digest < 2 ^ 64 :=
  (idxTree_lt P digest).trans_le (Nat.pow_le_pow_right (by omega) P.tree_le)

theorem returns_setForsAddress (iTree iLeaf : ℕ) :
    Returns (fun _ ↦ True) (setForsAddress iTree iLeaf) () (AtType 0 iTree .forsTree iLeaf) := by
  intro a _
  refine ⟨rfl, 0, 0, ?_⟩
  have hrun : (setForsAddress iTree iLeaf a).2 =
      ((a.zero.setTreeAddress iTree).setTypeAndClearNotKp .forsTree).setKeyPairAddress iLeaf := rfl
  rw [hrun, zero_eq, toT_setTreeAddress, toT_setTypeAndClearNotKp, toT_setKeyPairAddress]

section Digest

variable {digest : Bytes}

theorem concat_signDigest (H : HashFamily prm.n) (pkSeed skSeed digest : Bytes) :
    concat (signDigest H pkSeed skSeed digest) (sigBlocks prm.toSizes) =
      concat (sigFors H pkSeed skSeed digest) (prm.k * (prm.a + 1)) ++
        concat (Fips205.htSign H pkSeed skSeed (idxTree prm.toSizes digest)
          (idxLeaf prm.toSizes digest)
          (pkFors H pkSeed digest (sigFors H pkSeed skSeed digest)))
          (prm.d * (len prm.toSizes + prm.hp)) := by
  rw [sigBlocks, concat_add]
  congr 1
  · refine concat_congr fun b hb ↦ ?_
    rw [signDigest, if_pos hb]
  · refine concat_congr fun b _ ↦ ?_
    rw [signDigest, if_neg (by omega), Nat.add_sub_cancel_left]

theorem returns_slhSignDigest (R : Realizes prm H Good) (hv : Good v)
    (hdigest : digest.length = prm.m) :
    Returns (fun _ ↦ True) (slhSignDigest prm v digest)
      (concat (signDigest H v.pkSeed v.skSeed digest) (sigBlocks prm.toSizes))
      (fun _ ↦ True) := by
  have htree := idxTree_lt_word prm.toSizes digest
  have hpk : Fips205.forsPkFromSig H v.pkSeed (idxTree prm.toSizes digest)
      (idxLeaf prm.toSizes digest) (fun b ↦ part
        (concat (sigFors H v.pkSeed v.skSeed digest) (prm.k * (prm.a + 1))) (b * prm.n)
          prm.n) (md prm.toSizes digest) =
      pkFors H v.pkSeed digest (sigFors H v.pkSeed v.skSeed digest) :=
    forsPkFromSig_forsSign fun b hb ↦ part_concat (fun _ ↦ length_forsSign _ _ _ _) hb
  have hfors := returns_forsPkFromSig R hv htree (idxLeaf prm.toSizes digest) hdigest
    (concat (sigFors H v.pkSeed v.skSeed digest) (prm.k * (prm.a + 1)))
  rw [hpk] at hfors
  rw [slhSignDigest, splitDigest_eq, concat_signDigest]
  exact .bind (returns_setForsAddress _ _) (.bind (returns_forsSign R hv htree hdigest)
    (.bind hfors (.bind (returns_htSign R hv htree (idxLeaf_lt _ _) (H.length_t _ _ _))
      (.pure fun _ hs ↦ hs))))

theorem slhSigSz_eq (P : Sizes) : slhSigSz P = (1 + sigBlocks P) * P.n := by
  rw [slhSigSz, sigBlocks, getLen_eq, P.h_eq]
  ring

theorem returns_slhVerifyDigest (R : Realizes prm H Good) (hv : Good v)
    (hroot : v.pkRoot.length = prm.n) (hdigest : digest.length = prm.m) {sig : Bytes}
    (hsig : sig.length = slhSigSz prm.toSizes) :
    Returns (fun _ ↦ True) (slhVerifyDigest prm v digest sig)
      (verifyDigest H v.pkSeed v.pkRoot digest fun b ↦ part sig ((1 + b) * prm.n) prm.n)
      (fun _ ↦ True) := by
  have htree := idxTree_lt_word prm.toSizes digest
  have hsz := hsig.trans (slhSigSz_eq prm.toSizes)
  have hfors : (fun b ↦ part (sig.drop prm.n) (b * prm.n) prm.n) =
      fun b ↦ part sig ((1 + b) * prm.n) prm.n := by
    funext b
    rw [part_drop, Nat.add_mul, Nat.one_mul]
  have hht : (fun i ↦ part (sig.drop ((1 + prm.k * (1 + prm.a)) * prm.n)) (i * prm.n) prm.n) =
      fun i ↦ part sig ((1 + (prm.k * (prm.a + 1) + i)) * prm.n) prm.n := by
    funext i
    rw [part_drop]
    congr 1
    ring
  have hlen : (sig.drop ((1 + prm.k * (1 + prm.a)) * prm.n)).length =
      prm.d * (len prm.toSizes + prm.hp) * prm.n := by
    rw [List.length_drop, hsz, sigBlocks, ← Nat.sub_mul]
    congr 1
    rw [Nat.add_comm prm.a 1]
    omega
  have hpk := returns_forsPkFromSig R hv htree (idxLeaf prm.toSizes digest) hdigest
    (sig.drop prm.n)
  have hverify := returns_htVerify R hv htree (idxLeaf prm.toSizes digest)
    (length_pkFors (H := H) v.pkSeed digest fun b ↦ part sig ((1 + b) * prm.n) prm.n) hroot hlen
  rw [hfors] at hpk
  rw [hht] at hverify
  rw [slhVerifyDigest, splitDigest_eq]
  dsimp only
  rw [if_neg (not_not.mpr hsig)]
  exact .bind (returns_setForsAddress _ _) (.bind hpk hverify)

end Digest

end Native

/-! ## Keys and signatures as byte strings -/

namespace Fips205

section Bytes

variable {P : Sizes} (H : HashFamily P.n)

/-- Algorithm 18: the private and the public key. -/
def slhKeygen (skSeed skPrf pkSeed : Bytes) : Bytes × Bytes :=
  (skSeed ++ skPrf ++ pkSeed ++ slhRoot H pkSeed skSeed, pkSeed ++ slhRoot H pkSeed skSeed)

/-- Algorithm 19. -/
def slhSign (m sk : Bytes) (addrnd : Option Bytes) : Bytes :=
  let pkSeed := part sk (2 * P.n) P.n
  let r := H.prfMsg (part sk P.n P.n) (addrnd.getD pkSeed) m
  let digest := H.hMsg r pkSeed (part sk (3 * P.n) P.n) m
  r ++ concat (signDigest H pkSeed (part sk 0 P.n) digest) (sigBlocks P)

/-- Algorithm 20. -/
def slhVerify (m sig pk : Bytes) : Bool :=
  if sig.length ≠ (1 + sigBlocks P) * P.n then false
  else
    verifyDigest H (part pk 0 P.n) (part pk P.n P.n)
      (H.hMsg (part sig 0 P.n) (part pk 0 P.n) (part pk P.n P.n) m)
      fun b ↦ part sig ((1 + b) * P.n) P.n

variable {H}

theorem length_signDigest (pkSeed skSeed digest : Bytes) (b : ℕ) :
    (signDigest H pkSeed skSeed digest b).length = P.n := by
  rw [signDigest]
  split
  · exact Native.length_forsSign _ _ _ _
  · exact Native.length_htSign _ _ _ _

theorem length_slhRoot (pkSeed skSeed : Bytes) : (slhRoot H pkSeed skSeed).length = P.n :=
  Native.length_xmssNode _ _ _ _

theorem length_slhSign (m sk : Bytes) (addrnd : Option Bytes) :
    (slhSign H m sk addrnd).length = (1 + sigBlocks P) * P.n := by
  rw [slhSign, List.length_append, H.length_prfMsg, length_concat fun _ ↦ length_signDigest _ _ _ _,
    Nat.add_mul, Nat.one_mul]

theorem part_left {x y : Bytes} {n : ℕ} (hx : x.length = n) : part (x ++ y) 0 n = x := by
  rw [part, List.drop_zero, List.take_left' hx]

theorem part_right {x y : Bytes} {n k : ℕ} (hx : x.length = n) (off : ℕ) :
    part (x ++ y) (n + off) k = part y off k := by
  rw [part, part, ← List.drop_drop, List.drop_left' hx]

/-- What a signer finds in the private key, and a verifier in the public key. -/
theorem parts_slhKeygen {skSeed skPrf pkSeed : Bytes} (hs : skSeed.length = P.n)
    (hf : skPrf.length = P.n) (hp : pkSeed.length = P.n) :
    part (slhKeygen H skSeed skPrf pkSeed).1 0 P.n = skSeed ∧
      part (slhKeygen H skSeed skPrf pkSeed).1 (2 * P.n) P.n = pkSeed ∧
      part (slhKeygen H skSeed skPrf pkSeed).1 (3 * P.n) P.n = slhRoot H pkSeed skSeed ∧
      part (slhKeygen H skSeed skPrf pkSeed).2 0 P.n = pkSeed ∧
      part (slhKeygen H skSeed skPrf pkSeed).2 P.n P.n = slhRoot H pkSeed skSeed := by
  have hroot := length_slhRoot (H := H) pkSeed skSeed
  have hwhole : part (slhRoot H pkSeed skSeed) 0 P.n = slhRoot H pkSeed skSeed := by
    rw [part, List.drop_zero, List.take_of_length_le hroot.le]
  have h2 : 2 * P.n = P.n + (P.n + 0) := by omega
  have h3 : 3 * P.n = P.n + (P.n + (P.n + 0)) := by omega
  simp only [slhKeygen, List.append_assoc]
  refine ⟨part_left hs, ?_, ?_, part_left hp, ?_⟩
  · rw [h2, part_right hs, part_right hf, part_left hp]
  · rw [h3, part_right hs, part_right hf, part_right hp, hwhole]
  · rw [← Nat.add_zero P.n, part_right hp, Nat.add_zero, hwhole]

/-- What is signed is accepted. -/
theorem slhVerify_slhSign {skSeed skPrf pkSeed : Bytes} (hs : skSeed.length = P.n)
    (hf : skPrf.length = P.n) (hp : pkSeed.length = P.n) (m : Bytes)
    (addrnd : Option Bytes) :
    slhVerify H m (slhSign H m (slhKeygen H skSeed skPrf pkSeed).1 addrnd)
      (slhKeygen H skSeed skPrf pkSeed).2 = true := by
  obtain ⟨hseed, hpk, hrt, hpk', hrt'⟩ := parts_slhKeygen (H := H) hs hf hp
  rw [slhVerify, if_neg (not_not.mpr (length_slhSign _ _ _)), hpk', hrt', slhSign, hseed, hpk, hrt]
  rw [part_left (H.length_prfMsg _ _ _)]
  refine verifyDigest_signDigest fun b hb ↦ ?_
  rw [Nat.add_mul, Nat.one_mul, part_right (H.length_prfMsg _ _ _)]
  exact part_concat (fun _ ↦ length_signDigest _ _ _ _) hb

end Bytes

end Fips205

/-! ## The interface of the engine -/

namespace Native

open Stateful

section Interface

variable {Pre : Type} {prm : SlhParam Pre} {H : HashFamily prm.n} {Good : Var Pre → Prop}

theorem slhKeygenInternal_eq (R : Realizes prm H Good) (stack : Local Pre)
    {skSeed skPrf pkSeed : Bytes} (hs : skSeed.length = prm.n) (hf : skPrf.length = prm.n)
    (hp : pkSeed.length = prm.n) :
    slhKeygenInternal prm stack skSeed skPrf pkSeed = Fips205.slhKeygen H skSeed skPrf pkSeed := by
  have hlen : (skSeed ++ skPrf ++ pkSeed ++ List.replicate prm.n 0).length = 4 * prm.n := by
    simp only [List.length_append, List.length_replicate, hs, hf, hp]
    omega
  obtain ⟨hgood, hsk, -, hpk, -⟩ := R.mkVar_sk stack.var _ hlen
  have hseed : part (skSeed ++ skPrf ++ pkSeed ++ List.replicate prm.n 0) 0 prm.n = skSeed := by
    rw [List.append_assoc, List.append_assoc, part_left hs]
  have hpkSeed : part (skSeed ++ skPrf ++ pkSeed ++ List.replicate prm.n 0) (2 * prm.n) prm.n =
      pkSeed := by
    have h2 : 2 * prm.n = prm.n + (prm.n + 0) := by omega
    rw [List.append_assoc, List.append_assoc, h2, part_right hs, part_right hf, part_left hp]
  rw [hseed] at hsk
  rw [hpkSeed] at hpk
  have hroot := (returns_xmssNode R hgood (Nat.two_pow_pos 64) prm.hp_le 0
    (stack.adrs.zero.setLayerAddress (prm.d - 1))
    ((inTree_zero stack.adrs).setLayerAddress (prm.d - 1))).1
  rw [hsk, hpk] at hroot
  rw [slhKeygenInternal, hroot, Fips205.slhKeygen, slhRoot]

theorem signWith_eq (R : Realizes prm H Good) (stack : Local Pre) (m : Bytes)
    (ctx : Option Bytes) {sk : Bytes} (hsk : sk.length = 4 * prm.n)
    {addrnd : Option Bytes} (hrnd : ∀ r ∈ addrnd, r.length = prm.n) :
    signWith prm stack m ctx sk addrnd = Fips205.slhSign H (encodeMsg m ctx) sk addrnd := by
  obtain ⟨hgood, hseed, hprf, hpk, hroot⟩ := R.mkVar_sk stack.var sk hsk
  have hopt : (optRand (prm.mkVar stack.var none (some sk)) addrnd).length = prm.n := by
    rw [optRand, hpk]
    cases addrnd with
    | none => exact length_part (by omega)
    | some r => exact hrnd r rfl
  have hr := R.prfMsg hgood hopt m ctx
  have hd := R.hMsg hgood (H.length_prfMsg (prm.mkVar stack.var none (some sk)).skPrf
    (optRand (prm.mkVar stack.var none (some sk)) addrnd) (encodeMsg m ctx)) m ctx
  have hsign := fun (digest : Bytes) (hdigest : digest.length = prm.m) ↦
    (returns_slhSignDigest R hgood hdigest stack.adrs trivial).1
  rw [signWith, hr, hd, hsign _ (R.length_hMsg _ _ _ _), optRand, hseed, hprf, hpk, hroot,
    Fips205.slhSign]

theorem verifyWith_eq (R : Realizes prm H Good) (stack : Local Pre) (m sig : Bytes)
    (ctx : Option Bytes) {pk : Bytes} (hpk : pk.length = 2 * prm.n) :
    verifyWith prm stack m sig ctx pk = Fips205.slhVerify H (encodeMsg m ctx) sig pk := by
  obtain ⟨hgood, hseed, hroot⟩ := R.mkVar_pk stack.var pk hpk
  rw [verifyWith, Fips205.slhVerify]
  by_cases hsig : sig.length = (1 + sigBlocks prm.toSizes) * prm.n
  · have hsz := hsig.trans (slhSigSz_eq prm.toSizes).symm
    have hr : (part sig 0 prm.n).length = prm.n := by
      refine length_part ?_
      rw [hsig, Nat.add_mul]
      omega
    have hrootLen : (prm.mkVar stack.var (some pk) none).pkRoot.length = prm.n := by
      rw [hroot]
      exact length_part (by omega)
    have hverify := (returns_slhVerifyDigest R hgood hrootLen (R.length_hMsg (part sig 0 prm.n)
      (part pk 0 prm.n) (part pk prm.n prm.n) (encodeMsg m ctx)) hsz stack.adrs trivial).1
    rw [if_neg (not_not.mpr hsig), R.hMsg hgood hr, hseed, hroot, hverify, hseed, hroot]
  · -- the length is looked at before anything is computed from the signature
    have hsz : sig.length ≠ slhSigSz prm.toSizes := by rwa [slhSigSz_eq]
    rw [if_pos hsig, slhVerifyDigest]
    dsimp only
    rw [if_pos hsz]
    rfl

end Interface

/-! ## Keys, signatures and verification of the engine -/

section Interface

variable {Pre : Type} {prm : SlhParam Pre} {H : HashFamily prm.n} {Good : Var Pre → Prop}

/-- The engine computes Algorithms 18 to 20, whatever is in its local variables. A signature may be
any string of bytes. -/
theorem engine_eq_fips205 (R : Realizes prm H Good) (stack : Local Pre)
    {skSeed skPrf pkSeed sk pk : Bytes} {addrnd : Option Bytes}
    (hs : skSeed.length = prm.n) (hf : skPrf.length = prm.n) (hp : pkSeed.length = prm.n)
    (hsk : sk.length = 4 * prm.n) (hpk : pk.length = 2 * prm.n)
    (hrnd : ∀ r ∈ addrnd, r.length = prm.n) (m sig ctx : Bytes) :
    slhKeygenInternal prm stack skSeed skPrf pkSeed = Fips205.slhKeygen H skSeed skPrf pkSeed ∧
      slhSignInternal prm stack m sk addrnd = Fips205.slhSign H m sk addrnd ∧
      slhVerifyInternal prm stack m sig pk = Fips205.slhVerify H m sig pk ∧
      slhSign prm stack m ctx sk addrnd =
        (if 255 < ctx.length then []
        else Fips205.slhSign H (0 :: UInt8.ofNat ctx.length :: ctx ++ m) sk addrnd) ∧
      slhVerify prm stack m sig ctx pk =
        if 255 < ctx.length then false
        else Fips205.slhVerify H (0 :: UInt8.ofNat ctx.length :: ctx ++ m) sig pk := by
  refine ⟨slhKeygenInternal_eq R stack hs hf hp, signWith_eq R stack m none hsk hrnd,
    verifyWith_eq R stack m sig none hpk, ?_, ?_⟩
  · rw [slhSign, signWith_eq R stack m (some ctx) hsk hrnd, encodeMsg]
  · rw [slhVerify, verifyWith_eq R stack m sig (some ctx) hpk, encodeMsg]

/-- A signature under a generated key has the length of the parameter set and is accepted, although
the three functions start with different things in their local variables. -/
theorem verifyWith_signWith_keygen (R : Realizes prm H Good) (stack stack' stack'' : Local Pre)
    {skSeed skPrf pkSeed : Bytes} (hs : skSeed.length = prm.n) (hf : skPrf.length = prm.n)
    (hp : pkSeed.length = prm.n) (addrnd : Option Bytes) (hrnd : ∀ r ∈ addrnd, r.length = prm.n)
    (m : Bytes) (ctx : Option Bytes) :
    let keys := slhKeygenInternal prm stack skSeed skPrf pkSeed
    (signWith prm stack' m ctx keys.1 addrnd).length = slhSigSz prm.toSizes ∧
      verifyWith prm stack'' m (signWith prm stack' m ctx keys.1 addrnd) ctx keys.2 = true := by
  have hroot := length_slhRoot (H := H) pkSeed skSeed
  have hsk : (Fips205.slhKeygen H skSeed skPrf pkSeed).1.length = 4 * prm.n := by
    simp only [Fips205.slhKeygen, List.length_append, hroot, hs, hf, hp]
    omega
  have hpk : (Fips205.slhKeygen H skSeed skPrf pkSeed).2.length = 2 * prm.n := by
    simp only [Fips205.slhKeygen, List.length_append, hroot, hp]
    omega
  dsimp only
  rw [slhKeygenInternal_eq R stack hs hf hp, signWith_eq R stack' m ctx hsk hrnd,
    verifyWith_eq R stack'' m _ _ hpk]
  exact ⟨(length_slhSign _ _ _).trans (slhSigSz_eq _).symm, slhVerify_slhSign hs hf hp _ addrnd⟩

/-- The same for the functions with a context. -/
theorem slhVerify_slhSign_keygen (R : Realizes prm H Good) (stack stack' stack'' : Local Pre)
    {skSeed skPrf pkSeed : Bytes} {addrnd : Option Bytes}
    (hs : skSeed.length = prm.n) (hf : skPrf.length = prm.n) (hp : pkSeed.length = prm.n)
    (hrnd : ∀ r ∈ addrnd, r.length = prm.n) (m : Bytes) {ctx : Bytes}
    (hctx : ctx.length ≤ 255) :
    (slhSign prm stack' m ctx (slhKeygenInternal prm stack skSeed skPrf pkSeed).1 addrnd).length =
        slhSigSz prm.toSizes ∧
      slhVerify prm stack'' m
        (slhSign prm stack' m ctx (slhKeygenInternal prm stack skSeed skPrf pkSeed).1 addrnd) ctx
        (slhKeygenInternal prm stack skSeed skPrf pkSeed).2 = true := by
  rw [slhSign, slhVerify, if_neg (by omega), if_neg (by omega)]
  exact verifyWith_signWith_keygen R stack stack' stack'' hs hf hp _ hrnd m (some ctx)

end Interface

/-! ## The parameter sets -/

/-- The numbers of the parameter sets. -/
def sizes : QudoPqc.SlhdsaParam → Sizes
  | .sha2_128s | .shake_128s =>
    { n := 16, h := 63, d := 7, hp := 9, a := 12, k := 14, lgW := 4, m := 30 }
  | .sha2_128f | .shake_128f =>
    { n := 16, h := 66, d := 22, hp := 3, a := 6, k := 33, lgW := 4, m := 34 }
  | .sha2_192s | .shake_192s =>
    { n := 24, h := 63, d := 7, hp := 9, a := 14, k := 17, lgW := 4, m := 39 }
  | .sha2_192f | .shake_192f =>
    { n := 24, h := 66, d := 22, hp := 3, a := 8, k := 33, lgW := 4, m := 42 }
  | .sha2_256s | .shake_256s =>
    { n := 32, h := 64, d := 8, hp := 8, a := 14, k := 22, lgW := 4, m := 47 }
  | .sha2_256f | .shake_256f =>
    { n := 32, h := 68, d := 17, hp := 4, a := 9, k := 35, lgW := 4, m := 49 }

/-- Some contents of the local variables. -/
def noLocals : Local Unit := ⟨⟨[], [], [], [], ()⟩, (Adrs.mk 0 0 .wotsHash 0 0 0).toT⟩

/-- Key generation and a signature in `slh_dsa_shake_128s`. -/
theorem engine_eq_fips205_shake :
    slhKeygenInternal (Shake.param Shake.rotation (sizes .shake_128s)) noLocals
    (List.replicate 16 1)
        (List.replicate 16 2) (List.replicate 16 3) =
      Fips205.slhKeygen (Shake.hashFamily Shake.rotation (sizes .shake_128s)) (List.replicate 16 1)
        (List.replicate 16 2) (List.replicate 16 3) ∧
      slhSign (Shake.param Shake.rotation (sizes .shake_128s)) noLocals [1] [4]
        (List.replicate 64 5) none =
        Fips205.slhSign (Shake.hashFamily Shake.rotation (sizes .shake_128s)) [0, 1, 4, 1]
          (List.replicate 64 5) none := by
  obtain ⟨hkeygen, -, -, hsign, -⟩ := @engine_eq_fips205 _ _ _ _
    (Shake.realizes Shake.rotation (sizes .shake_128s)) noLocals (List.replicate 16 1)
    (List.replicate 16 2)
    (List.replicate 16 3) (List.replicate 64 5) (List.replicate 32 6) none rfl rfl rfl rfl rfl
    (by simp) [1] [2, 3] [4]
  exact ⟨hkeygen, hsign⟩

theorem slhVerify_slhSign_keygen_shake :
    slhVerify (Shake.param Shake.rotation (sizes .shake_128s)) noLocals [1]
      (slhSign (Shake.param Shake.rotation (sizes .shake_128s)) noLocals [1] [2]
        (slhKeygenInternal (Shake.param Shake.rotation (sizes .shake_128s)) noLocals
        (List.replicate 16 3)
          (List.replicate 16 4) (List.replicate 16 5)).1 none) [2]
      (slhKeygenInternal (Shake.param Shake.rotation (sizes .shake_128s)) noLocals
        (List.replicate 16 3)
        (List.replicate 16 4) (List.replicate 16 5)).2 = true :=
  (slhVerify_slhSign_keygen (Shake.realizes Shake.rotation (sizes .shake_128s)) noLocals noLocals
    noLocals rfl
    rfl rfl (by simp) [1] (by decide)).2

end Native

end SlhDsa
