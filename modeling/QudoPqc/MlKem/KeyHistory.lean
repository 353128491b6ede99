import QudoPqc.Fallible.History
import QudoPqc.MlKem.KeyCodec

/-!
# The life of an ML-KEM key

A key object is created by `ossl_ml_kem_key_new` and then passed to the parsers, to delegated key
generation, duplication and reset, in any order, with any input, and with any allocation failing.

## The invariant

Unlike an ML-DSA key, an ML-KEM key is never left half filled: what fails after storage has been
added resets the object. So an object is empty, or it holds a stashed seed, or a public key, or a
private key (`Key.Sound`). The seed is the last one that `ossl_ml_kem_set_seed` accepted; `seedbuf`
holds it in the second case, and the matrix seed and the hash of the public key in the last two.
-/

namespace MlKem

open Codec Fallible Fallible.Act Fips203
open Fallible.Traced (run_apart run_bind run_cleanup run_emit run_fetch run_ofOption run_onFailure
  run_pure run_require run_update)

namespace Ossl

variable {v : Variant} {given : Option Bytes} {key : Key v} {p : Storage v} {c : Contents}
  {priv : Bool} {seed : Bytes}

/-! ## Operations -/

/-- An operation on a key object. After `keyDup` one goes on with the copy or with the original;
the other one is freed. -/
inductive Op
  | setSeed (seed : Bytes)
  | parsePublicKey (input : Bytes)
  | parsePrivateKey (input : Bytes)
  | generateKey (engine : KeypairEngine) (pubenc : Option ℕ) (random : Option Seed)
  | decapsulate (engine : DecapsEngine) (slen : ℕ) (ctext : Bytes)
  | keyDup (selection : UInt32) (onCopy : Bool)
  | keyReset

/-- A call of an operation: which of the calls it makes itself succeed. -/
structure Invocation where
  op : Op
  ok : Call → Bool

/-- The operation of an invocation, in the delegated build. -/
def perform (H : Primitives) (i : Invocation) : Proc v Unit :=
  match i.op with
  | .setSeed seed => setSeed seed
  | .parsePublicKey input => parsePublicKey H .delegated i.ok input
  | .parsePrivateKey input => parsePrivateKey H .delegated i.ok input
  | .generateKey engine pubenc random => do
    let _ ← generateKey i.ok (qudoGenkey H i.ok engine) pubenc random
    pure ()
  | .decapsulate engine slen ctext => do
    let _ ← decapsulate i.ok (qudoDecap i.ok engine) slen ctext
    pure ()
  | .keyDup selection onCopy => do
    let copy ← keyDup i.ok selection
    if onCopy then do
      keyFree
      .update fun _ ↦ copy
    else do
      let _ ← .apart keyFree copy
      pure ()
  | .keyReset => keyReset

/-! ## The invariant -/

/-- Nothing is loaded. -/
structure Key.Empty (key : Key v) : Prop where
  t_eq : key.t = none
  s_eq : key.s = none
  z_eq : key.z = none
  d_eq : key.d = none
  encodedDk_eq : key.encodedDk = none

/-- A seed is stashed in `seedbuf`. -/
structure Key.SeedOnly (seed : Bytes) (key : Key v) : Prop where
  t_eq : key.t = none
  s_eq : key.s = none
  z_eq : key.z = some .seedbufLow
  d_eq : key.d = some .seedbufHigh
  mem_low : key.mem .seedbufLow = ⟨.z, seed.drop 32⟩
  mem_high : key.mem .seedbufHigh = ⟨.d, seed.take 32⟩
  encodedDk_eq : key.encodedDk = none

section Invariant

variable (H : Primitives)

/-- The public key `pk` is loaded. -/
structure Key.HoldsPublic (pk : PublicKey v) (key : Key v) : Prop where
  t_eq : key.t = some pk.t.repr
  m_isSome : key.m.isSome
  rho_eq : key.rho = some .seedbufLow
  pkhash_eq : key.pkhash = some .seedbufHigh
  mem_low : key.mem .seedbufLow = ⟨.rho, pk.rho⟩
  mem_high : key.mem .seedbufHigh = ⟨.pkhash, H.sha3_256 pk.encode⟩
  encodedDk_eq : key.encodedDk = none

/-- The private key `sk` is loaded. -/
structure Key.HoldsPrivate (sk : SecretKey v) (key : Key v) : Prop
    extends key.HoldsPublic H sk.pub where
  s_eq : key.s = some sk.s.repr
  z_eq : key.z = some .zbufLow
  mem_z : key.mem .zbufLow = ⟨.z, sk.z⟩

/-- The seed beside a private key, if there is one, generates the key. -/
def Key.SeedGenerates (sk : SecretKey v) (key : Key v) : Prop :=
  key.d = none ∨ key.d = some .zbufHigh ∧
    ∃ d, key.mem .zbufHigh = ⟨.d, d⟩ ∧ keyGen H v d sk.z sk.length_z = sk

/-- The four kinds of key object; `given` is the seed that was stashed last. -/
inductive Key.Sound (given : Option Bytes) (key : Key v) : Prop
  | empty (h : key.Empty)
  | seedOnly (seed : Bytes) (hlen : seed.length = 64) (hgiven : given = some seed)
      (h : key.SeedOnly seed)
  | publicOnly (pk : PublicKey v) (h : key.HoldsPublic H pk) (hs : key.s = none)
      (hz : key.z = none) (hd : key.d = none)
  | keyPair (sk : SecretKey v) (h : key.HoldsPrivate H sk)
      (hd : key.SeedGenerates H sk)

end Invariant

theorem empty_keyNew : (keyNew : Key v).Empty := ⟨rfl, rfl, rfl, rfl, rfl⟩

/-- An empty or seed-only object. -/
theorem Key.Sound.of_unloaded {H : Primitives}
    (hkey : key.Sound H given) (hun : key.Unloaded) :
    key.Empty ∨ ∃ seed, seed.length = 64 ∧ given = some seed ∧ key.SeedOnly seed := by
  cases hkey with
  | empty h => exact .inl h
  | seedOnly seed hlen hgiven h => exact .inr ⟨seed, hlen, hgiven, h⟩
  | publicOnly pk h => exact nomatch (hun.1.symm.trans h.t_eq)
  | keyPair sk h => exact nomatch (hun.1.symm.trans h.t_eq)

/-! ## Failures

Storage has been added: whatever happens then, the object is empty after it has been reset, and
nothing private is left in `seedbuf`. -/

/-- Nothing private is in `seedbuf`. -/
def Key.Clean (key : Key v) : Prop :=
  (key.mem .seedbufLow).held.secret = false ∧ (key.mem .seedbufHigh).held.secret = false

theorem Key.Clean.write {p : Place} (h : key.Clean)
    (hp : c.held.secret = true → p = .zbufLow ∨ p = .zbufHigh) : (key.write p c).Clean := by
  cases p with
  | seedbufLow => exact ⟨Bool.eq_false_iff.mpr fun hc ↦ by simpa using hp hc, h.2⟩
  | seedbufHigh => exact ⟨h.1, Bool.eq_false_iff.mpr fun hc ↦ by simpa using hp hc⟩
  | zbufLow => exact h
  | zbufHigh => exact h

/-- The object has storage, and its private pointers point there. -/
structure Key.Storing (key : Key v) : Prop where
  t_isSome : key.t.isSome
  encodedDk_eq : key.encodedDk = none
  z_eq : ∀ p, key.z = some p → p = .zbufLow
  d_eq : ∀ p, key.d = some p → p = .zbufHigh
  clean : key.Clean

/-- Nothing is loaded, and nothing private is left. -/
structure Key.Emptied (key : Key v) : Prop extends key.Empty where
  clean : key.Clean

theorem Key.empty_reset (ht : key.t.isSome) (hdk : key.encodedDk = none) :
    key.reset.Empty := by
  rw [reset_of_isSome ht, dropStorage, cleansePrv]
  split <;> exact ⟨rfl, rfl, rfl, rfl, hdk⟩

theorem Key.Clean.reset (h : key.Clean) : key.reset.Clean := by
  rw [Key.reset, dropStorage, cleansePrv]
  split
  · exact h
  split
  · exact h
  · exact h

theorem Key.Storing.emptied_reset (h : key.Storing) : key.reset.Emptied :=
  ⟨Key.empty_reset h.t_isSome h.encodedDk_eq, h.clean.reset⟩

theorem Key.storing_addStorage (hdk : key.encodedDk = none) (p : Storage v)
    (priv : Bool) : (key.addStorage p priv).Storing := by
  rw [Key.addStorage]
  cases priv with
  | false =>
    exact ⟨rfl, hdk, nofun, nofun, rfl, rfl⟩
  | true =>
    exact ⟨rfl, hdk, fun p h ↦ (Option.some.inj h).symm, nofun, rfl, rfl⟩

section Failures

variable (H : Primitives) (build : Build) (ok : Call → Bool)

/-- What is private is written into the storage. -/
theorem storing_store {ptr : Key v → Option Place}
    (h : c.held.secret = true → ∀ key : Key v, key.Storing → ∀ p, ptr key = some p →
      p = .zbufLow ∨ p = .zbufHigh) :
    Triple Key.Storing (store ptr c).run (fun _ ↦ Key.Storing) Key.Storing := by
  rw [run_store]
  refine .fetch_bind fun key ↦ .ofOption_bind (fun _ _ h ↦ h.2) fun p hp ↦ .update ?_
  rintro _ ⟨rfl, hkey⟩
  exact { hkey with clean := hkey.clean.write fun hc ↦ h hc _ hkey p hp }

theorem storing_store_public {ptr : Key v → Option Place}
    (hc : c.held.secret = false) :
    Triple Key.Storing (store ptr c).run (fun _ ↦ Key.Storing) Key.Storing :=
  storing_store fun h ↦ nomatch (hc.symm.trans h)

theorem storing_store_z (c : Contents) :
    Triple Key.Storing (store (v := v) Key.z c).run (fun _ ↦ Key.Storing) Key.Storing :=
  storing_store fun _ _ hkey p hp ↦ .inl (hkey.z_eq p hp)

theorem storing_store_d (c : Contents) :
    Triple Key.Storing (store (v := v) Key.d c).run (fun _ ↦ Key.Storing) Key.Storing :=
  storing_store fun _ _ hkey p hp ↦ .inr (hkey.d_eq p hp)

theorem storing_parsePubkey (input : Bytes) :
    Triple Key.Storing (parsePubkey H build ok input : Proc v Unit).run
      (fun _ ↦ Key.Storing) Key.Storing := by
  simp only [parsePubkey, run_bind, run_ofOption, run_update, run_require]
  refine .ofOption_keep fun _ _ ↦ .update_keep (fun _ h ↦ { h with t_isSome := rfl }) <|
    .bind (storing_store_public rfl) fun _ ↦ .require_keep fun _ ↦
    .bind (storing_store_public rfl) fun _ ↦ ?_
  cases build with
  | upstream =>
    simp only [run_bind, run_require, run_update]
    exact .require_keep fun _ ↦ .update fun _ h ↦ { h with }
  | delegated => exact .update fun _ h ↦ { h with }

theorem storing_parsePrvkey (input : Bytes) :
    Triple Key.Storing (parsePrvkey H build ok input : Proc v Unit).run
      (fun _ ↦ Key.Storing) Key.Storing := by
  simp only [parsePrvkey, run_bind, run_ofOption, run_update, run_require, run_fetch]
  exact .ofOption_keep fun _ _ ↦ .update_keep (fun _ h ↦ { h with }) <|
    .bind (storing_parsePubkey H build ok _) fun _ ↦ .fetch_bind_any fun _ ↦
    .ofOption_keep fun _ _ ↦ .require_keep fun _ ↦ storing_store_z _

theorem storing_storeSeed (seed : Bytes) :
    Triple Key.Storing (storeSeed seed : Proc v Unit).run
      (fun _ ↦ Key.Storing) Key.Storing := by
  simp only [storeSeed, run_bind, run_update, run_fetch]
  refine .bind (storing_store_z _) fun _ ↦ .update_keep (fun key h ↦ { h with d_eq := ?_ }) <|
    .fetch_bind_any fun key ↦ ?_
  · intro p hp
    obtain ⟨p', hp', rfl⟩ := Option.map_eq_some_iff.mp hp
    rw [h.z_eq p' hp', Place.next]
  cases key.retainSeed with
  | true => exact storing_store_d _
  | false =>
    rw [if_neg Bool.false_ne_true, run_bind, run_update]
    exact .bind (storing_store_d _) fun _ ↦ .update fun _ h ↦
      { h with d_eq := by simp }

theorem storing_qudoGenkey (engine : KeypairEngine) (seed : Bytes) (pubenc : Bool) :
    Triple Key.Storing (qudoGenkey H ok engine seed pubenc : Proc v _).run
      (fun _ ↦ Key.Storing) Key.Storing := by
  simp only [qudoGenkey, run_bind, run_require, run_cleanup, run_ofOption, run_pure, run_clearFree,
    pure_snd]
  exact .require_keep fun _ ↦ .require_keep fun _ ↦ .cleanup
    (.require_keep fun _ ↦ .ofOption_keep fun _ _ ↦ .bind (storing_parsePrvkey H _ ok _) fun _ ↦
      .bind (storing_storeSeed _) fun _ ↦ .pure fun _ h ↦ h)
    (fun _ _ h ↦ h) fun _ h ↦ h

/-- What fills new storage either finds none, and leaves the object as it is, or fails with an
object that has storage. -/
theorem addStorage_ends {α : Type} {x : Act (Key v) α}
    (hdk : key.encodedDk = none) (hx : Triple Key.Storing x (fun _ ↦ Key.Storing) Key.Storing) :
    Triple (· = key) ((addStorage (mallocStorage ok) priv).run >>= fun _ ↦ x)
      (fun _ ↦ Key.Storing)
      (fun key' ↦ ok .allocStorage = false ∧ key' = key ∨ key'.Storing) := by
  rw [mallocStorage]
  cases halloc : ok .allocStorage with
  | false =>
    rintro _ rfl
    exact ⟨fun _ h ↦ (by cases h), fun _ ↦ .inl ⟨rfl, rfl⟩⟩
  | true =>
    rintro _ rfl
    obtain ⟨hsome, hnone⟩ := hx _ (Key.storing_addStorage hdk .blank priv)
    exact ⟨hsome, fun h ↦ .inr (hnone h)⟩

/-- The reset after a failure. -/
theorem reset_failed {key' : Key v} {p : Prop} (hun : key.Unloaded)
    (h : p ∧ key' = key ∨ key'.Storing) : p ∧ key'.reset = key ∨ key'.reset.Emptied := by
  rcases h with ⟨hp, rfl⟩ | h
  · exact .inl ⟨hp, Key.reset_of_none hun.1⟩
  · exact .inr h.emptied_reset

theorem parsePublicKey_ends (input : Bytes) (key : Key v) :
    Triple (· = key) (parsePublicKey H build ok input).run (fun _ ↦ Key.Storing)
      (fun key' ↦ key' = key ∨ key'.Emptied) := by
  simp only [parsePublicKey, run_bind, run_fetch, run_require, run_onFailure, run_keyReset_snd]
  refine .fetch_bind_eq <| .require_bind (fun _ _ ↦ .inl) fun hun ↦
    .require_bind (fun _ _ ↦ .inl) fun _ ↦ ?_
  rw [Bool.and_eq_true, Key.unloaded_iff] at hun
  exact .onFailure (addStorage_ends ok hun.2 (storing_parsePubkey H build ok input))
    fun _ h ↦ (reset_failed hun h).imp_left And.right

theorem parsePrivateKey_ends (input : Bytes) (key : Key v) :
    Triple (· = key) (parsePrivateKey H build ok input).run (fun _ ↦ Key.Storing)
      (fun key' ↦ key' = key ∨ key'.Emptied) := by
  simp only [parsePrivateKey, run_bind, run_fetch, run_require, run_onFailure, run_keyReset_snd]
  refine .fetch_bind_eq <| .require_bind (fun _ _ ↦ .inl) fun hun ↦
    .require_bind (fun _ _ ↦ .inl) fun _ ↦ ?_
  rw [Bool.and_eq_true, Key.unloaded_iff] at hun
  exact .onFailure (addStorage_ends ok hun.2 (storing_parsePrvkey H build ok input))
    fun _ h ↦ (reset_failed hun h).imp_left And.right

theorem takeSeed_ends (random : Option Seed) (key : Key v) :
    Triple (· = key) (takeSeed random).run
      (fun seed key' ↦ key.seedSource random = some seed ∧ key' = key.seedTaken) (· = key) := by
  refine .of_success (fun _ seed key' h htake ↦ ?_) ?_
  · subst h
    obtain ⟨seed', hseed, hpure⟩ := (takeSeed_bind_eq_some (f := pure)).mp
      (Act.bind_of_eq_some pure htake)
    obtain ⟨rfl, rfl⟩ := pure_eq_some.mp hpure
    exact ⟨hseed, rfl⟩
  simp only [takeSeed, run_bind, run_fetch]
  refine .fetch_bind_eq ?_
  cases key.haveSeed with
  | true =>
    rw [if_pos rfl]
    simp only [run_bind, run_ofOption, run_update, run_pure]
    exact .ofOption_keep fun _ _ ↦ .update_bind_eq <| .pure fun _ _ ↦ trivial
  | false =>
    rw [if_neg Bool.false_ne_true]
    simp only [run_bind, run_ofOption, run_pure]
    exact .ofOption_keep fun _ _ ↦ .pure fun _ _ ↦ trivial

theorem Key.Unloaded.seedTaken (h : key.Unloaded) : key.seedTaken.Unloaded := by
  rw [Key.seedTaken]
  split
  · exact h
  · exact h

/-- `ossl_ml_kem_genkey` gets as far as having a seed. -/
structure TakesSeed (pubenc : Option ℕ) (random : Option Seed) (key : Key v) : Prop where
  unloaded : key.Unloaded
  length : pubenc.all (· == v.pubkeyBytes) = true
  source : (key.seedSource random).isSome = true

/-- Key generation that fails leaves the object as it was, or without its seed, or empty. -/
theorem generateKey_ends
    {genkey : Bytes → Bool → Proc v (Option Bytes)}
    (hgenkey : ∀ seed pubenc,
      Triple Key.Storing (genkey seed pubenc).run (fun _ ↦ Key.Storing) Key.Storing)
    (pubenc : Option ℕ) (random : Option Seed) (key : Key v) :
    Triple (· = key) (generateKey ok genkey pubenc random).run (fun _ ↦ Key.Storing)
      (fun key' ↦ key' = key ∨
        (TakesSeed pubenc random key ∧ (ok .mdCtxNew = false ∨ ok .allocStorage = false)) ∧
          key' = key.seedTaken ∨ key'.Emptied) := by
  simp only [generateKey, run_bind, run_fetch, run_require, run_onFailure, run_cleanup, run_emit,
    run_keyReset_snd, pure_snd]
  refine .fetch_bind_eq <| .require_bind (fun _ _ ↦ .inl) fun hun ↦
    .require_bind (fun _ _ ↦ .inl) fun hlen ↦
    .bind ((takeSeed_ends random key).mono (fun _ ↦ id) (fun _ _ ↦ id) fun _ ↦ .inl) fun seed ↦
    .of_and fun hseed ↦ ?_
  rw [Bool.and_eq_true, Key.unloaded_iff] at hun
  have htakes : TakesSeed pubenc random key := ⟨hun, hlen, by rw [hseed]; rfl⟩
  refine .bind (.onFailure (M := fun key' ↦ ok .mdCtxNew = false ∧ key' = key.seedTaken)
    (Q := fun _ key' ↦ key' = key.seedTaken) (.require (fun _ _ ↦ id) fun hctx _ h ↦ ⟨hctx, h⟩)
    fun _ h ↦ .inr (.inl ⟨⟨htakes, .inl h.1⟩, h.2⟩)) fun _ ↦ ?_
  refine .onFailure (.cleanup (addStorage_ends ok hun.seedTaken.2 (hgenkey seed pubenc.isSome))
    (fun _ _ h ↦ h) fun _ h ↦ h) fun key' h ↦ ?_
  rcases reset_failed hun.seedTaken h with ⟨halloc, h⟩ | h
  · exact .inr (.inl ⟨⟨htakes, .inr halloc⟩, h⟩)
  · exact .inr (.inr h)

end Failures

/-! ## Encodings of loaded keys -/

section Encodings

variable {H : Primitives} {pk : PublicKey v} {sk : SecretKey v}

theorem vectorEncode_repr {n : ℕ} (p : Vec n (ZMod q)) :
    vectorEncode 12 p.repr = encodeVec 12 p.repr :=
  vectorEncode_eq (by decide) fun i j ↦ (p.repr_lt i j).trans (by decide)

theorem Key.HoldsPublic.encodePubkey (h : key.HoldsPublic H pk) :
    key.encodePubkey = some pk.encode := by
  rw [Key.encodePubkey, deref, h.t_eq, h.rho_eq, Option.map_some, h.mem_low]
  simp [vectorEncode_repr, PublicKey.encode]

theorem Key.HoldsPublic.encodePublicKey (h : key.HoldsPublic H pk) :
    key.encodePublicKey v.pubkeyBytes = some pk.encode := by
  rw [Key.encodePublicKey, havePubkey, h.t_eq, h.encodePubkey]
  simp

theorem Key.HoldsPublic.deref_pkhash (h : key.HoldsPublic H pk) :
    key.deref key.pkhash = some (H.sha3_256 pk.encode) := by
  rw [deref, h.pkhash_eq, Option.map_some, h.mem_high]

theorem Key.HoldsPrivate.deref_z (h : key.HoldsPrivate H sk) : key.deref key.z = some sk.z := by
  rw [deref, h.z_eq, Option.map_some, h.mem_z]

theorem Key.HoldsPrivate.encodePrivateKey (h : key.HoldsPrivate H sk) :
    key.encodePrivateKey v.prvkeyBytes = some (sk.encode H) := by
  rw [Key.encodePrivateKey, havePrvkey, Key.encodePrvkey, h.s_eq, h.encodePubkey, h.deref_pkhash,
    h.deref_z]
  simp [vectorEncode_repr, SecretKey.encode]

theorem Key.SeedOnly.encodeSeed (h : key.SeedOnly seed) :
    key.encodeSeed 64 = some seed := by
  rw [Key.encodeSeed, haveSeed, deref, deref, h.d_eq, h.z_eq, Option.map_some, Option.map_some,
    h.mem_low, h.mem_high]
  simp

end Encodings

/-! ## Successes -/

section Successes

variable (H : Primitives)

theorem Key.holdsPublic_loadedPublic (build : Build) (hdk : key.encodedDk = none)
    (pk : PublicKey v) : (key.loadedPublic H build pk).HoldsPublic H pk where
  t_eq := rfl
  m_isSome := rfl
  rho_eq := rfl
  pkhash_eq := rfl
  mem_low := rfl
  mem_high := rfl
  encodedDk_eq := hdk

theorem Key.holdsPrivate_loadedPrivate (build : Build) (hdk : key.encodedDk = none)
    (sk : SecretKey v) : (key.loadedPrivate H build sk).HoldsPrivate H sk where
  t_eq := rfl
  m_isSome := rfl
  rho_eq := rfl
  pkhash_eq := rfl
  mem_low := rfl
  mem_high := rfl
  encodedDk_eq := hdk
  s_eq := rfl
  z_eq := rfl
  mem_z := rfl

theorem Key.seedGenerates_withSeed (hseed : seed.length = 64) :
    ((key.loadedPrivate H .delegated (keyGenSeed H v seed hseed)).withSeed
      seed).SeedGenerates H (keyGenSeed H v seed hseed) := by
  cases hretain : key.retainSeed with
  | false => exact .inl (if_neg fun h ↦ Bool.false_ne_true (hretain.symm.trans h))
  | true => exact .inr ⟨if_pos hretain, seed.take 32, if_pos hretain, rfl⟩

variable {H} {ok : Call → Bool}

theorem Key.Sound.s_eq_none (hkey : key.Sound H given) (hun : key.Unloaded) : key.s = none := by
  rcases hkey.of_unloaded hun with h | ⟨seed, -, -, h⟩
  · exact h.s_eq
  · exact h.s_eq

/-- The two ways an operation may end are dealt with separately. -/
theorem sound_of_triple {α : Type} {x : Act (Key v) α} {Q : α → Key v → Prop} {R : Key v → Prop}
    (hfail : Triple (· = key) x Q R)
    (hsome : ∀ a key', x key = (some a, key') → key'.Sound H given)
    (hnone : ∀ key', R key' → key'.Sound H given) : (x key).2.Sound H given := by
  have hends : Triple (· = key) x (fun _ key' ↦ key'.Sound H given) fun key' ↦ key'.Sound H given :=
    .of_success (fun _ a _ h hx ↦ hsome a _ (h ▸ hx))
      (hfail.mono (fun _ ↦ id) (fun _ _ _ ↦ trivial) hnone)
  exact hends.final rfl

theorem sound_parsePublicKey (hkey : key.Sound H given) (input : Bytes) :
    ((parsePublicKey H .delegated ok input).run key).2.Sound H given := by
  refine sound_of_triple (parsePublicKey_ends H .delegated ok input key) (fun u key' h ↦ ?_) ?_
  · obtain ⟨hun, -, pk, -, rfl⟩ := parsePublicKey_eq_some.mp h
    exact .publicOnly pk (Key.holdsPublic_loadedPublic H _ hun.2 pk) (hkey.s_eq_none hun) rfl rfl
  · rintro key' (rfl | h)
    · exact hkey
    · exact .empty h.toEmpty

theorem sound_parsePrivateKey (hkey : key.Sound H given) (input : Bytes) :
    ((parsePrivateKey H .delegated ok input).run key).2.Sound H given := by
  refine sound_of_triple (parsePrivateKey_ends H .delegated ok input key) (fun u key' h ↦ ?_) ?_
  · obtain ⟨hun, -, sk, -, rfl⟩ := parsePrivateKey_eq_some.mp h
    exact .keyPair sk (Key.holdsPrivate_loadedPrivate H _ hun.2 sk) (.inl rfl)
  · rintro key' (rfl | h)
    · exact hkey
    · exact .empty h.toEmpty

/-- The seed that key generation starts from. -/
theorem Key.Sound.length_seedSource (hkey : key.Sound H given) (hun : key.Unloaded)
    {random : Option Seed} (h : key.seedSource random = some seed) :
    seed.length = 64 := by
  rcases hkey.of_unloaded hun with hempty | ⟨seed', hlen, -, hstash⟩
  · rw [seedSource, haveSeed, hempty.d_eq] at h
    obtain ⟨r, -, rfl⟩ := Option.map_eq_some_iff.mp h
    exact r.2
  · rw [seedSource, haveSeed, hstash.d_eq, hstash.encodeSeed] at h
    cases h
    exact hlen

theorem Key.Sound.seedTaken (hkey : key.Sound H given) (hun : key.Unloaded) :
    key.seedTaken.Empty := by
  rcases hkey.of_unloaded hun with h | ⟨seed, -, -, h⟩
  · rw [Key.seedTaken, haveSeed, h.d_eq]
    exact h
  · rw [Key.seedTaken, haveSeed, h.d_eq]
    exact ⟨h.t_eq, h.s_eq, rfl, rfl, h.encodedDk_eq⟩

theorem sound_generateKey (hkey : key.Sound H given) {engine : KeypairEngine}
    (hengine : engine.Correct H v) (pubenc : Option ℕ) (random : Option Seed) :
    ((generateKey ok (qudoGenkey H ok engine) pubenc random).run key).2.Sound H given := by
  refine sound_of_triple (generateKey_ends ok (storing_qudoGenkey H ok engine) pubenc random key)
    (fun pub key' h ↦ ?_) ?_
  · obtain ⟨hun, -, -, seed, hseed, hrun⟩ := generateKey_eq_some.mp h
    have hlen := hkey.length_seedSource hun hseed
    obtain ⟨-, -, -, rfl⟩ := (qudoGenkey_eq_some hengine hlen).mp hrun
    refine .keyPair _ ⟨⟨rfl, rfl, rfl, rfl, rfl, rfl, hun.2⟩, rfl, rfl, ?_⟩
      (Key.seedGenerates_withSeed H hlen)
    change (⟨.z, (seed.drop 32).take 32⟩ : Contents) = ⟨.z, seed.drop 32⟩
    rw [List.take_of_length_le (by rw [List.length_drop, hlen])]
  · rintro key' (rfl | ⟨⟨htakes, -⟩, rfl⟩ | h)
    · exact hkey
    · exact .empty (hkey.seedTaken htakes.unloaded)
    · exact .empty h.toEmpty

theorem sound_stashed (hkey : key.Sound H given) (hun : key.t = none) (hd : key.d = none)
    (hlen : seed.length = 64) : (key.stashed seed).Sound H (some seed) := by
  have hempty : key.Empty := by
    cases hkey with
    | empty h => exact h
    | seedOnly seed' _ _ h => exact nomatch (hd.symm.trans h.d_eq)
    | publicOnly pk h => exact nomatch (hun.symm.trans h.t_eq)
    | keyPair sk h => exact nomatch (hun.symm.trans h.t_eq)
  exact .seedOnly seed hlen rfl ⟨hun, hempty.s_eq, rfl, rfl, rfl, rfl, hempty.encodedDk_eq⟩

theorem sound_reset (hkey : key.Sound H given) : key.reset.Sound H given := by
  cases hkey with
  | empty h => exact (Key.reset_of_none h.t_eq).symm ▸ .empty h
  | seedOnly seed hlen hgiven h =>
    exact (Key.reset_of_none h.t_eq).symm ▸ .seedOnly seed hlen hgiven h
  | publicOnly pk h =>
    exact .empty (Key.empty_reset (by rw [h.t_eq]; rfl) h.encodedDk_eq)
  | keyPair sk h => exact .empty (Key.empty_reset (by rw [h.t_eq]; rfl) h.encodedDk_eq)

end Successes

/-! ## Duplication -/

section Duplication

variable {H : Primitives} {ok : Call → Bool} {src ret copy : Key v}

theorem Key.HoldsPublic.copied {pk : PublicKey v} (h : src.HoldsPublic H pk)
    (hdk : ret.encodedDk = none)
    (hp : dupStorage ok src priv = some p) {rho pkhash : Bytes}
    (hrho : src.deref src.rho = some rho) (hpkhash : src.deref src.pkhash = some pkhash) :
    (src.copied ret p priv rho pkhash).HoldsPublic H pk := by
  obtain ⟨ht, -, -⟩ := dupStorage_eq_some hp
  rw [h.t_eq, Option.some.injEq] at ht
  rw [deref, h.rho_eq, Option.map_some, h.mem_low, Option.some.injEq] at hrho
  rw [h.deref_pkhash, Option.some.injEq] at hpkhash
  subst hrho hpkhash
  cases priv <;> exact ⟨congrArg some ht.symm, rfl, rfl, rfl, rfl, rfl, hdk⟩

theorem Key.HoldsPrivate.copied {sk : SecretKey v} (h : src.HoldsPrivate H sk)
    (hdk : ret.encodedDk = none) (hp : dupStorage ok src true = some p)
    {rho pkhash : Bytes} (hrho : src.deref src.rho = some rho)
    (hpkhash : src.deref src.pkhash = some pkhash) :
    (src.copied ret p true rho pkhash).HoldsPrivate H sk := by
  obtain ⟨-, -, hpriv⟩ := dupStorage_eq_some hp
  obtain ⟨hs, hlow, -⟩ := hpriv rfl
  exact { toHoldsPublic := h.toHoldsPublic.copied hdk hp hrho hpkhash
          s_eq := hs.symm.trans h.s_eq
          z_eq := rfl
          mem_z := hlow.trans h.mem_z }

variable (H) in
/-- What a copy holds of its source: nothing, the public key or the private key. -/
inductive Key.CopyOf (selected : UInt32) (src copy : Key v) : Prop
  | nothing (hsel : selected = 0) (h : copy.Empty)
  | publicPart (hsel : selected = selectPublicKey) (pk : PublicKey v)
      (hsrc : src.HoldsPublic H pk) (h : copy.HoldsPublic H pk) (hs : copy.s = none)
      (hz : copy.z = none) (hd : copy.d = none)
  | privatePart (hzero : selected ≠ 0) (hsel : selected ≠ selectPublicKey)
      (sk : SecretKey v) (hsrc : src.HoldsPrivate H sk) (hgen : src.SeedGenerates H sk)
      (h : copy.HoldsPrivate H sk) (hd : copy.d = src.d)
      (hmem : copy.mem .zbufHigh = src.mem .zbufHigh)

theorem Key.Sound.shell_empty (hsrc : src.Sound H given) :
    src.shell.Empty := by
  refine ⟨rfl, rfl, rfl, rfl, ?_⟩
  cases hsrc with
  | empty h => exact h.encodedDk_eq
  | seedOnly seed _ _ h => exact h.encodedDk_eq
  | publicOnly pk h => exact h.encodedDk_eq
  | keyPair sk h => exact h.encodedDk_eq

/-- What is loaded when there is storage to copy. -/
theorem Key.Sound.of_dupStorage (hsrc : src.Sound H given) (hp : dupStorage ok src priv = some p) :
    (∃ sk, src.HoldsPrivate H sk ∧ src.SeedGenerates H sk) ∨
      priv = false ∧ ∃ pk, src.HoldsPublic H pk := by
  obtain ⟨ht, -, hpriv⟩ := dupStorage_eq_some hp
  cases hsrc with
  | empty h => exact nomatch (h.t_eq.symm.trans ht)
  | seedOnly seed _ _ h => exact nomatch (h.t_eq.symm.trans ht)
  | keyPair sk h hd => exact .inl ⟨sk, h, hd⟩
  | publicOnly pk h hs =>
    cases priv with
    | false => exact .inr ⟨rfl, pk, h⟩
    | true => exact nomatch (hs.symm.trans (hpriv rfl).1)

theorem Key.SeedGenerates.d_eq {sk : SecretKey v} (h : src.SeedGenerates H sk) :
    (if src.d.isSome then some Place.zbufHigh else none) = src.d := by
  rcases h with h | ⟨h, -⟩
  · rw [h]
    rfl
  · rw [h]
    rfl

/-- A successful duplication copies what it selects. -/
theorem copyOf_of_keyDup (hsrc : src.Sound H given)
    {selection : UInt32} {key' : Key v} (h : (keyDup ok selection).run src = (some copy, key')) :
    src.CopyOf H (src.selected selection) copy := by
  obtain ⟨-, u, hinto⟩ := keyDup_eq_some h
  rcases dupInto_eq_some hinto with ⟨hzero, rfl⟩ | ⟨hzero, p, rho, pkhash, hp, hrho, hpkhash, rfl⟩
  · exact .nothing hzero hsrc.shell_empty
  have hdk := hsrc.shell_empty.encodedDk_eq
  cases hsel : src.selected selection == selectPublicKey with
  | true =>
    rw [bne, hsel] at hp ⊢
    have hpublic : ∃ pk, src.HoldsPublic H pk := by
      rcases hsrc.of_dupStorage hp with ⟨sk, hsk, -⟩ | ⟨-, hpk⟩
      · exact ⟨sk.pub, hsk.toHoldsPublic⟩
      · exact hpk
    obtain ⟨pk, hpk⟩ := hpublic
    exact .publicPart (by simpa using hsel) pk hpk (hpk.copied hdk hp hrho hpkhash) rfl rfl rfl
  | false =>
    rw [bne, hsel] at hp ⊢
    rcases hsrc.of_dupStorage hp with ⟨sk, hsk, hd⟩ | ⟨hfalse, -⟩
    · obtain ⟨-, -, hpriv⟩ := dupStorage_eq_some hp
      exact .privatePart hzero (by simpa using hsel) sk hsk hd (hsk.copied hdk hp hrho hpkhash)
        hd.d_eq (hpriv rfl).2.2
    · exact absurd hfalse Bool.true_eq_false.mp

/-- So the copy is sound. -/
theorem Key.CopyOf.sound {selected : UInt32}
    (h : src.CopyOf H selected copy) : copy.Sound H given := by
  cases h with
  | nothing _ h => exact .empty h
  | publicPart _ pk _ h hs hz hd => exact .publicOnly pk h hs hz hd
  | privatePart _ _ sk _ hgen h hd hmem =>
    refine .keyPair sk h ?_
    rw [SeedGenerates, hd, hmem]
    exact hgen

theorem keeps_keyDup (selection : UInt32) (key : Key v) :
    ((keyDup ok selection).run key).2 = key := by
  have hkeep : Keeps id (keyDup ok selection : Proc v (Key v)).run := by
    simp only [keyDup, run_bind, run_fetch, run_require, run_apart]
    exact .fetch_bind fun _ ↦ .require_bind <| .require_bind <| .ofOption _
  exact hkeep key

variable (H) in
/-- After duplication one goes on with the key or with its copy. -/
theorem perform_keyDup {P : Key v → Prop} {selection : UInt32} (onCopy : Bool) (hsrc : P src)
    (hcopy : ∀ copy key', (keyDup ok selection).run src = (some copy, key') → P copy) :
    P ((perform H ⟨.keyDup selection onCopy, ok⟩).run src).2 := by
  rw [perform, run_bind]
  have hkeep : ((keyDup ok selection).run src).2 = src := keeps_keyDup selection src
  match h : (keyDup ok selection).run src with
  | (none, key') =>
    rw [bind_of_eq_none _ h]
    rw [h] at hkeep
    exact hkeep.symm ▸ hsrc
  | (some copy, key') =>
    rw [bind_of_eq_some _ h]
    rw [h] at hkeep
    obtain rfl : key' = src := hkeep
    cases onCopy with
    | true =>
      rw [if_pos rfl, run_bind, bind_of_eq_some _ (run_keyFree key')]
      exact hcopy copy key' h
    | false =>
      rw [if_neg Bool.false_ne_true, run_bind, run_apart, run_keyFree]
      exact hsrc

end Duplication

/-! ## Histories -/

section Histories

variable {H : Primitives}

variable (H) in
/-- The engine that a call uses returns the encodings of FIPS 203. -/
def Generates (i : Invocation) (_key : Key v) : Prop :=
  ∀ engine pubenc random, i.op = .generateKey engine pubenc random → engine.Correct H v

variable (H) in
/-- The seed that was stashed last, after a call. -/
def Invocation.stash (i : Invocation) (key : Key v) (given : Option Bytes) :
    Option Bytes :=
  match i.op with
  | .setSeed seed => if ((perform H i).run key).1.isSome then some seed else given
  | _ => given

variable (H) in
/-- The seed that was stashed last in a history. -/
def lastSeed : List Invocation → Key v → Option Bytes → Option Bytes
  | [], _, given => given
  | i :: calls, key, given => lastSeed calls ((perform H i).run key).2 (i.stash H key given)

theorem keeps_decapsulate (ok : Call → Bool) (engine : DecapsEngine) (slen : ℕ)
    (ctext : Bytes) :
    Keeps id (decapsulate ok (qudoDecap ok engine) slen ctext : Proc v _).run := by
  simp only [decapsulate, qudoDecap, run_bind, run_fetch, run_require, run_ofOption, run_cleanup,
    run_clearFree, pure_snd]
  exact .fetch_bind fun _ ↦ .require_bind <| .require_bind <|
    .require_bind <| .require_bind <| .fetch_bind fun _ ↦
    .cleanup (.ofOption_bind fun _ ↦ .ofOption _) fun _ ↦ rfl

/-- Every operation keeps the invariant, whether it succeeds or not. -/
theorem sound_perform (i : Invocation) (hi : Generates H i key) (hkey : key.Sound H given) :
    ((perform H i).run key).2.Sound H (i.stash H key given) := by
  obtain ⟨op, ok⟩ := i
  cases op with
  | setSeed seed =>
    simp only [Invocation.stash, perform, run_setSeed]
    split
    next h => exact sound_stashed hkey h.1 h.2.1 h.2.2
    next h => exact hkey
  | parsePublicKey input => exact sound_parsePublicKey hkey input
  | parsePrivateKey input => exact sound_parsePrivateKey hkey input
  | generateKey engine pubenc random =>
    rw [perform, run_bind, run_pure, bind_pure_snd]
    exact sound_generateKey hkey (hi engine pubenc random rfl) pubenc random
  | decapsulate engine slen ctext =>
    rw [perform, run_bind, run_pure, bind_pure_snd]
    have hkeep : ((decapsulate ok (qudoDecap ok engine) slen ctext).run key).2 = key :=
      keeps_decapsulate ok engine slen ctext key
    rw [hkeep]
    exact hkey
  | keyDup selection onCopy =>
    exact perform_keyDup (P := fun key ↦ key.Sound H given) H onCopy hkey
      fun copy key' h ↦ (copyOf_of_keyDup hkey h).sound
  | keyReset =>
    rw [perform, run_keyReset]
    exact sound_reset hkey

theorem sound_after (calls : List Invocation) (h : Along (perform H) (Generates H) calls key)
    (hkey : key.Sound H given) :
    (after (perform H) calls key).Sound H (lastSeed H calls key given) := by
  induction calls generalizing key given with
  | nil => exact hkey
  | cons i calls ih => exact ih h.2 (sound_perform i h.1 hkey)

/-! ## The classes -/

/-- The kinds of key object, by which of their pointers are set. -/
inductive KeyClass
  | empty
  | seedOnly
  | publicOnly
  | privateKey
  deriving DecidableEq, Repr

/-- Which of the pointers are set. -/
def Key.InClass (key : Key v) : KeyClass → Prop
  | .empty => key.t = none ∧ key.s = none ∧ key.z = none ∧ key.d = none
  | .seedOnly => key.t = none ∧ key.s = none ∧ key.z = some .seedbufLow ∧ key.d = some .seedbufHigh
  | .publicOnly => key.t.isSome ∧ key.s = none ∧ key.z = none ∧ key.d = none
  | .privateKey => key.t.isSome ∧ key.s.isSome ∧ key.z.isSome

/-- No object is in two classes. -/
theorem Key.InClass.unique {c c' : KeyClass} (h : key.InClass c) (h' : key.InClass c') :
    c = c' := by
  cases c <;> cases c' <;> simp_all [InClass]

theorem Key.Sound.existsUnique_inClass (hkey : key.Sound H given) : ∃! c, key.InClass c := by
  have hexists : ∃ c, key.InClass c := by
    cases hkey with
    | empty h => exact ⟨.empty, h.t_eq, h.s_eq, h.z_eq, h.d_eq⟩
    | seedOnly seed _ _ h => exact ⟨.seedOnly, h.t_eq, h.s_eq, h.z_eq, h.d_eq⟩
    | publicOnly pk h hs hz hd => exact ⟨.publicOnly, by rw [h.t_eq]; rfl, hs, hz, hd⟩
    | keyPair sk h =>
      exact ⟨.privateKey, by rw [h.t_eq]; rfl, by rw [h.s_eq]; rfl, by rw [h.z_eq]; rfl⟩
  obtain ⟨c, hc⟩ := hexists
  exact ⟨c, hc, fun c' hc' ↦ hc'.unique hc⟩

/-- The stashed seed of a seed-only object. -/
theorem Key.Sound.seedOnly_of_inClass (hkey : key.Sound H given) (hc : key.InClass .seedOnly) :
    ∃ seed, given = some seed ∧ key.encodeSeed 64 = some seed := by
  obtain ⟨ht, -, -, hd⟩ := hc
  cases hkey with
  | empty h => exact nomatch (hd.symm.trans h.d_eq)
  | seedOnly seed _ hgiven h => exact ⟨seed, hgiven, h.encodeSeed⟩
  | publicOnly pk h => exact nomatch (ht.symm.trans h.t_eq)
  | keyPair sk h => exact nomatch (ht.symm.trans h.t_eq)

/-- A loaded object holds a public key. -/
theorem Key.Sound.holdsPublic (hkey : key.Sound H given) (ht : key.t.isSome) :
    ∃ pk, key.HoldsPublic H pk := by
  cases hkey with
  | empty h => rw [h.t_eq] at ht; exact nomatch ht
  | seedOnly seed _ _ h => rw [h.t_eq] at ht; exact nomatch ht
  | publicOnly pk h => exact ⟨pk, h⟩
  | keyPair sk h => exact ⟨sk.pub, h.toHoldsPublic⟩

/-- An object with a private vector holds a private key. -/
theorem Key.Sound.holdsPrivate (hkey : key.Sound H given) (hs : key.s.isSome) :
    ∃ sk, key.HoldsPrivate H sk ∧ key.SeedGenerates H sk := by
  cases hkey with
  | empty h => rw [h.s_eq] at hs; exact nomatch hs
  | seedOnly seed _ _ h => rw [h.s_eq] at hs; exact nomatch hs
  | publicOnly pk h hs' => rw [hs'] at hs; exact nomatch hs
  | keyPair sk h hd => exact ⟨sk, h, hd⟩

/-! ## What a loaded key refuses, and what its copies hold -/

/-- The operations that load a seed or a key. -/
def Op.loads : Op → Bool
  | .setSeed _ => true
  | .parsePublicKey _ => true
  | .parsePrivateKey _ => true
  | .generateKey _ _ _ => true
  | .decapsulate _ _ _ => false
  | .keyDup _ _ => false
  | .keyReset => false

theorem perform_refused (ht : key.t.isSome) (i : Invocation) (hi : i.op.loads = true) :
    (perform H i).run key = (none, key) := by
  have hcheck : (!key.havePubkey && !key.haveDkenc) = false := by
    rw [Key.havePubkey, ht, Bool.not_true, Bool.false_and]
  obtain ⟨op, ok⟩ := i
  cases op with
  | setSeed seed =>
    rw [perform, run_setSeed, if_neg]
    rintro ⟨hnone, -⟩
    rw [hnone] at ht
    exact Bool.false_ne_true ht
  | parsePublicKey input =>
    change (parsePublicKey H .delegated ok input).run key = _
    rw [parsePublicKey, run_bind, run_fetch, fetch_bind, run_bind, run_require, hcheck,
      require_false_bind]
  | parsePrivateKey input =>
    change (parsePrivateKey H .delegated ok input).run key = _
    rw [parsePrivateKey, run_bind, run_fetch, fetch_bind, run_bind, run_require, hcheck,
      require_false_bind]
  | generateKey engine pubenc random =>
    rw [perform, run_bind]
    refine bind_of_eq_none _ ?_
    rw [generateKey, run_bind, run_fetch, fetch_bind, run_bind, run_require, hcheck,
      require_false_bind]
  | decapsulate => cases hi
  | keyDup => cases hi
  | keyReset => cases hi

/-- The encodings of a copy are those of its source, as far as they are selected. -/
theorem Key.CopyOf.encodings {selected : UInt32} {copy : Key v} (h : key.CopyOf H selected copy) :
    copy.encodePublicKey v.pubkeyBytes =
        (if selected = 0 then none else key.encodePublicKey v.pubkeyBytes) ∧
      copy.encodePrivateKey v.prvkeyBytes =
        (if selected = 0 ∨ selected = selectPublicKey then none
        else key.encodePrivateKey v.prvkeyBytes) ∧
      copy.encodeSeed 64 =
        if selected = 0 ∨ selected = selectPublicKey then none else key.encodeSeed 64 := by
  cases h with
  | nothing hsel h =>
    rw [if_pos hsel, if_pos (.inl hsel), if_pos (.inl hsel), encodePublicKey, encodePrivateKey,
      encodeSeed, havePubkey, havePrvkey, haveSeed, h.t_eq, h.s_eq, h.d_eq]
    exact ⟨rfl, rfl, rfl⟩
  | publicPart hsel pk hsrc h hs hz hd =>
    rw [if_neg (by rw [hsel]; decide), if_pos (.inr hsel), if_pos (.inr hsel), h.encodePublicKey,
      hsrc.encodePublicKey, encodePrivateKey, encodeSeed, havePrvkey, haveSeed, hs, hd]
    exact ⟨rfl, rfl, rfl⟩
  | privatePart hzero hsel sk hsrc hgen h hd hmem =>
    have hneither : ¬ (selected = 0 ∨ selected = selectPublicKey) := not_or.mpr ⟨hzero, hsel⟩
    rw [if_neg hzero, if_neg hneither, if_neg hneither, h.encodePublicKey, hsrc.encodePublicKey,
      h.encodePrivateKey, hsrc.encodePrivateKey, encodeSeed, encodeSeed, h.deref_z, hsrc.deref_z,
      haveSeed, haveSeed, hd]
    refine ⟨rfl, rfl, ?_⟩
    rcases hgen with hnone | ⟨hsome, -⟩
    · rw [hnone]
      rfl
    · rw [deref, deref, hsome, Option.map_some, Option.map_some, hmem]

/-! ## The theorem -/

variable (H) in
/-- Whatever is done to a key object, it is of exactly one of four kinds. A seed-only object returns
the seed that was stashed last. In a loaded object all coefficients are reduced, `seedbuf` holds the
matrix seed and the hash of the public key, and a seed that is still there generates the key. A
loaded object refuses to be loaded again and is not changed by that, and a copy of it has the
encodings that were selected. -/
theorem kem_key_classes (calls : List Invocation)
    (h : Along (perform H) (Generates H) calls (keyNew : Key v)) :
    let key : Key v := after (perform H) calls keyNew
    (∃! c, key.InClass c) ∧
    (key.InClass .seedOnly → ∃ seed, lastSeed H calls (keyNew : Key v) none = some seed ∧
      key.encodeSeed 64 = some seed) ∧
    (∀ t, key.t = some t → (∀ i j, t i j < q) ∧ (∀ s, key.s = some s → ∀ i j, s i j < q) ∧
      key.rho = some .seedbufLow ∧ key.pkhash = some .seedbufHigh ∧
      ∃ ek, key.encodePublicKey v.pubkeyBytes = some ek ∧
        key.deref key.pkhash = some (H.sha3_256 ek)) ∧
    (key.InClass .privateKey → ∀ d, key.deref key.d = some d →
      ∃ (z : Bytes) (hz : z.length = 32), key.deref key.z = some z ∧
        key.encodePublicKey v.pubkeyBytes = some (keyGen H v d z hz).pub.encode ∧
        key.encodePrivateKey v.prvkeyBytes = some ((keyGen H v d z hz).encode H)) ∧
    (key.t.isSome → ∀ i : Invocation, i.op.loads = true → (perform H i).run key = (none, key)) ∧
    ∀ ok selection copy key', (keyDup ok selection).run key = (some copy, key') →
      key' = key ∧
      copy.encodePublicKey v.pubkeyBytes =
        (if key.selected selection = 0 then none else key.encodePublicKey v.pubkeyBytes) ∧
      copy.encodePrivateKey v.prvkeyBytes =
        (if key.selected selection = 0 ∨ key.selected selection = selectPublicKey then none
        else key.encodePrivateKey v.prvkeyBytes) ∧
      copy.encodeSeed 64 =
        if key.selected selection = 0 ∨ key.selected selection = selectPublicKey then none
        else key.encodeSeed 64 := by
  intro key
  have hkey : key.Sound H (lastSeed H calls (keyNew : Key v) none) :=
    sound_after calls h (.empty empty_keyNew)
  refine ⟨hkey.existsUnique_inClass, hkey.seedOnly_of_inClass, fun t ht ↦ ?_, fun hc d hd ↦ ?_,
    fun ht ↦ perform_refused ht, fun ok selection copy key' hdup ↦ ⟨?_, ?_⟩⟩
  · obtain ⟨pk, hpk⟩ := hkey.holdsPublic (by rw [ht]; rfl)
    cases hpk.t_eq.symm.trans ht
    refine ⟨pk.t.repr_lt, fun s hs ↦ ?_, hpk.rho_eq, hpk.pkhash_eq, pk.encode, hpk.encodePublicKey,
      hpk.deref_pkhash⟩
    obtain ⟨sk, hsk, -⟩ := hkey.holdsPrivate (by rw [hs]; rfl)
    cases hsk.s_eq.symm.trans hs
    exact sk.s.repr_lt
  · obtain ⟨sk, hsk, hgen⟩ := hkey.holdsPrivate hc.2.1
    rcases hgen with hnone | ⟨hsome, d', hmem, hgen⟩
    · rw [hnone] at hd
      exact nomatch hd
    · rw [Key.deref, hsome, Option.map_some, hmem, Option.some.injEq] at hd
      subst hd
      refine ⟨sk.z, sk.length_z, hsk.deref_z, ?_, ?_⟩
      · rw [hgen, hsk.encodePublicKey]
      · rw [hgen, hsk.encodePrivateKey]
  · have hkeep : ((keyDup ok selection).run key).2 = key := keeps_keyDup selection key
    rwa [hdup] at hkeep
  · exact (copyOf_of_keyDup hkey hdup).encodings

variable (H) in
/-- An engine that computes KeyGen_internal. -/
def fips203Engine (v : Variant) : KeypairEngine := fun seed ↦
  if hseed : seed.length = 64 then
    some ((keyGenSeed H v seed hseed).pub.encode, (keyGenSeed H v seed hseed).encode H)
  else none

theorem correct_fips203Engine : (fips203Engine H v).Correct H v := by
  intro seed hseed pair h
  rw [fips203Engine, dif_pos hseed] at h
  exact (Option.some.inj h).symm

/-- A seed for examples. -/
def sevens : Bytes := List.replicate 64 7

theorem length_sevens : sevens.length = 64 := List.length_replicate

variable (H) in
/-- A seed is stashed, and a key is generated from it. -/
def generatedFromSeed (v : Variant) : List Invocation :=
  [⟨.setSeed sevens, fun _ ↦ true⟩, ⟨.generateKey (fips203Engine H v) none none, fun _ ↦ true⟩]

theorem along_generatedFromSeed :
    Along (perform H) (Generates H) (generatedFromSeed H v) (keyNew : Key v) := by
  refine ⟨fun _ _ _ h ↦ Op.noConfusion h, fun engine pubenc random h ↦ ?_, trivial⟩
  obtain ⟨rfl, -, -⟩ := Op.generateKey.inj h
  exact correct_fips203Engine

theorem after_generatedFromSeed :
    after (perform H) (generatedFromSeed H v) (keyNew : Key v) =
      (((keyNew : Key v).stashed sevens).loadedPrivate H .delegated
        (keyGenSeed H v sevens length_sevens)).withSeed sevens := by
  have hset : (perform H ⟨.setSeed sevens, fun _ ↦ true⟩).run (keyNew : Key v) =
      (some (), (keyNew : Key v).stashed sevens) :=
    (run_setSeed sevens keyNew).trans (if_pos ⟨rfl, rfl, length_sevens⟩)
  have hsource : ((keyNew : Key v).stashed sevens).seedSource none = some sevens :=
    (if_pos rfl).trans rfl
  have hengine : (fips203Engine H v sevens).isSome = true := by
    rw [fips203Engine, dif_pos length_sevens]
    rfl
  have hgenerate : (generateKey (fun _ ↦ true) (qudoGenkey H (fun _ ↦ true) (fips203Engine H v))
      none none).run ((keyNew : Key v).stashed sevens) = (some none, _) :=
    generateKey_eq_some.mpr ⟨⟨rfl, rfl⟩, rfl, ⟨rfl, rfl⟩, sevens, hsource,
      (qudoGenkey_eq_some correct_fips203Engine length_sevens).mpr
        ⟨⟨rfl, rfl, rfl, rfl⟩, hengine, rfl, rfl⟩⟩
  rw [generatedFromSeed, after_cons, hset, after_cons, after_nil, perform, run_bind,
    bind_of_eq_some _ hgenerate]
  rfl

/-- Hash functions for examples. -/
def zeroPrimitives : Primitives where
  sha3_256 _ := List.replicate 32 0
  sha3_512 _ := List.replicate 64 0
  shake256 _ _ := 0
  sampleNtt _ := 0
  length_sha3_256 _ := List.length_replicate
  length_sha3_512 _ := List.length_replicate

theorem kem_key_classes_generated :
    let key : Key .mlKem512 :=
      after (perform zeroPrimitives) (generatedFromSeed zeroPrimitives .mlKem512) keyNew
    key.InClass .privateKey ∧
      ∃ (z : Bytes) (hz : z.length = 32), key.deref key.z = some z ∧
        key.encodePrivateKey 1632 = some ((keyGen zeroPrimitives .mlKem512
          (sevens.take 32) z hz).encode zeroPrimitives) := by
  intro key
  have hkey : key = _ := after_generatedFromSeed
  have hclass : key.InClass .privateKey := by
    rw [hkey]
    exact ⟨rfl, rfl, rfl⟩
  have hd : key.deref key.d = some (sevens.take 32) := by
    rw [hkey]
    rfl
  obtain ⟨-, -, -, hgenerates, -⟩ := kem_key_classes zeroPrimitives
    (generatedFromSeed zeroPrimitives .mlKem512) along_generatedFromSeed
  obtain ⟨z, hz, hz', -, henc⟩ := hgenerates hclass _ hd
  exact ⟨hclass, z, hz, hz', henc⟩

end Histories

end Ossl

end MlKem
