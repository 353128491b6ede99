import QudoPqc.MlKem.KeyHistory

/-!
# Private material in released memory

What is left of `d`, of `z`, of `s` and of private encodings in the memory that the key functions
give back, and in the local seed of key generation.

Where `seedbuf` is zeroed depends on the pointers: adding storage clears it, and freeing the object
clears it if `d` is set and `s` is not. So the invariant is that nothing private is in `seedbuf`
unless `d` is set and there is no storage. Key generation breaks it: it sets `d` and `z` to `NULL`
as soon as it has copied a stashed seed, and the seed stays in `seedbuf` if no storage is added
then. Without a digest context it also returns with the copy as it is.

Resetting a seed-only object does nothing, so that the seed can still be read from it.
-/

namespace MlKem

open Codec Fallible Fallible.Traced

namespace Ossl

variable {v : Variant} {key : Key v} {e : Released}

/-! ## The invariant -/

/-- Nothing private is in `seedbuf`, unless the object is seed-only. -/
structure Key.Tidy (key : Key v) : Prop where
  s_eq : key.t = none → key.s = none
  z_eq : key.t = none → key.d = none → key.z = none
  clean : key.t.isSome ∨ key.d = none → key.Clean

theorem Key.Storing.tidy (h : key.Storing) : key.Tidy where
  s_eq := fun ht ↦ absurd h.t_isSome (by rw [ht]; exact Bool.false_ne_true)
  z_eq := fun ht ↦ absurd h.t_isSome (by rw [ht]; exact Bool.false_ne_true)
  clean := fun _ ↦ h.clean

theorem Key.Emptied.tidy (h : key.Emptied) : key.Tidy where
  s_eq := fun _ ↦ h.s_eq
  z_eq := fun _ _ ↦ h.z_eq
  clean := fun _ ↦ h.clean

theorem emptied_keyNew : (keyNew : Key v).Emptied := ⟨empty_keyNew, rfl, rfl⟩

/-- If freeing the object does not zero `seedbuf`, nothing private is in it. -/
theorem Key.Tidy.clean_of_not_decodedKey (h : key.Tidy) (hdec : key.decodedKey = false) :
    key.Clean := by
  rw [decodedKey, Bool.or_eq_false_iff, Bool.and_eq_false_iff] at hdec
  refine h.clean ?_
  cases ht : key.t with
  | some t => exact .inl rfl
  | none =>
    rcases hdec.2 with hs | hd
    · rw [h.s_eq ht] at hs
      exact nomatch hs.symm
    · exact .inr (Option.not_isSome_iff_eq_none.mp (Bool.eq_false_iff.mp hd))

theorem Key.Tidy.stashed (h : key.Tidy) (ht : key.t = none) (seed : Bytes) :
    (key.stashed seed).Tidy where
  s_eq := fun _ ↦ h.s_eq ht
  z_eq := nofun
  clean := by
    rintro (hsome | hd)
    · rw [Key.stashed, ht] at hsome
      exact nomatch hsome
    · exact nomatch hd

/-- Resetting an object that is not seed-only leaves nothing private in it. -/
theorem Key.Tidy.reset_private (h : key.Tidy) (hkey : key.t.isSome ∨ key.d = none) :
    key.reset.s = none ∧ key.reset.z = none ∧ key.reset.d = none ∧ key.reset.Clean := by
  have hclean : key.reset.Clean := (h.clean hkey).reset
  cases ht : key.t with
  | none =>
    have hd : key.d = none := hkey.resolve_left (by rw [ht]; exact Bool.false_ne_true)
    rw [Key.reset_of_none ht] at hclean ⊢
    exact ⟨h.s_eq ht, h.z_eq ht hd, hd, hclean⟩
  | some t =>
    rw [Key.reset_of_isSome (by rw [ht]; rfl)] at hclean ⊢
    exact ⟨rfl, rfl, rfl, hclean⟩

theorem Key.Tidy.reset (h : key.Tidy) : key.reset.Tidy := by
  cases ht : key.t with
  | none =>
    rw [Key.reset_of_none ht]
    exact h
  | some t =>
    obtain ⟨hs, hz, -, hclean⟩ := h.reset_private (.inl (by rw [ht]; rfl))
    exact ⟨fun _ ↦ hs, fun _ _ ↦ hz, fun _ ↦ hclean⟩

/-! ## What is always zeroed -/

theorem wiped_cleanse (held : Held) (bs : Bytes) :
    (Contents.released ⟨held, cleanse bs⟩).Wiped := by
  intro _ x hx
  simp only [Contents.released, cleanse, List.map_map, List.mem_map] at hx
  obtain ⟨_, -, rfl⟩ := hx
  rfl

theorem wiped_of_public {c : Contents} (h : c.held.secret = false) : c.released.Wiped := fun hc ↦
  nomatch (h.symm.trans hc)

theorem wiped_coeffs_zero (held : Held) {n : ℕ} :
    (⟨held, coeffs fun (_ : Fin n) _ ↦ 0⟩ : Released).Wiped := by
  intro _ x hx
  simp only [coeffs, List.mem_flatten, List.mem_ofFn] at hx
  obtain ⟨_, ⟨i, rfl⟩, hx⟩ := hx
  obtain ⟨j, rfl⟩ := List.mem_ofFn.mp hx
  rfl

theorem Key.Clean.wiped_seedbufReleased (h : key.Clean) : ∀ e ∈ key.seedbufReleased, e.Wiped := by
  intro e he
  rcases List.mem_cons.mp he with rfl | he
  · exact wiped_of_public h.1
  · obtain rfl := List.mem_singleton.mp he
    exact wiped_of_public h.2

theorem wiped_storageReleased_cleansePrv (key : Key v) :
    ∀ e ∈ key.cleansePrv.storageReleased, e.Wiped := by
  intro e he
  rw [Key.cleansePrv] at he
  cases hs : key.s with
  | none =>
    rw [if_neg (by rw [Key.havePrvkey, hs]; exact Bool.false_ne_true), Key.storageReleased,
      hs] at he
    exact absurd he List.not_mem_nil
  | some s =>
    rw [if_pos (by rw [Key.havePrvkey, hs]; rfl)] at he
    rcases List.mem_cons.mp he with rfl | he
    · exact wiped_coeffs_zero .s
    rcases List.mem_cons.mp he with rfl | he
    · exact wiped_of_public rfl
    · obtain rfl := List.mem_singleton.mp he
      exact wiped_of_public rfl

theorem emits_clearFree (held : Held) (bs : Option Bytes) :
    Emits Released.Wiped (clearFree held bs : Proc v _) := by
  refine .emit fun e he ↦ ?_
  obtain ⟨bs, -, rfl⟩ := List.mem_map.mp he
  exact wiped_cleanse held bs

theorem emits_keyReset : Emits Released.Wiped (keyReset : Proc v _) := by
  intro key e he
  rw [keyReset, mem_events_fetch_bind] at he
  split at he
  · exact absurd he List.not_mem_nil
  · rw [mem_events_update_bind, mem_events_fetch_bind, mem_events_emit_bind,
      mem_events_update, or_false] at he
    exact wiped_storageReleased_cleansePrv key e he

/-- Freeing an object that keeps the invariant. -/
theorem Key.Tidy.wiped_keyFree (h : key.Tidy) : ∀ e ∈ keyFree.events key, e.Wiped := by
  have hend {key : Key v} (hclean : key.Clean) :
      ∀ e ∈ (keyReset >>= fun _ ↦ fetch >>= fun key ↦ emit key.seedbufReleased).events key,
        e.Wiped := by
    intro e he
    rcases mem_events_bind.mp he with he | ⟨_, key', hrun, he⟩
    · exact emits_keyReset key e he
    · cases (run_keyReset key).symm.trans hrun
      exact hclean.reset.wiped_seedbufReleased e he
  intro e he
  rw [keyFree, mem_events_fetch_bind] at he
  cases hdec : key.decodedKey with
  | false =>
    rw [hdec] at he
    rcases mem_events_bind.mp he with he | ⟨_, key', hrun, he⟩
    · exact absurd he List.not_mem_nil
    · obtain ⟨-, rfl⟩ := Act.pure_eq_some.mp hrun
      exact hend (h.clean_of_not_decodedKey hdec) e he
  | true =>
    rw [hdec] at he
    rcases mem_events_bind.mp he with he | ⟨_, key', hrun, he⟩
    · rw [if_pos rfl, mem_events_update_bind] at he
      exact Emits.forSome (fun _ ↦ .emit fun _ he ↦ List.mem_singleton.mp he ▸ wiped_cleanse _ _)
        _ e he
    · refine hend ?_ e he
      rw [if_pos rfl, run_bind, run_update, Act.update_bind, run_forSome] at hrun
      cases hdk : key.encodedDk with
      | none =>
        rw [hdk] at hrun
        obtain ⟨-, rfl⟩ := Act.pure_eq_some.mp hrun
        exact ⟨rfl, rfl⟩
      | some dk =>
        rw [hdk] at hrun
        obtain ⟨-, rfl⟩ := Act.pure_eq_some.mp hrun
        exact ⟨rfl, rfl⟩

section Operations

variable {E : Released → Prop} (H : Primitives) (build : Build) (ok : Call → Bool)

theorem emits_addStorage (p : Option (Storage v)) (priv : Bool) :
    Emits E (addStorage p priv) := .ofOption_bind fun _ ↦ .ofAct _

theorem emits_store (ptr : Key v → Option Place) (c : Contents) : Emits E (store ptr c) :=
  .fetch_bind fun _ ↦ .ofOption_bind fun _ ↦ .ofAct _

theorem emits_parsePubkey (input : Bytes) :
    Emits E (parsePubkey H build ok input : Proc v _) := by
  refine .ofOption_bind fun _ ↦ .update_bind <| .bind (emits_store _ _) fun _ ↦ .require_bind <|
    .bind (emits_store _ _) fun _ ↦ ?_
  cases build with
  | upstream => exact .require_bind <| .ofAct _
  | delegated => exact .ofAct _

theorem emits_parsePrvkey (input : Bytes) :
    Emits E (parsePrvkey H build ok input : Proc v _) :=
  .ofOption_bind fun _ ↦ .update_bind <| .bind (emits_parsePubkey H build ok _) fun _ ↦
    .fetch_bind fun _ ↦ .ofOption_bind fun _ ↦ .require_bind <| emits_store _ _

theorem emits_parsePublicKey (input : Bytes) :
    Emits Released.Wiped (parsePublicKey H build ok input : Proc v _) :=
  .fetch_bind fun _ ↦ .require_bind <| .require_bind <| .onFailure
    (.bind (emits_addStorage _ _) fun _ ↦ emits_parsePubkey H build ok _) emits_keyReset

theorem emits_parsePrivateKey (input : Bytes) :
    Emits Released.Wiped (parsePrivateKey H build ok input : Proc v _) :=
  .fetch_bind fun _ ↦ .require_bind <| .require_bind <| .onFailure
    (.bind (emits_addStorage _ _) fun _ ↦ emits_parsePrvkey H build ok _) emits_keyReset

theorem emits_setSeed (seed : Bytes) : Emits E (setSeed seed : Proc v _) :=
  .fetch_bind fun _ ↦ .require_bind <| .update_bind <| .bind (emits_store _ _) fun _ ↦
    emits_store _ _

theorem emits_storeSeed (seed : Bytes) : Emits E (storeSeed seed : Proc v _) :=
  .bind (emits_store _ _) fun _ ↦ .update_bind <| .fetch_bind fun _ ↦
    .ite (emits_store _ _) (.bind (emits_store _ _) fun _ ↦ .ofAct _)

theorem emits_qudoGenkey (engine : KeypairEngine) (seed : Bytes) (pubenc : Bool) :
    Emits Released.Wiped (qudoGenkey H ok engine seed pubenc : Proc v _) :=
  .require_bind <| .require_bind <| .cleanup
    (.require_bind <| .ofOption_bind fun _ ↦ .bind (emits_parsePrvkey H _ ok _) fun _ ↦
      .bind (emits_storeSeed _) fun _ ↦ .pure _)
    (emits_clearFree _ _)

theorem emits_qudoDecap (engine : DecapsEngine) (ctext : Bytes) :
    Emits Released.Wiped (qudoDecap ok engine ctext : Proc v _) :=
  .require_bind <| .require_bind <| .fetch_bind fun _ ↦
    .cleanup (.ofOption_bind fun _ ↦ .ofAct _) (emits_clearFree _ _)

theorem emits_decapsulate {decap : Bytes → Proc v Bytes}
    (hdecap : ∀ ctext, Emits E (decap ctext)) (slen : ℕ) (ctext : Bytes) :
    Emits E (decapsulate ok decap slen ctext) :=
  .fetch_bind fun _ ↦ .require_bind <| .require_bind <| hdecap ctext

theorem emits_takeSeed (random : Option Seed) : Emits E (takeSeed random : Proc v _) :=
  .fetch_bind fun _ ↦ .ite (.ofOption_bind fun _ ↦ .update_bind <| .pure _)
    (.ofOption_bind fun _ ↦ .pure _)

/-! ## Key generation -/

/-- All that key generation leaves is its seed, if there is no digest context. -/
theorem mem_events_generateKey
    {genkey : Bytes → Bool → Proc v (Option Bytes)}
    (hgenkey : ∀ seed pubenc, Emits Released.Wiped (genkey seed pubenc)) {pubenc : Option ℕ}
    {random : Option Seed} (he : e ∈ (generateKey ok genkey pubenc random).events key) :
    e.Wiped ∨ TakesSeed pubenc random key ∧ ok .mdCtxNew = false := by
  rw [generateKey, mem_events_fetch_bind, mem_events_require_bind, mem_events_require_bind,
    Bool.and_eq_true, Key.unloaded_iff] at he
  obtain ⟨hun, hlen, he⟩ := he
  rcases mem_events_bind.mp he with he | ⟨seed, key', hrun, he⟩
  · exact .inl (emits_takeSeed random key e he)
  have hseed : key.seedSource random = some seed :=
    ((takeSeed_ends random key key rfl).1 seed (by rw [hrun])).1
  cases hctx : ok .mdCtxNew with
  | false => exact .inr ⟨⟨hun, hlen, by rw [hseed]; rfl⟩, rfl⟩
  | true =>
    rw [hctx] at he
    rcases mem_events_bind.mp he with he | ⟨_, key', hrun, he⟩
    · exact absurd he List.not_mem_nil
    · refine .inl (Emits.onFailure (.cleanup (.bind (emits_addStorage _ _) fun _ ↦ hgenkey _ _) ?_)
        emits_keyReset key' e he)
      exact .emit fun _ he ↦ List.mem_singleton.mp he ▸ wiped_cleanse _ _

/-! ## Duplication -/

/-- What `ossl_ml_kem_key_dup` selects is copied into new storage, or not at all. -/
theorem dupSelected_ends (src : Key v) (selected : UInt32) (hdk : key.encodedDk = none) :
    Act.Triple (· = key) (dupSelected ok src selected).run
      (fun _ key' ↦ key' = key ∨ key'.Storing) (· = key) := by
  have hadd (priv : Bool) : Act.Triple (· = key) (addStorage (dupStorage ok src priv) priv).run
      (fun _ ↦ Key.Storing) (· = key) := by
    rw [addStorage, run_bind, run_ofOption]
    refine .ofOption_keep fun p _ ↦ .update ?_
    rintro _ rfl
    exact Key.storing_addStorage hdk p priv
  rw [dupSelected]
  split
  · exact .pure fun _ h ↦ .inl h
  split
  · exact (hadd false).mono (fun _ ↦ id) (fun _ _ ↦ .inr) fun _ ↦ id
  rw [dupPrivate, run_bind]
  refine .bind (hadd true) fun _ ↦ ?_
  split
  · refine .update fun key' h ↦ .inr { h with d_eq := ?_ }
    intro p hp
    obtain ⟨p', hp', rfl⟩ := Option.map_eq_some_iff.mp hp
    rw [h.z_eq p' hp', Place.next]
  · exact .pure fun _ ↦ .inr

theorem tidy_store {ptr : Key v → Option Place} {c : Contents} (hc : c.held.secret = false) :
    Act.Triple Key.Tidy (store ptr c).run (fun _ ↦ Key.Tidy) Key.Tidy := by
  rw [run_store]
  refine .fetch_bind_any fun _ ↦ .ofOption_keep fun p _ ↦ .update fun key h ↦ ?_
  exact ⟨h.s_eq, h.z_eq, fun hkey ↦ (h.clean hkey).write fun hc' ↦
    nomatch (hc.symm.trans hc')⟩

/-- A copy keeps the invariant. -/
theorem dupInto_ends (src : Key v) (selection : UInt32) (hempty : key.Emptied) :
    Act.Triple (· = key) (dupInto ok src selection).run (fun _ ↦ Key.Tidy) fun _ ↦ True := by
  rw [dupInto, run_bind, run_onFailure]
  refine .bind (Q := fun _ ↦ Key.Tidy)
    (.onFailure ((dupSelected_ends ok src _ hempty.encodedDk_eq).mono (fun _ ↦ id) ?_ fun _ ↦ id)
      fun _ _ ↦ trivial) fun _ ↦ ?_
  · rintro _ key' (rfl | h)
    · exact hempty.tidy
    · exact h.tidy
  split
  · simp only [restoreSeedbuf, run_bind, run_ofOption]
    refine .mono (R := Key.Tidy) (.ofOption_keep fun _ _ ↦ .bind (tidy_store rfl) fun _ ↦
      .ofOption_keep fun _ _ ↦ tidy_store rfl) (fun _ ↦ id) (fun _ _ ↦ id) fun _ _ ↦ trivial
  · exact .pure fun _ h ↦ h

theorem Key.Tidy.emptied_shell (h : key.Tidy) (hdec : key.decodedKey = false) :
    key.shell.Emptied := by
  refine ⟨⟨rfl, rfl, rfl, rfl, ?_⟩, h.clean_of_not_decodedKey hdec⟩
  rw [decodedKey, Bool.or_eq_false_iff] at hdec
  exact Option.not_isSome_iff_eq_none.mp (Bool.eq_false_iff.mp hdec.1)

/-- The object that could not be copied is freed as it is. -/
theorem Key.Tidy.wiped_keyDup (h : key.Tidy) (selection : UInt32) :
    ∀ e ∈ (keyDup ok selection).events key, e.Wiped := by
  intro e he
  rw [keyDup, mem_events_fetch_bind, mem_events_require_bind, mem_events_require_bind,
    Bool.not_eq_true'] at he
  obtain ⟨hdec, -, he⟩ := he
  have hshell := h.emptied_shell hdec
  change e ∈ (dupInto ok key selection).events key.shell at he
  rcases mem_events_bind.mp he with he | ⟨_, key', -, he⟩
  · rcases mem_events_onFailure.mp he with he | ⟨hnone, he⟩
    · refine (Emits.ite (E := fun _ ↦ False) (.pure _) (.ite (emits_addStorage _ _) ?_) _ e he).elim
      exact .bind (emits_addStorage _ _) fun _ ↦ .ite (.ofAct _) (.pure _)
    · rw [(dupSelected_ends ok key _ hshell.encodedDk_eq _ rfl).2 hnone] at he
      exact hshell.clean.wiped_seedbufReleased e he
  · refine (Emits.ite (E := fun _ ↦ False) ?_ (.pure _) key' e he).elim
    exact .ofOption_bind fun _ ↦ .bind (emits_store _ _) fun _ ↦ .ofOption_bind fun _ ↦
      emits_store _ _

theorem Key.Tidy.keyDup (h : key.Tidy) {selection : UInt32} {copy key' : Key v}
    (hdup : (Ossl.keyDup ok selection).run key = (some copy, key')) : copy.Tidy := by
  obtain ⟨hdec, u, hinto⟩ := keyDup_eq_some hdup
  have hends := (dupInto_ends ok key selection (h.emptied_shell hdec) _ rfl).1 u (by rw [hinto])
  rwa [hinto] at hends

end Operations

/-! ## Histories -/

section Histories

variable (H : Primitives)

/-- What the operations of a history release, and `ossl_ml_kem_key_free` at its end. -/
def released (v : Variant) (calls : List Invocation) : List Released :=
  eventsOf (perform H) calls (keyNew : Key v) ++
    keyFree.events (after (perform H) calls (keyNew : Key v))

/-- Key generation that has a seed gets a digest context, and storage if the seed was stashed. -/
def Provided (i : Invocation) (key : Key v) : Prop :=
  ∀ engine pubenc random, i.op = .generateKey engine pubenc random →
    TakesSeed pubenc random key →
    i.ok .mdCtxNew = true ∧ (key.haveSeed = true → i.ok .allocStorage = true)

theorem Key.Tidy.generateKey {ok : Call → Bool} (h : key.Tidy) {engine : KeypairEngine}
    {pubenc : Option ℕ} {random : Option Seed}
    (hi : Provided ⟨.generateKey engine pubenc random, ok⟩ key) :
    ((Ossl.generateKey ok (qudoGenkey H ok engine) pubenc random).run key).2.Tidy := by
  have hends : Act.Triple (· = key)
      (Ossl.generateKey ok (qudoGenkey H ok engine) pubenc random).run (fun _ ↦ Key.Tidy)
      Key.Tidy := by
    refine (generateKey_ends ok (storing_qudoGenkey H ok engine) pubenc random key).mono
      (fun _ ↦ id) (fun _ _ ↦ Key.Storing.tidy) ?_
    rintro key' (rfl | ⟨⟨htakes, hfails⟩, rfl⟩ | hempty)
    · exact h
    · obtain ⟨hctx, halloc⟩ := hi engine pubenc random rfl htakes
      rcases hfails with hfails | hfails
      · exact nomatch (hfails.symm.trans hctx)
      · have hseed : ¬ key.haveSeed = true := fun hseed ↦
          Bool.false_ne_true (hfails.symm.trans (halloc hseed))
        rw [Key.seedTaken, if_neg hseed]
        exact h
    · exact hempty.tidy
  exact hends.final rfl

/-- The parsers store a key, leave the object as it was, or empty it. -/
theorem Key.Tidy.parse {x : Act (Key v) Unit} (h : key.Tidy)
    (hx : Act.Triple (· = key) x (fun _ ↦ Key.Storing) fun key' ↦ key' = key ∨ key'.Emptied) :
    (x key).2.Tidy := by
  have hends : Act.Triple (· = key) x (fun _ ↦ Key.Tidy) Key.Tidy := by
    refine hx.mono (fun _ ↦ id) (fun _ _ ↦ Key.Storing.tidy) ?_
    rintro key' (rfl | hempty)
    · exact h
    · exact hempty.tidy
  exact hends.final rfl

theorem tidy_perform (i : Invocation) (hi : Provided i key) (h : key.Tidy) :
    ((perform H i).run key).2.Tidy := by
  obtain ⟨op, ok⟩ := i
  cases op with
  | setSeed seed =>
    rw [perform, run_setSeed]
    split
    next hset => exact h.stashed hset.1 seed
    next => exact h
  | parsePublicKey input => exact h.parse (parsePublicKey_ends H .delegated ok input key)
  | parsePrivateKey input => exact h.parse (parsePrivateKey_ends H .delegated ok input key)
  | generateKey engine pubenc random =>
    rw [perform, run_bind, run_pure, Act.bind_pure_snd]
    exact h.generateKey H hi
  | decapsulate engine slen ctext =>
    rw [perform, run_bind, run_pure, Act.bind_pure_snd]
    have hkeep : ((decapsulate ok (qudoDecap ok engine) slen ctext).run key).2 = key :=
      keeps_decapsulate ok engine slen ctext key
    rw [hkeep]
    exact h
  | keyDup selection onCopy => exact perform_keyDup H onCopy h fun _ _ hdup ↦ h.keyDup ok hdup
  | keyReset =>
    rw [perform, run_keyReset]
    exact h.reset

theorem Key.Tidy.wiped_perform (h : key.Tidy) {i : Invocation} (hi : Provided i key) :
    ∀ e ∈ (perform H i).events key, e.Wiped := by
  intro e he
  obtain ⟨op, ok⟩ := i
  cases op with
  | setSeed seed => exact emits_setSeed seed key e he
  | parsePublicKey input => exact emits_parsePublicKey H .delegated ok input key e he
  | parsePrivateKey input => exact emits_parsePrivateKey H .delegated ok input key e he
  | generateKey engine pubenc random =>
    rcases mem_events_bind.mp he with he | ⟨_, _, -, he⟩
    · rcases mem_events_generateKey ok (emits_qudoGenkey H ok engine) he with he | ⟨htakes, hctx⟩
      · exact he
      · exact nomatch (hctx.symm.trans (hi engine pubenc random rfl htakes).1)
    · exact absurd he List.not_mem_nil
  | decapsulate engine slen ctext =>
    exact Emits.bind (emits_decapsulate ok (emits_qudoDecap ok engine) slen ctext)
      (fun _ ↦ .pure _) key e he
  | keyDup selection onCopy =>
    have hkeep : ((Ossl.keyDup ok selection).run key).2 = key := keeps_keyDup selection key
    rcases mem_events_bind.mp he with hcopying | ⟨copy, key', hdup, hfreeing⟩
    · exact h.wiped_keyDup ok selection e hcopying
    rw [hdup] at hkeep
    obtain rfl : key' = key := hkeep
    -- the one of the two that is not gone on with is freed
    cases onCopy with
    | true =>
      rcases mem_events_bind.mp hfreeing with hfree | ⟨_, _, -, hrest⟩
      · exact h.wiped_keyFree e hfree
      · exact absurd hrest List.not_mem_nil
    | false =>
      rcases mem_events_bind.mp hfreeing with hfree | ⟨_, _, -, hrest⟩
      · exact (h.keyDup ok hdup).wiped_keyFree e hfree
      · exact absurd hrest List.not_mem_nil
  | keyReset => exact emits_keyReset key e he

/-- If key generation that has a seed always gets a digest context, and storage for a stashed seed,
then nothing private is left in released memory or in the local seed; and resetting the object,
unless it is seed-only, leaves nothing private in it. -/
theorem kem_secrets_wiped (calls : List Invocation)
    (h : Along (perform H) Provided calls (keyNew : Key v)) :
    (∀ e ∈ released H v calls, e.Wiped) ∧
      let key : Key v := after (perform H) calls keyNew
      (key.t.isSome ∨ key.d = none) →
        let key' : Key v := (keyReset.run key).2
        key'.s = none ∧ key'.z = none ∧ key'.d = none ∧ key'.Clean := by
  have htidy : (after (perform H) calls (keyNew : Key v)).Tidy :=
    h.invariant (fun i key ↦ tidy_perform H i) emptied_keyNew.tidy
  refine ⟨fun e he ↦ ?_, fun hkey ↦ ?_⟩
  · rcases List.mem_append.mp he with he | he
    · have hboth := h.of_invariant (Q := fun i key ↦ Provided i key ∧ key.Tidy)
        (fun i key ↦ tidy_perform H i) (fun _ _ hi htidy ↦ ⟨hi, htidy⟩) emptied_keyNew.tidy
      exact hboth.events (fun i key hi ↦ hi.2.wiped_perform H hi.1) e he
    · exact htidy.wiped_keyFree e he
  · rw [run_keyReset]
    exact htidy.reset_private hkey

theorem kem_secrets_wiped_generated :
    (∀ e ∈ released zeroPrimitives .mlKem512 (generatedFromSeed zeroPrimitives .mlKem512),
      e.Wiped) ∧
      let key : Key .mlKem512 := (keyReset.run (after (perform zeroPrimitives)
        (generatedFromSeed zeroPrimitives .mlKem512) keyNew)).2
      key.s = none ∧ key.z = none ∧ key.d = none ∧ key.Clean := by
  have hprovided : Along (perform zeroPrimitives) Provided
      (generatedFromSeed zeroPrimitives .mlKem512) (keyNew : Key .mlKem512) :=
    ⟨fun _ _ _ h ↦ Op.noConfusion h, fun _ _ _ _ _ ↦ ⟨rfl, fun _ ↦ rfl⟩, trivial⟩
  obtain ⟨hwiped, hreset⟩ := kem_secrets_wiped zeroPrimitives _ hprovided
  refine ⟨hwiped, hreset (.inl ?_)⟩
  rw [after_generatedFromSeed]
  rfl

/-- A seed is stashed, and there is no digest context for key generation. -/
def withoutContext : List Invocation :=
  [⟨.setSeed sevens, fun _ ↦ true⟩, ⟨.generateKey (fun _ ↦ none) none none, (· != .mdCtxNew)⟩]

/-- The copy of the seed is left as it is, and so is the seed itself when the object is freed. And
a stashed seed can still be read after the object has been reset. -/
theorem kem_seed_left :
    (∃ e ∈ released zeroPrimitives .mlKem512 withoutContext, e.held = .seed ∧ ¬ e.Wiped) ∧
      (∃ e ∈ released zeroPrimitives .mlKem512 withoutContext, e.held = .d ∧ ¬ e.Wiped) ∧
      (keyReset.run (after (perform zeroPrimitives) [⟨.setSeed sevens, fun _ ↦ true⟩]
        (keyNew : Key .mlKem512))).2.encodeSeed 64 = some sevens := by
  decide

end Histories

end Ossl

end MlKem
