import QudoPqc.Random.Generator

/-!
# The reseed interval

`qudo_fips_rand_bytes` counts its requests and asks for fresh entropy once the count has reached
`RESEED_INTERVAL`. The count goes up before the entropy is there and stays up when none comes, so it
counts the refused requests as well as the served ones.

## The invariant

For a generator in use, `genCount` is the number of requests served and refused since the last
seeding, less one if that seeding was made by a request, which resets the count after it has counted
itself (`Counted`). While the refused requests of one interval stay below `2 ^ 32 - 2 ^ 20` the
32-bit count cannot wrap, and a request is served only below the interval.
-/

namespace Random

open Fallible Fallible.Act Monitor

variable {A : AesLayer}

/-! ## The DRBG under its wrapper -/

theorem ctrdrbgInit_fips (ctx : Ctx A) {seed : Bytes} (h : seed.length = fipsRandSeedlen) :
    (ctrdrbgInit ctx 32 (some seed)).1 = true ∧
      (ctrdrbgInit ctx 32 (some seed)).2.mode = (true, fipsRandSeedlen) := by
  have hlen : ¬ seed.length ≠ 32 + 16 := not_not.mpr h
  rw [ctrdrbgInit, if_neg (by decide), if_neg hlen]
  refine ⟨rfl, ?_⟩
  have hseedlen := congrArg Prod.snd (mode_ctrUpdate (inc128 { ctx with
    keylen := 32, seedlen := seed.length, K := List.replicate 32 0, V := List.replicate 16 0
    length_K := List.length_replicate, length_V := List.length_replicate
    aes := A.setEncryptKey (List.replicate 32 0) (32 * 8) }) seed)
  exact Prod.ext rfl (hseedlen.trans h)

theorem ctrdrbgReseed_fips {ctx : Ctx A} {seed : Bytes}
    (hmode : ctx.mode = (true, fipsRandSeedlen)) (h : seed.length = fipsRandSeedlen) :
    (ctrdrbgReseed ctx (some seed)).1 = true ∧
      (ctrdrbgReseed ctx (some seed)).2.mode = (true, fipsRandSeedlen) := by
  obtain ⟨hinit, hseedlen⟩ := Prod.mk.inj hmode
  rw [ctrdrbgReseed, hinit, if_neg (by decide), if_neg (not_not.mpr (h.trans hseedlen.symm))]
  exact ⟨rfl, by rw [mode_ctrUpdate, mode_inc128, hmode]⟩

theorem ctrdrbgGenerate_fips {ctx : Ctx A} (hmode : ctx.mode = (true, fipsRandSeedlen))
    {outLen : ℕ} (h : outLen ≤ maxRequest) :
    (ctrdrbgGenerate ctx true outLen none).1.isSome = true ∧
      (ctrdrbgGenerate ctx true outLen none).2.mode = (true, fipsRandSeedlen) := by
  obtain ⟨hinit, hseedlen⟩ := Prod.mk.inj hmode
  rw [ctrdrbgGenerate_accepted hinit h (Or.inl rfl) (Nat.zero_le _)]
  exact ⟨rfl, by simp [hmode]⟩

theorem length_platformEntropy (E : Entropy) (len : ℕ) (s : Rand A) (out : Bytes)
    (h : (platformEntropy E len s).1 = some out) : out.length = len := by
  have hread : ∀ s t : Rand A, (do
      let out ← rawPlatformEntropy E len
      onFailure (checkHealth out) entropyHealthFail
      pure out : Act (Rand A) Bytes) s = (some out, t) → out.length = len := by
    intro s t hrun
    obtain ⟨out', r, hraw, hrest⟩ := bind_eq_some.mp hrun
    obtain ⟨-, r', -, hpure⟩ := bind_eq_some.mp hrest
    obtain ⟨rfl, -⟩ := pure_eq_some.mp hpure
    rw [rawPlatformEntropy, fetch_bind, update_bind] at hraw
    exact E.length_read (congrArg Prod.fst hraw)
  have hrun : platformEntropy E len s = (some out, (platformEntropy E len s).2) := Prod.ext h rfl
  rw [platformEntropy, fetch_bind, require_bind_eq_some] at hrun
  obtain ⟨-, hrun⟩ := hrun
  split at hrun
  · obtain ⟨-, r, -, hrest⟩ := bind_eq_some.mp hrun
    rw [update_bind] at hrest
    exact hread _ _ hrest
  · exact hread _ _ hrun

/-! ## The count -/

/-- Fewer than `2 ^ 32 - 2 ^ 20` requests of each interval are refused for want of entropy. -/
def Fed (log : List Event) : Prop := PerEpoch .seeded .starved (2 ^ 32 - 2 ^ 20 - 1) log

/-- The bookkeeping of a generator in use, with `pending` requests counted that are not logged. -/
structure Counted (pending : ℕ) (s : Rand A) : Prop where
  mode : s.drbg.mode = (true, fipsRandSeedlen)
  perEpoch : PerEpoch .seeded .generated reseedInterval s.log
  count : ∃ d ≤ 1,
    s.genCount + d =
        (epoch .seeded s.log).count .generated + (epoch .seeded s.log).count .starved + pending ∧
      (epoch .seeded s.log).count .generated + 1 ≤ reseedInterval + d

/-- A generator in use, with its bookkeeping in order as long as it has been fed. -/
def InUse (pending : ℕ) (s : Rand A) : Prop :=
  s.ready = true ∧ (Fed s.log → Counted pending s)

namespace Counted

variable {s : Rand A}

/-- A seeding starts the count again. -/
theorem seeded {drbg : Ctx A} (h : PerEpoch .seeded .generated reseedInterval s.log)
    (hmode : drbg.mode = (true, fipsRandSeedlen)) (hzero : s.genCount = 0) {d : ℕ} (hd : d ≤ 1) :
    Counted d { s with drbg := drbg, log := .seeded :: s.log } where
  mode := hmode
  perEpoch := h.cons (by rw [epoch_cons_self]; exact Nat.zero_le _)
  count := by
    refine ⟨d, hd, by simp [hzero], ?_⟩
    rw [epoch_cons_self]
    exact Nat.le_add_right_of_le (by decide)

/-- A refused request is counted and logged. -/
theorem starved (h : Counted 1 s) : Counted 0 { s with log := .starved :: s.log } where
  mode := h.mode
  perEpoch := by
    refine h.perEpoch.cons ?_
    rw [epoch_cons_of_ne (by decide), List.count_cons_of_ne (by decide)]
    exact h.perEpoch.count_epoch_le
  count := by
    obtain ⟨d, hd, hcount, hbound⟩ := h.count
    refine ⟨d, hd, ?_, ?_⟩
    · rw [epoch_cons_of_ne (by decide), List.count_cons_of_ne (by decide), List.count_cons_self]
      omega
    · rwa [epoch_cons_of_ne (by decide), List.count_cons_of_ne (by decide)]

/-- A request served below the interval is counted and logged. -/
theorem generated {drbg : Ctx A} (h : Counted 1 s) (hmode : drbg.mode = (true, fipsRandSeedlen))
    (hlt : s.genCount < reseedInterval) :
    Counted 0 { s with drbg := drbg, log := .generated :: s.log } := by
  obtain ⟨d, hd, hcount, hbound⟩ := h.count
  have hgen : (epoch .seeded (.generated :: s.log)).count .generated =
      (epoch .seeded s.log).count .generated + 1 := by
    rw [epoch_cons_of_ne (by decide), List.count_cons_self]
  refine ⟨hmode, h.perEpoch.cons ?_, d, hd, ?_, ?_⟩
  · rw [hgen]
    omega
  · change s.genCount + d = _
    rw [hgen, epoch_cons_of_ne (by decide), List.count_cons_of_ne (by decide)]
    omega
  · rw [hgen]
    omega

end Counted

/-! ## One request -/

/-- In a fed interval the 32-bit count does not wrap. -/
theorem InUse.count {s : Rand A} (h : InUse 0 s) :
    InUse 1 { s with genCount := (s.genCount + 1) % 2 ^ 32 } := by
  refine ⟨h.1, fun hfed ↦ ?_⟩
  obtain ⟨hmode, hperEpoch, d, hd, hcount, hbound⟩ := h.2 hfed
  have hstarved := PerEpoch.count_epoch_le hfed
  have hinterval : reseedInterval = 2 ^ 20 := rfl
  have hlt : s.genCount + 1 < 2 ^ 32 := by
    change (epoch .seeded s.log).count .starved ≤ _ at hstarved
    omega
  refine ⟨hmode, hperEpoch, d, hd, ?_, hbound⟩
  change (s.genCount + 1) % 2 ^ 32 + d =
    (epoch .seeded s.log).count .generated + (epoch .seeded s.log).count .starved + 1
  rw [Nat.mod_eq_of_lt hlt]
  omega

theorem InUse.of_core_eq {p : ℕ} {s t : Rand A} (hcore : t.core = s.core) (h : InUse p s) :
    InUse p t := by
  simp only [Rand.core, Prod.mk.injEq] at hcore
  obtain ⟨hdrbg, hready, hcount, hlog⟩ := hcore
  refine ⟨hready.trans h.1, fun hfed ↦ ?_⟩
  obtain ⟨hmode, hperEpoch, hcounted⟩ := h.2 (hlog ▸ hfed)
  rw [← hdrbg] at hmode
  rw [← hlog] at hperEpoch
  rw [← hcount, ← hlog] at hcounted
  exact ⟨hmode, hperEpoch, hcounted⟩

/-- A reseeding of a generator in use succeeds, unless it has been starved before. -/
theorem triple_reseedDrbg (p : ℕ) {p' : ℕ} (hp' : p' ≤ 1) {seed : Bytes}
    (hseed : seed.length = fipsRandSeedlen) :
    Triple (InUse (A := A) p) (reseedDrbg seed)
      (fun _ s ↦ InUse p' s ∧ s.genCount = 0) (InUse 0) := by
  refine .fetch_bind fun s₀ ↦ ?_
  have hreseed (h : InUse p s₀) (hfed : Fed s₀.log) := ctrdrbgReseed_fips (h.2 hfed).mode hseed
  refine .update_bind (M := fun s ↦
    s = { s₀ with drbg := (ctrdrbgReseed s₀.drbg (some seed)).2 } ∧ InUse p s₀) ?_ ?_
  · rintro s ⟨rfl, h⟩
    exact ⟨rfl, h⟩
  refine .require_bind ?_ fun _ ↦ .update ?_
  · rintro hfalse s ⟨rfl, h⟩
    exact ⟨h.1, fun hfed ↦ absurd ((hreseed h hfed).1.symm.trans hfalse) (by decide)⟩
  · rintro s ⟨rfl, h⟩
    refine ⟨⟨h.1, fun hfed ↦ ?_⟩, rfl⟩
    have hfed₀ : Fed s₀.log := PerEpoch.of_cons hfed
    exact Counted.seeded (s := { s₀ with genCount := 0 }) (h.2 hfed₀).perEpoch (hreseed h hfed₀).2
      rfl hp'

theorem triple_platformEntropy (E : Entropy) (p : ℕ) :
    Triple (InUse (A := A) p) (platformEntropy E fipsRandSeedlen)
      (fun out s ↦ out.length = fipsRandSeedlen ∧ InUse p s) (InUse p) := by
  refine .and_result ?_ (length_platformEntropy E fipsRandSeedlen)
  exact .of_keeps (keeps_platformEntropy E fipsRandSeedlen) fun _ _ ↦ InUse.of_core_eq

theorem triple_reseedIfDue (E : Entropy) :
    Triple (InUse (A := A) 1) (reseedIfDue E)
      (fun _ s ↦ InUse 1 s ∧ s.genCount < reseedInterval) (InUse 0) := by
  refine .fetch_bind fun s₀ ↦ ?_
  split
  case isTrue hdue =>
    have hentropy : Triple (fun s ↦ s = s₀ ∧ InUse 1 s)
        (onFailure (platformEntropy E fipsRandSeedlen) fun s ↦ { s with log := .starved :: s.log })
        (fun out s ↦ out.length = fipsRandSeedlen ∧ InUse (A := A) 1 s) (InUse 0) := by
      refine .onFailure ((triple_platformEntropy E 1).mono (fun s hs ↦ hs.2) (fun _ _ h ↦ h)
        fun _ h ↦ h) fun s h ↦ ?_
      exact ⟨h.1, fun hfed ↦ (h.2 (PerEpoch.of_cons hfed)).starved⟩
    refine hentropy.bind fun seed ↦ .of_and fun hlen ↦ ?_
    refine (triple_reseedDrbg 1 le_rfl hlen).mono (fun _ h ↦ h) ?_ (fun _ h ↦ h)
    rintro - t ⟨hinUse, hzero⟩
    exact ⟨hinUse, by rw [hzero]; decide⟩
  case isFalse hbelow =>
    refine .pure ?_
    rintro s ⟨rfl, h⟩
    exact ⟨h, Nat.lt_of_not_le hbelow⟩

theorem triple_randLoop (E : Entropy) (outLen : ℕ) :
    Triple (InUse (A := A) 0) (randLoop E outLen) (fun _ ↦ InUse 0) (InUse 0) := by
  induction outLen using Nat.strong_induction_on with
  | _ outLen ih =>
    rw [randLoop]
    split
    case isTrue hzero => exact .pure fun _ h ↦ h
    case isFalse hpos =>
      have hchunk : 0 < min outLen maxRequest := by
        have : 0 < maxRequest := by decide
        omega
      refine .update_bind (fun _ h ↦ h.count) ?_
      refine (triple_reseedIfDue E).bind fun _ ↦ .fetch_bind fun s₀ ↦ ?_
      have hgenerate (h : InUse 1 s₀) (hfed : Fed s₀.log) :=
        ctrdrbgGenerate_fips (h.2 hfed).mode (Nat.min_le_right outLen maxRequest)
      refine .update_bind (M := fun s ↦
        s = { s₀ with drbg := (ctrdrbgGenerate s₀.drbg true (min outLen maxRequest) none).2 } ∧
          InUse 1 s₀ ∧ s₀.genCount < reseedInterval) ?_ ?_
      · rintro s ⟨rfl, h⟩
        exact ⟨rfl, h⟩
      refine .ofOption_bind ?_ fun out _ ↦ .update_bind (M := InUse 0) ?_ ?_
      · rintro hnone s ⟨rfl, h, -⟩
        refine ⟨h.1, fun hfed ↦ absurd (hgenerate h hfed).1 ?_⟩
        rw [hnone]
        exact Bool.false_ne_true
      · rintro s ⟨rfl, h, hlt⟩
        refine ⟨h.1, fun hfed ↦ ?_⟩
        have hfed₀ : Fed s₀.log := PerEpoch.of_cons hfed
        exact (h.2 hfed₀).generated (hgenerate h hfed₀).2 hlt
      · exact (ih _ (by omega)).bind fun rest ↦ .pure fun _ h ↦ h

/-! ## Whole runs -/

/-- Between calls: the bound on the log, and the bookkeeping if the generator is in use. -/
structure Sound (s : Rand A) : Prop where
  perEpoch : Fed s.log → PerEpoch .seeded .generated reseedInterval s.log
  inUse : s.ready = true → InUse 0 s

theorem InUse.sound {s : Rand A} (h : InUse 0 s) : Sound s :=
  ⟨fun hfed ↦ (h.2 hfed).perEpoch, fun _ ↦ h⟩

theorem sound_load : Sound (Rand.load A) :=
  ⟨fun _ ↦ PerEpoch.nil, nofun⟩

theorem triple_fipsRandInit (entropy : Option Bytes) :
    Triple (Sound (A := A)) (fipsRandInit entropy) (fun _ ↦ Sound) Sound := by
  refine .ofOption_bind (fun _ _ h ↦ h) fun bytes _ ↦ ?_
  refine .require_bind (fun _ _ h ↦ h) fun hlen ↦ .fetch_bind fun s₀ ↦ ?_
  have hseed : (bytes.take fipsRandSeedlen).length = fipsRandSeedlen :=
    List.length_take_of_le (of_decide_eq_true hlen)
  obtain ⟨hok, hmode⟩ := ctrdrbgInit_fips s₀.drbg hseed
  refine .update_bind (M := fun s ↦
    s = { s₀ with drbg := (ctrdrbgInit s₀.drbg 32 (some (bytes.take fipsRandSeedlen))).2 } ∧
      Sound s₀) ?_ ?_
  · rintro s ⟨rfl, h⟩
    exact ⟨rfl, h⟩
  refine .require_bind (fun hfalse ↦ absurd (hok.symm.trans hfalse) (by decide)) fun _ ↦ ?_
  refine .update ?_
  rintro s ⟨rfl, h⟩
  refine InUse.sound ⟨rfl, fun hfed ↦ ?_⟩
  exact Counted.seeded (s := { s₀ with genCount := 0, ready := true })
    (h.perEpoch (PerEpoch.of_cons hfed)) hmode rfl (Nat.zero_le 1)

theorem triple_fipsRandBytes (E : Entropy) (running out : Bool) (outLen : ℕ) :
    Triple (Sound (A := A)) (fipsRandBytes E running out outLen) (fun _ ↦ Sound) Sound := by
  refine .require_bind (fun _ _ h ↦ h) fun _ ↦ .fetch_bind fun s₀ ↦ ?_
  refine .require_bind (fun _ _ h ↦ h.2) fun hready ↦ ?_
  rw [Bool.and_eq_true] at hready
  split
  · exact .pure fun _ h ↦ h.2
  · refine .require_bind (fun _ _ h ↦ h.2) fun _ ↦ ?_
    refine (triple_randLoop E outLen).mono ?_ (fun _ _ h ↦ h.sound) fun _ h ↦ h.sound
    rintro s ⟨rfl, h⟩
    exact h.inUse hready.1

theorem triple_fipsRandReseed (running : Bool) (entropy : Option Bytes) :
    Triple (Sound (A := A)) (fipsRandReseed running entropy) (fun _ ↦ Sound) Sound := by
  refine .require_bind (fun _ _ h ↦ h) fun _ ↦ .fetch_bind fun s₀ ↦ ?_
  refine .require_bind (fun _ _ h ↦ h.2) fun hready ↦ ?_
  refine .ofOption_bind (fun _ _ h ↦ h.2) fun bytes _ ↦ ?_
  refine .require_bind (fun _ _ h ↦ h.2) fun hlen ↦ ?_
  have hseed : (bytes.take fipsRandSeedlen).length = fipsRandSeedlen :=
    List.length_take_of_le (of_decide_eq_true hlen)
  refine (triple_reseedDrbg 0 (Nat.zero_le 1) hseed).mono ?_ (fun _ _ h ↦ h.1.sound)
    fun _ h ↦ h.sound
  rintro s ⟨rfl, h⟩
  exact h.inUse hready

theorem Sound.of_core_eq {s t : Rand A} (hcore : t.core = s.core) (h : Sound s) : Sound t := by
  have hready : t.ready = s.ready := congrArg (·.2.1) hcore
  have hlog : t.log = s.log := congrArg (·.2.2.2) hcore
  refine ⟨?_, fun ht ↦ (h.inUse (hready ▸ ht)).of_core_eq hcore⟩
  rw [hlog]
  exact h.perEpoch

theorem triple_fipsRandSeedFromPlatform (E : Entropy) :
    Triple (Sound (A := A)) (fipsRandSeedFromPlatform E) (fun _ ↦ Sound) Sound :=
  (Triple.of_keeps (keeps_platformEntropy E fipsRandSeedlen) fun _ _ ↦ Sound.of_core_eq).bind
    fun entropy ↦ triple_fipsRandInit (some entropy)

theorem Sound.cleanup {s : Rand A} (h : Sound s) : Sound (fipsRandCleanup s) := by
  rw [fipsRandCleanup]
  split
  · exact ⟨h.perEpoch, by simp⟩
  · exact h

theorem Sound.call (E : Entropy) {s : Rand A} (h : Sound s) (c : RandCall) :
    Sound (call E s c) := by
  cases c with
  | init entropy => exact (triple_fipsRandInit entropy).final h
  | bytes running out outLen => exact (triple_fipsRandBytes E running out outLen).final h
  | reseed running entropy => exact (triple_fipsRandReseed running entropy).final h
  | seedFromPlatform => exact (triple_fipsRandSeedFromPlatform E).final h
  | cleanup => exact h.cleanup

theorem callAll_append (E : Entropy) (s : Rand A) (cs cs' : List RandCall) :
    callAll E s (cs ++ cs') = callAll E (callAll E s cs) cs' := List.foldl_append

theorem callAll_singleton (E : Entropy) (s : Rand A) (c : RandCall) :
    callAll E s [c] = call E s c := rfl

theorem Sound.callAll (E : Entropy) {s : Rand A} (h : Sound s) (cs : List RandCall) :
    Sound (callAll E s cs) := by
  induction cs generalizing s with
  | nil => exact h
  | cons c cs ih => exact ih (h.call E c)

/-- As long as fewer than `2 ^ 32 - 2 ^ 20` requests of an interval are refused for want of entropy,
no interval serves more than `RESEED_INTERVAL` requests. -/
theorem at_most_reseedInterval_generated (E : Entropy) (cs : List RandCall)
    (hfed : Fed (callAll E (Rand.load A) cs).log) :
    PerEpoch .seeded .generated (2 ^ 20) (callAll E (Rand.load A) cs).log :=
  (sound_load.callAll E cs).perEpoch hfed

/-! ## An interval that overruns -/

/-- `n` requests of one byte. -/
def oneByte (n : ℕ) : List RandCall := List.replicate n (.bytes true true 1)

theorem oneByte_succ (n : ℕ) : oneByte (n + 1) = oneByte n ++ [.bytes true true 1] :=
  List.replicate_succ'

/-- A generator in use whose entropy source has dried up, with count `c`. -/
structure Dry (c : ℕ) (s : Rand A) : Prop where
  ready : s.ready = true
  mode : s.drbg.mode = (true, fipsRandSeedlen)
  healthFailed : s.healthFailed = false
  startupTested : s.startupTested = true
  requests : 16 ≤ s.requests
  genCount : s.genCount = c

namespace Dry

variable {c : ℕ} {s : Rand A} (h : Dry c s)
include h

/-- A failed read fails the request, but not the health of the source. -/
theorem platformEntropy_eq (len : ℕ) :
    platformEntropy sixteenReads len s = (none, { s with requests := s.requests + 1 }) := by
  have hread : sixteenReads.read s.requests len = none := by
    rw [sixteenReads]
    exact if_neg (Nat.not_lt.mpr h.requests)
  have hraw : rawPlatformEntropy sixteenReads len s =
      (none, { s with requests := s.requests + 1 }) := by
    rw [rawPlatformEntropy, fetch_bind, update_bind, hread]
    rfl
  have hhealthy : (!s.healthFailed) = true := by rw [h.healthFailed]; rfl
  have htested : ¬ (!s.startupTested) = true := by rw [h.startupTested]; exact Bool.false_ne_true
  rw [platformEntropy, fetch_bind, require_bind hhealthy, if_neg htested]
  exact bind_of_eq_none _ hraw

theorem call_bytes (outLen : ℕ) (hpos : outLen ≠ 0) :
    call sixteenReads s (.bytes true true outLen) = (randLoop sixteenReads outLen s).2 := by
  have hready : (s.ready && true) = true := by rw [h.ready]; rfl
  have hhealthy : (!s.healthFailed) = true := by rw [h.healthFailed]; rfl
  rw [call, fipsRandBytes, require_bind rfl, fetch_bind, require_bind hready, if_neg hpos,
    require_bind hhealthy]

/-- Below the interval a request is served, with no entropy asked for. -/
theorem call_bytes_of_lt (hlt : (c + 1) % 2 ^ 32 < reseedInterval) :
    Dry ((c + 1) % 2 ^ 32) (call sixteenReads s (.bytes true true 1)) ∧
      (call sixteenReads s (.bytes true true 1)).log = .generated :: s.log := by
  obtain ⟨hsome, hmode⟩ := ctrdrbgGenerate_fips h.mode (show 1 ≤ maxRequest by decide)
  obtain ⟨out, hout⟩ := Option.isSome_iff_exists.mp hsome
  have hdue : reseedIfDue sixteenReads { s with genCount := (s.genCount + 1) % 2 ^ 32 } =
      (some (), { s with genCount := (s.genCount + 1) % 2 ^ 32 }) := by
    rw [reseedIfDue, fetch_bind, if_neg (by rw [h.genCount]; exact Nat.not_le.mpr hlt)]
    rfl
  have hloop : (randLoop sixteenReads 1 s).2 =
      { s with
        genCount := (s.genCount + 1) % 2 ^ 32, log := .generated :: s.log
        drbg := (ctrdrbgGenerate s.drbg true 1 none).2 } := by
    have hmin : min 1 maxRequest = 1 := rfl
    have hlast (t : Rand A) : randLoop sixteenReads (1 - 1) t = (some [], t) := by
      rw [randLoop, if_pos rfl]
      rfl
    rw [randLoop, if_neg Nat.one_ne_zero, update_bind, bind_of_eq_some _ hdue, fetch_bind,
      update_bind, hmin]
    rw [ofOption_bind hout, update_bind, bind_of_eq_some _ (hlast _)]
    rfl
  rw [h.call_bytes 1 Nat.one_ne_zero, hloop, h.genCount]
  exact ⟨⟨h.ready, hmode, h.healthFailed, h.startupTested, h.requests, rfl⟩, rfl⟩

theorem call_bytes_of_le (hle : reseedInterval ≤ (c + 1) % 2 ^ 32) :
    Dry ((c + 1) % 2 ^ 32) (call sixteenReads s (.bytes true true 1)) ∧
      (call sixteenReads s (.bytes true true 1)).log = .starved :: s.log := by
  have hcounted : Dry ((c + 1) % 2 ^ 32) { s with genCount := (s.genCount + 1) % 2 ^ 32 } :=
    ⟨h.ready, h.mode, h.healthFailed, h.startupTested, h.requests, by rw [h.genCount]⟩
  have hdue : reseedIfDue sixteenReads { s with genCount := (s.genCount + 1) % 2 ^ 32 } =
      (none, { s with
        genCount := (s.genCount + 1) % 2 ^ 32, requests := s.requests + 1
        log := .starved :: s.log }) := by
    rw [reseedIfDue, fetch_bind, if_pos (by rw [h.genCount]; exact hle)]
    refine bind_of_eq_none _ ?_
    rw [onFailure, hcounted.platformEntropy_eq]
  have hloop : (randLoop sixteenReads 1 s).2 =
      { s with
        genCount := (s.genCount + 1) % 2 ^ 32, requests := s.requests + 1
        log := .starved :: s.log } := by
    rw [randLoop, if_neg Nat.one_ne_zero, update_bind, bind_of_eq_none _ hdue]
  rw [h.call_bytes 1 Nat.one_ne_zero, hloop, h.genCount]
  exact ⟨⟨h.ready, h.mode, h.healthFailed, h.startupTested, Nat.le_succ_of_le h.requests, rfl⟩, rfl⟩

theorem log_call_reseed {seed : Bytes} (hseed : seed.length = fipsRandSeedlen) :
    (call sixteenReads s (.reseed true (some seed))).log = .seeded :: s.log := by
  have hlen : decide (fipsRandSeedlen ≤ seed.length) = true := decide_eq_true hseed.ge
  have htake : seed.take fipsRandSeedlen = seed := List.take_of_length_le hseed.le
  rw [call, fipsRandReseed, require_bind rfl, fetch_bind, require_bind h.ready, ofOption_bind rfl,
    require_bind hlen, htake, reseedDrbg, fetch_bind, update_bind,
    require_bind (ctrdrbgReseed_fips h.mode hseed).1]
  rfl

/-- A stretch of requests that are all served. -/
theorem callAll_served (n : ℕ) (hn : c + n < reseedInterval) :
    Dry (c + n) (callAll sixteenReads s (oneByte n)) ∧
      (callAll sixteenReads s (oneByte n)).log =
        List.replicate n .generated ++ s.log := by
  have hinterval : reseedInterval = 2 ^ 20 := rfl
  induction n with
  | zero => exact ⟨h, rfl⟩
  | succ n ih =>
    obtain ⟨hdry, hlog⟩ := ih (by omega)
    have hmod : (c + n + 1) % 2 ^ 32 = c + n + 1 := Nat.mod_eq_of_lt (by omega)
    obtain ⟨hdry', hlog'⟩ := hdry.call_bytes_of_lt (by omega)
    rw [oneByte_succ, callAll_append, callAll_singleton]
    refine ⟨hmod ▸ hdry', ?_⟩
    rw [hlog', hlog, List.replicate_succ, List.cons_append]

/-- A stretch of requests that are all refused. -/
theorem callAll_refused (n : ℕ) (hc : reseedInterval ≤ c + 1) (hn : c + n < 2 ^ 32) :
    Dry (c + n) (callAll sixteenReads s (oneByte n)) ∧
      (callAll sixteenReads s (oneByte n)).log =
        List.replicate n .starved ++ s.log := by
  induction n with
  | zero => exact ⟨h, rfl⟩
  | succ n ih =>
    obtain ⟨hdry, hlog⟩ := ih (by omega)
    have hmod : (c + n + 1) % 2 ^ 32 = c + n + 1 := Nat.mod_eq_of_lt (by omega)
    obtain ⟨hdry', hlog'⟩ := hdry.call_bytes_of_le (by omega)
    rw [oneByte_succ, callAll_append, callAll_singleton]
    refine ⟨hmod ▸ hdry', ?_⟩
    rw [hlog', hlog, List.replicate_succ, List.cons_append]

end Dry

/-- The source dries up during the first seeding, and the caller seeds the generator. -/
def drySeeded : List RandCall := [.seedFromPlatform, .init (some (List.replicate 48 0))]

/-- The calls: `2 ^ 20 - 1` requests are served and `2 ^ 32 - 2 ^ 20` refused. The next one wraps
the count and is served, as are `2 ^ 20 - 1` more. -/
def overrun : List RandCall :=
  drySeeded ++
    (oneByte (2 ^ 20 - 1) ++ (oneByte (2 ^ 32 - 2 ^ 20) ++ ([.bytes true true 1] ++
      (oneByte (2 ^ 20 - 1) ++ [.reseed true (some (List.replicate 48 0))]))))

theorem dry_start :
    Dry 0 (callAll sixteenReads (Rand.load Aes.niLayer) drySeeded) ∧
      (callAll sixteenReads (Rand.load Aes.niLayer) drySeeded).log = [.seeded] := by
  generalize hs : callAll sixteenReads (Rand.load Aes.niLayer) drySeeded = s
  have hflags : s.ready = true ∧ s.drbg.mode = (true, 48) ∧ s.healthFailed = false ∧
      s.startupTested = true ∧ s.requests = 17 ∧ s.genCount = 0 ∧ s.log = [.seeded] := by
    rw [← hs]
    decide +kernel
  obtain ⟨hready, hmode, hhealth, htested, hrequests, hcount, hlog⟩ := hflags
  exact ⟨⟨hready, hmode, hhealth, htested, by rw [hrequests]; decide, hcount⟩, hlog⟩

/-- An interval with `2 ^ 20 - 1` requests served, and three that are refused. -/
theorem at_most_reseedInterval_generated_refusals :
    let log := (callAll sixteenReads (Rand.load Aes.niLayer)
      (drySeeded ++ (oneByte (2 ^ 20 - 1) ++ oneByte 3))).log
    log = List.replicate 3 .starved ++ (List.replicate (2 ^ 20 - 1) .generated ++ [.seeded]) ∧
      PerEpoch .seeded .generated (2 ^ 20) log := by
  intro log
  obtain ⟨hstart, hstartLog⟩ := dry_start
  obtain ⟨hserved, hservedLog⟩ := hstart.callAll_served (2 ^ 20 - 1) (by decide)
  obtain ⟨-, hrefusedLog⟩ := hserved.callAll_refused 3 (by decide) (by decide)
  have hlog : log =
      List.replicate 3 .starved ++ (List.replicate (2 ^ 20 - 1) .generated ++ [.seeded]) := by
    rw [← hstartLog, ← hservedLog, ← hrefusedLog, ← callAll_append, ← callAll_append]
  have hcount : log.count .starved ≤ 3 := by
    rw [hlog, List.count_append, List.count_append, List.count_replicate_self,
      List.count_replicate]
    decide
  exact ⟨hlog, at_most_reseedInterval_generated sixteenReads _ fun _ hl _ ↦
    ((hl.sublist.count_le _).trans hcount).trans (by decide)⟩

/-- Between its two seedings the generator serves more than `2 ^ 20` requests. -/
theorem overrun_exceeds_reseedInterval :
    ∃ l, (callAll sixteenReads (Rand.load Aes.niLayer) overrun).log = .seeded :: (l ++ [.seeded]) ∧
      Event.seeded ∉ l ∧ l.count .generated = 2 ^ 21 - 1 := by
  obtain ⟨hstart, hstartLog⟩ := dry_start
  obtain ⟨hserved, hservedLog⟩ := hstart.callAll_served (2 ^ 20 - 1) (by decide)
  obtain ⟨hrefused, hrefusedLog⟩ := hserved.callAll_refused (2 ^ 32 - 2 ^ 20) (by decide)
    (by decide)
  obtain ⟨hwrapped, hwrappedLog⟩ := hrefused.call_bytes_of_lt (by decide)
  obtain ⟨hagain, hagainLog⟩ := hwrapped.callAll_served (2 ^ 20 - 1) (by decide)
  refine ⟨List.replicate (2 ^ 20 - 1) Event.generated ++ (Event.generated ::
    (List.replicate (2 ^ 32 - 2 ^ 20) Event.starved ++
      List.replicate (2 ^ 20 - 1) Event.generated)), ?_, ?_, ?_⟩
  · rw [overrun, callAll_append, callAll_append, callAll_append, callAll_append, callAll_append,
      callAll_singleton, callAll_singleton, hagain.log_call_reseed (by decide), hagainLog,
      hwrappedLog, hrefusedLog, hservedLog, hstartLog, List.append_assoc, List.cons_append,
      List.append_assoc]
  · rw [List.mem_append, List.mem_cons, List.mem_append, List.mem_replicate, List.mem_replicate]
    rintro (⟨-, h⟩ | h | ⟨-, h⟩ | ⟨-, h⟩) <;> cases h
  · rw [List.count_append, List.count_cons_self, List.count_append, List.count_replicate_self,
      List.count_eq_zero_of_not_mem (fun h ↦ by cases (List.mem_replicate.mp h).2)]
    decide

end Random
