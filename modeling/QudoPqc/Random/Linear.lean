import QudoPqc.Random.Locked

/-!
# The order of the lock

Every run of the generator's callers is represented by a sequential one, in which the calls come in
the order in which they took the lock. What the sequential run leaves out has delivered nothing: the
calls that were refused before they came to the lock, and those that came to it after a stale test
and found no instantiated context.

The two runs agree in the DRBG and in the ready flag. They may differ in `g_health_failed`, which a
failed test of the entropy latches and which the sequential run never sets, and in the count, as a
call that finds no instantiated context may have counted: the next instantiation clears it before
anybody looks.
-/

namespace Random.Threads

open Concurrent
open Machine (pending waiting represents_of_stretch pending_of_op sequential_nil)
open Function (update update_self)

variable {A : AesLayer}

variable {c d c' : RandConfig A} {t : ℕ}
  {thr : Thread (Op A) Resp (Shared A) RandCall (Option Bytes)} {call : RandCall}
  {s e s' entry : Shared A} {o : Op A} {k : Resp o → Code A (Option Bytes)} {r : Resp o}
  {w : Reading} {tr : List (Action (Op A) Resp)}

/-! ## What a thread is given -/

/-- What a move gives to its thread: a call, or a seed. -/
def given : Move Reading RandCall → List (RandCall ⊕ Seed)
  | .start _ call => [.inl call]
  | .exec _ (.value seed) => [.inr seed]
  | .exec _ _ | .finish _ => []

/-- A call waits for the lock. -/
def unused (thr : Thread (Op A) Resp (Shared A) RandCall (Option Bytes)) :
    List (RandCall ⊕ Seed) :=
  if locked thr.trace then [] else [.inl thr.call]

theorem waiting_of_locked
    (ht : c.threads t = some thr) (h : locked thr.trace = true) :
    waiting unused c t = [] := by
  rw [waiting, ht]
  exact if_pos h

theorem waiting_of_not_locked
    (ht : c.threads t = some thr) (h : locked thr.trace = false) :
    waiting unused c t = [.inl thr.call] := by
  rw [waiting, ht]
  exact if_neg (by rw [h]; decide)

theorem pending_before
    (ht : c.threads t = some thr) (h : Before thr.call thr.prog) :
    pending delivered c t = [] := by
  obtain ⟨call, entry, prog, tr⟩ := thr
  cases prog with
  | ret a => rw [Machine.pending_of_ret ht rfl, show delivered call a = none from h]; rfl
  | op o k => exact pending_of_op ht rfl

theorem pending_inSection
    (ht : c.threads t = some thr) (h : InSection thr.prog) :
    pending delivered c t = [] := by
  obtain ⟨call, entry, prog, tr⟩ := thr
  cases prog with
  | ret a => exact absurd h id
  | op o k => exact pending_of_op ht rfl

/-! ## To the lock -/

/-- If the generator is `ready` and healthy, a call comes to the lock. -/
def Opens (ready : Bool) (call : RandCall) : Code A (Option Bytes) → Prop
  | .op .loadReady k => ready = true ∧ Opens ready call (k true)
  | .op .loadHealthFailed k => Opens ready call (k false)
  | .op .wrlock k => k () = lockedCode call
  | _ => False

theorem opens_code {ready : Bool} (hcall : Admitted call)
    (hready : ready = true ∨ ∃ entropy, call = .init entropy) :
    Opens ready call (code call : Code A _) := by
  cases call with
  | init entropy =>
    have hentropy : longEnough entropy = true := hcall
    rw [code, hentropy]
    rfl
  | bytes out outLen =>
    obtain ⟨rfl, hlen⟩ := hcall
    obtain rfl | ⟨entropy, h⟩ := hready
    · refine ⟨rfl, ?_⟩
      simp only [Prog.ret_bind]
      rw [if_neg (by decide), if_neg hlen]
      rfl
    · cases h
  | reseed entropy =>
    have hentropy : longEnough entropy = true := hcall
    obtain rfl | ⟨entropy, h⟩ := hready
    · refine ⟨rfl, ?_⟩
      simp only [Prog.ret_bind]
      rw [hentropy, if_neg (by decide)]
      rfl
    · cases h
  | cleanup =>
    obtain rfl | ⟨entropy, h⟩ := hready
    · exact ⟨rfl, rfl⟩
    · cases h

/-- A thread that is alone takes the lock. -/
theorem Opens.enter {ready : Bool} {prog : Code A (Option Bytes)}
    (h : Opens ready call prog) : ∀ {d : RandConfig A}, Machine.Solo t call prog d →
      d.shared.ready = ready → d.shared.healthFailed = false → d.shared.holder = none →
      ∃ ms d', (machine A).Stretch delivered given t d ms d' [] [] ∧
        d'.shared = { d.shared with holder := some t } ∧
        Machine.Solo t call (lockedCode call) d' := by
  induction prog with
  | ret a => exact absurd h id
  | op o k ih =>
    intro d hd hready hhealth hholder
    cases o with
    | loadReady =>
      obtain ⟨rfl, h⟩ := h
      obtain ⟨d₁, hstretch, hd₁, hsolo⟩ := hd.exec (M := machine A) (w := Reading.failed) rfl
      rw [hready] at hsolo
      obtain ⟨ms, d', hrest, hd', hsolo'⟩ := ih true h hsolo (hd₁ ▸ hready) (hd₁ ▸ hhealth)
        (hd₁ ▸ hholder)
      exact ⟨_, d', hstretch.trans hrest, hd₁ ▸ hd', hsolo'⟩
    | loadHealthFailed =>
      obtain ⟨d₁, hstretch, hd₁, hsolo⟩ := hd.exec (M := machine A) (w := Reading.failed) rfl
      rw [hhealth] at hsolo
      obtain ⟨ms, d', hrest, hd', hsolo'⟩ := ih false h hsolo (hd₁ ▸ hready) (hd₁ ▸ hhealth)
        (hd₁ ▸ hholder)
      exact ⟨_, d', hstretch.trans hrest, hd₁ ▸ hd', hsolo'⟩
    | wrlock =>
      obtain ⟨d₁, hstretch, hd₁, hsolo⟩ := hd.exec (M := machine A) (w := Reading.failed)
        (if_pos hholder)
      rw [show k () = lockedCode call from h] at hsolo
      exact ⟨_, d₁, hstretch, hd₁, hsolo⟩
    | _ => exact absurd h id

/-! ## Two runs that agree -/

/-- The DRBG and the ready flag are the same in `e`, where `g_health_failed` is clear. -/
structure Agree (s e : Shared A) : Prop where
  ready : e.ready = s.ready
  ctx : e.ctx = s.ctx
  version : e.version = s.version
  epoch : e.epoch = s.epoch
  healthy : e.healthFailed = false

/-- The program clears the count before it reads it or gives the lock back. -/
def CountDead : Code A (Option Bytes) → Prop
  | .op .readCtx k => ∀ v, CountDead (k v)
  | .op (.writeCtx _ _) k => CountDead (k ())
  | .op (.writeCount _) _ => True
  | _ => False

theorem countDead_init {entropy : Option Bytes} (h : Admitted (.init entropy)) :
    CountDead (lockedCode (.init entropy) : Code A _) := by
  have hlength : ((entropy.getD []).take fipsRandSeedlen).length = fipsRandSeedlen :=
    length_take_seedlen h
  intro v
  simp only [Prog.ret_bind]
  rw [(ctrdrbgInit_seed v.ctx hlength).1, if_neg (by decide)]
  trivial

theorem Agree.write (h : Agree s e) (t : ℕ) (step : DrbgStep A) (ctx : Ctx A) :
    Agree (s.write t step ctx) (e.write t step ctx) := by
  cases step with
  | instantiate =>
    exact ⟨h.ready, rfl, congrArg (· + 1) h.version, congrArg (· + 1) h.epoch, h.healthy⟩
  | reseed => exact ⟨h.ready, rfl, congrArg (· + 1) h.version, h.epoch, h.healthy⟩
  | generate view => exact ⟨h.ready, rfl, congrArg (· + 1) h.version, h.epoch, h.healthy⟩
  | free =>
    refine ⟨h.ready, rfl, ?_, h.epoch, h.healthy⟩
    rw [Shared.write, Shared.write, h.ctx, h.version]

/-- An operation other than a look at the entropy has the same effect in both runs. -/
theorem Agree.sem (h : Agree s e)
    (hsection : InSection (.op o k)) (hunlock : o ≠ .unlock) (hload : o ≠ .loadHealthFailed)
    (hread : o ≠ .readEntropy) (hcount : e.count = s.count ∨ CountDead (.op o k))
    (hsem : (machine A).sem o t w s = some (r, s')) :
    ∃ e', (machine A).sem o t .failed e = some (r, e') ∧ Agree s' e' ∧ e'.holder = e.holder ∧
      (e'.count = s'.count ∨ CountDead (k r)) := by
  cases o with
  | loadReady => exact absurd hsection id
  | wrlock => exact absurd hsection id
  | unlock => exact absurd rfl hunlock
  | loadHealthFailed => exact absurd rfl hload
  | readEntropy => exact absurd rfl hread
  | storeReady b =>
    cases hsem
    exact ⟨_, rfl, ⟨rfl, h.ctx, h.version, h.epoch, h.healthy⟩, rfl, hcount.imp_right (absurd · id)⟩
  | storeHealthFailed b =>
    cases hsem
    exact ⟨_, rfl, ⟨h.ready, h.ctx, h.version, h.epoch, hsection.1⟩, rfl,
      hcount.imp_right (absurd · id)⟩
  | readCount =>
    cases hsem
    have hcount' : e.count = s.count := hcount.elim id (absurd · id)
    exact ⟨e, congrArg (fun n ↦ some (n, e)) hcount', h, rfl, .inl hcount'⟩
  | writeCount n =>
    cases hsem
    exact ⟨_, rfl, { h with }, rfl, .inl rfl⟩
  | readCtx =>
    cases hsem
    have hview : e.view = s.view := by
      rw [Shared.view, Shared.view, h.ctx, h.version, h.epoch]
    exact ⟨e, congrArg (fun v ↦ some (v, e)) hview, h, rfl, hcount.imp_right fun hdead ↦ hdead _⟩
  | writeCtx step ctx =>
    cases hsem
    refine ⟨_, rfl, h.write t step ctx, ?_, ?_⟩
    · cases step with
      | _ => rfl
    · cases step with
      | _ => exact hcount

/-- An operation under the lock, done by a thread that is alone as well. -/
theorem Agree.work (h : Agree s d.shared)
    (hsolo : Machine.Solo t call (.op o k) d) (hsection : InSection (.op o k))
    (hunlock : o ≠ .unlock) (hcount : d.shared.count = s.count ∨ CountDead (.op o k))
    (hsem : (machine A).sem o t w s = some (r, s')) :
    ∃ ms d' l, (machine A).Stretch delivered given t d ms d' [] l ∧
      l.Sublist (given (.exec t w)) ∧ Agree s' d'.shared ∧ d'.shared.holder = d.shared.holder ∧
      Machine.Solo t call (k r) d' ∧ (d'.shared.count = s'.count ∨ CountDead (k r)) := by
  by_cases hload : o = .loadHealthFailed
  · subst hload
    cases hsem
    have hcount' : d.shared.count = s.count := hcount.elim id (absurd · id)
    obtain ⟨d₁, hstretch, hd₁, hsolo₁⟩ := hsolo.exec (M := machine A) (w := Reading.failed) rfl
    rw [h.healthy] at hsolo₁
    cases hfailed : s.healthFailed with
    | false =>
      exact ⟨_, d₁, _, hstretch, List.nil_sublist _, hd₁ ▸ h, hd₁ ▸ rfl, hsolo₁,
        .inl (hd₁ ▸ hcount')⟩
    | true =>
      -- the flag is clear in the sequential run, so the entropy is read, and that fails
      obtain ⟨k', hk', hnone⟩ := hsection.1
      rw [hk'] at hsolo₁
      obtain ⟨d₂, hstretch', hd₂, hsolo₂⟩ := hsolo₁.exec (M := machine A) (w := Reading.failed) rfl
      rw [hnone] at hsolo₂
      rw [hd₁] at hd₂
      exact ⟨_, d₂, _, hstretch.trans hstretch', List.nil_sublist _, hd₂ ▸ h, hd₂ ▸ rfl, hsolo₂,
        .inl (hd₂ ▸ hcount')⟩
  by_cases hread : o = .readEntropy
  · subst hread
    have hcount' : d.shared.count = s.count := hcount.elim id (absurd · id)
    cases w with
    | value seed =>
      cases hsem
      obtain ⟨d₁, hstretch, hd₁, hsolo₁⟩ := hsolo.exec (M := machine A) (w := .value seed) rfl
      exact ⟨_, d₁, _, hstretch, List.Sublist.refl _, hd₁ ▸ h, hd₁ ▸ rfl, hsolo₁,
        .inl (hd₁ ▸ hcount')⟩
    | failed =>
      cases hsem
      obtain ⟨d₁, hstretch, hd₁, hsolo₁⟩ := hsolo.exec (M := machine A) (w := .failed) rfl
      exact ⟨_, d₁, _, hstretch, List.nil_sublist _, hd₁ ▸ h, hd₁ ▸ rfl, hsolo₁,
        .inl (hd₁ ▸ hcount')⟩
    | unhealthy =>
      cases hsem
      obtain ⟨d₁, hstretch, hd₁, hsolo₁⟩ := hsolo.exec (M := machine A) (w := .failed) rfl
      refine ⟨_, d₁, _, hstretch, List.nil_sublist _, hd₁ ▸ ?_, hd₁ ▸ rfl, hsolo₁,
        .inl (hd₁ ▸ hcount')⟩
      exact { h with }
  obtain ⟨e', hsem', hagree, hholder, hcount'⟩ :=
    h.sem hsection hunlock hload hread hcount hsem
  obtain ⟨d₁, hstretch, rfl, hsolo₁⟩ := hsolo.exec hsem'
  exact ⟨_, d₁, _, hstretch, List.nil_sublist _, hagree, hholder, hsolo₁, hcount'⟩

/-- What a call other than an instantiation does that finds no instantiated context: nothing that
the other run would have to do as well. -/
theorem Agree.idle (h : Agree s e) (hs : Settled false s)
    (hcall : ∀ entropy, call ≠ .init entropy)
    (hpre : Pre call s o) (hsem : (machine A).sem o t w s = some (r, s')) :
    Agree s' e ∧ Settled false s' := by
  cases o with
  | storeReady b =>
    cases hsem
    have hb : b = false := by
      by_contra hb
      obtain ⟨entropy, rfl⟩ := hpre (Bool.eq_true_of_not_eq_false hb)
      exact hcall entropy rfl
    exact ⟨⟨h.ready.trans (hs.ready.trans hb.symm), h.ctx, h.version, h.epoch, h.healthy⟩,
      hb, hs.initialized, hs.zero⟩
  | writeCtx step ctx =>
    cases hsem
    cases step with
    | instantiate =>
      obtain ⟨entropy, rfl⟩ := hpre
      exact absurd rfl (hcall entropy)
    | reseed => cases hs.initialized.symm.trans hpre
    | generate view => cases hs.initialized.symm.trans hpre.1.2
    | free =>
      have hctx : ctx = Ctx.zero A := hpre
      subst hctx
      refine ⟨⟨h.ready, h.ctx.trans (hs.zero rfl), ?_, h.epoch, h.healthy⟩, hs.ready, rfl,
        fun _ ↦ rfl⟩
      rw [h.version, Shared.write, hs.initialized]
      rfl
  | wrlock =>
    by_cases hfree : s.holder = none
    · cases (if_pos hfree).symm.trans hsem
      exact ⟨{ h with }, { hs with }⟩
    · cases (if_neg hfree).symm.trans hsem
  | readEntropy =>
    cases w with
    | _ =>
      cases hsem
      exact ⟨{ h with }, { hs with }⟩
  | _ =>
    cases hsem
    exact ⟨{ h with }, { hs with }⟩

/-! ## The simulation -/

/-- Where the sequential run is. -/
inductive Place (c d : RandConfig A) : Prop
  /-- Nobody has the lock. -/
  | free (hfree : c.shared.holder = none) (hidle : d.threads = fun _ ↦ none)
    (hfree' : d.shared.holder = none)
    (hcount : c.shared.ready = true → d.shared.count = c.shared.count)
  /-- The call that has the lock is the one that is executed. -/
  | active (t : ℕ) {call : RandCall} {entry : Shared A} {prog : Code A (Option Bytes)}
    {tr : List (Action (Op A) Resp)} (ht : c.threads t = some ⟨call, entry, prog, tr⟩)
    (hholder : c.shared.holder = some t) (hsolo : Machine.Solo t call prog d)
    (hholder' : d.shared.holder = some t)
    (hcount : d.shared.count = c.shared.count ∨ CountDead prog)
  /-- The call that has the lock came too late, and is left out. -/
  | late (t : ℕ) {call : RandCall} {entry : Shared A} {prog : Code A (Option Bytes)}
    {tr : List (Action (Op A) Resp)} (ht : c.threads t = some ⟨call, entry, prog, tr⟩)
    (hholder : c.shared.holder = some t) (hsettled : Settled false c.shared)
    (hcall : ∀ entropy, call ≠ .init entropy) (hidle : d.threads = fun _ ↦ none)
    (hfree' : d.shared.holder = none)

/-- A run and the sequential one. -/
structure Sim (c d : RandConfig A) : Prop where
  inv : Inv c
  agree : Agree c.shared d.shared
  place : Place c d

theorem Place.alone (h : Place c d) : ∃ t, Machine.Alone t d := by
  cases h with
  | free hfree hidle => exact ⟨0, fun u _ ↦ congrFun hidle u⟩
  | active t ht hholder hsolo => exact ⟨t, hsolo.alone⟩
  | late t ht hholder hsettled hcall hidle => exact ⟨0, fun u _ ↦ congrFun hidle u⟩

/-- A thread that does not have the lock moves, and the globals stay as they are. -/
theorem Place.update (h : Place c d) {u : ℕ} (hu : c.shared.holder ≠ some u)
    (x : Option (Thread (Op A) Resp (Shared A) RandCall (Option Bytes))) :
    Place (⟨c.shared, update c.threads u x⟩ : RandConfig A) d := by
  cases h with
  | free hfree hidle hfree' hcount => exact .free hfree hidle hfree' hcount
  | active t ht hholder hsolo hholder' hcount =>
    have htu : t ≠ u := by
      rintro rfl
      exact hu hholder
    exact .active t ((Function.update_of_ne htu _ _).trans ht) hholder hsolo hholder' hcount
  | late t ht hholder hsettled hcall hidle hfree' =>
    have htu : t ≠ u := by
      rintro rfl
      exact hu hholder
    exact .late t ((Function.update_of_ne htu _ _).trans ht) hholder hsettled hcall hidle hfree'

/-- A move of the run is represented. -/
abbrev Represented (c d : RandConfig A) (m : Move Reading RandCall) (c' : RandConfig A) : Prop :=
  ∃ ms d', (machine A).Represents delivered given unused Sim c d m c' ms d'

/-- A call takes the lock. -/
theorem Sim.lock (h : Sim c d) {k : Unit → Code A (Option Bytes)} {i : Bool}
    (ht : c.threads t = some ⟨call, entry, .op .wrlock k, tr⟩) (hfree : c.shared.holder = none)
    (hsettled : Settled i c.shared) (hcall : Admitted call) (hlocked : locked tr = false)
    (hnext : (machine A).next c (.exec t w) = some c')
    (hc' : c' = ⟨{ c.shared with holder := some t }, update c.threads t
      (some ⟨call, entry, lockedCode call, tr ++ [⟨Op.wrlock, ()⟩]⟩)⟩) :
    Represented c d (.exec t w) c' := by
  have ht' : c'.threads t = some ⟨call, entry, lockedCode call, tr ++ [⟨Op.wrlock, ()⟩]⟩ := by
    rw [hc']
    exact update_self _ _ _
  have hagree : Agree c'.shared d.shared := by
    rw [hc']
    exact { h.agree with }
  have hholder : c'.shared.holder = some t := by rw [hc']
  have hpending : pending delivered c t = [] := pending_of_op ht rfl
  have hpending' := pending_inSection ht' (inSection_lockedCode call)
  have hwaiting' := waiting_of_locked ht' (locked_wrlock tr)
  cases h.place with
  | free hfree hidle hfree' hcount =>
    by_cases hopen : d.shared.ready = true ∨ ∃ entropy, call = .init entropy
    · obtain ⟨d₁, hstart, hd₁, hsolo₁⟩ := Machine.stretch_start (M := machine A) t call hidle
      obtain ⟨ms, d', hrest, hd', hsolo'⟩ := (opens_code hcall hopen).enter hsolo₁ (by rw [hd₁])
        (by rw [hd₁, h.agree.healthy]) (by rw [hd₁, hfree'])
      rw [hd₁] at hd'
      have hstretch := hstart.trans hrest
      refine ⟨_, d', represents_of_stretch (t := t) hnext rfl hstretch
        (Machine.sequential_of_alone hstretch.own fun u _ ↦ congrFun hidle u)
        ⟨inv_next h.inv hnext, ?_, .active t ht' hholder hsolo' (by rw [hd']) ?_⟩ ?_ ?_⟩
      · rw [hd']
        exact { hagree with }
      · rw [hd', hc']
        by_cases hready : c.shared.ready = true
        · exact .inl (hcount hready)
        · obtain hready' | ⟨entropy, rfl⟩ := hopen
          · exact absurd (h.agree.ready.symm.trans hready') hready
          · exact .inr (countDead_init hcall)
      · rw [hpending, hpending']
        rfl
      · rw [hwaiting', waiting_of_not_locked ht hlocked]
        exact List.sublist_append_left [Sum.inl call] _
    · rw [not_or, not_exists, Bool.not_eq_true, h.agree.ready, hsettled.ready] at hopen
      obtain ⟨rfl, hinit⟩ := hopen
      refine ⟨_, d, represents_of_stretch (t := t) hnext rfl (Machine.Stretch.nil t d)
        (sequential_nil h.place.alone)
        ⟨inv_next h.inv hnext, hagree, .late t ht' hholder ?_ hinit hidle hfree'⟩ ?_ ?_⟩
      · rw [hc']
        exact { hsettled with }
      · rw [hpending, hpending']
        rfl
      · rw [hwaiting']
        exact List.nil_sublist _
  | active u hu hholder => cases hfree.symm.trans hholder
  | late u hu hholder => cases hfree.symm.trans hholder

/-- A call works under the lock. -/
theorem Sim.work (h : Sim c d)
    (ht : c.threads t = some ⟨call, entry, .op o k, tr⟩) (hholder : c.shared.holder = some t)
    (ho : o ≠ .unlock) (hsection : InSection (.op o k)) (hpre : Pre call c.shared o)
    (hsem : (machine A).sem o t w c.shared = some (r, s')) (hholder' : s'.holder = some t)
    (hsection' : InSection (k r)) (hlocked : locked (tr ++ [⟨o, r⟩]) = true)
    (hnext : (machine A).next c (.exec t w) = some c')
    (hc' : c' = ⟨s', update c.threads t (some ⟨call, entry, k r, tr ++ [⟨o, r⟩]⟩)⟩) :
    Represented c d (.exec t w) c' := by
  have ht' : c'.threads t = some ⟨call, entry, k r, tr ++ [⟨o, r⟩]⟩ := by
    rw [hc']
    exact update_self _ _ _
  have hshared : c'.shared = s' := by rw [hc']
  have hpending : pending delivered c t = [] := pending_of_op ht rfl
  have hpending' := pending_inSection ht' hsection'
  have hwaiting' := waiting_of_locked ht' hlocked
  cases h.place with
  | free hfree => cases hfree.symm.trans hholder
  | active u hu hholderu hsolo hd hcount =>
    cases hholder.symm.trans hholderu
    cases ht.symm.trans hu
    obtain ⟨ms, d', l, hstretch, hl, hagree, hd', hsolo', hcount'⟩ :=
      h.agree.work hsolo hsection ho hcount hsem
    refine ⟨ms, d', represents_of_stretch (t := t) hnext rfl hstretch
      (Machine.sequential_of_alone hstretch.own hsolo.alone)
      ⟨inv_next h.inv hnext, hshared ▸ hagree, .active t ht' (hshared ▸ hholder') hsolo'
        (hd'.trans hd) (hshared ▸ hcount')⟩ ?_ ?_⟩
    · rw [hpending, hpending']
      rfl
    · rw [hwaiting', List.append_nil]
      exact hl.trans (List.sublist_append_right _ _)
  | late u hu hholderu hsettled hcall hidle hfree' =>
    cases hholder.symm.trans hholderu
    cases ht.symm.trans hu
    obtain ⟨hagree, hsettled'⟩ := h.agree.idle hsettled hcall hpre hsem
    refine ⟨_, d, represents_of_stretch (t := t) hnext rfl (Machine.Stretch.nil t d)
      (sequential_nil h.place.alone)
      ⟨inv_next h.inv hnext, hshared ▸ hagree, .late t ht' (hshared ▸ hholder')
        (hshared ▸ hsettled') hcall hidle hfree'⟩ ?_ ?_⟩
    · rw [hpending, hpending']
      rfl
    · rw [hwaiting']
      exact List.nil_sublist _

/-- A call gives the lock back. -/
theorem Sim.unlock (h : Sim c d) {k : Unit → Code A (Option Bytes)} {a : Option Bytes}
    (ht : c.threads t = some ⟨call, entry, .op .unlock k, tr⟩) (hholder : c.shared.holder = some t)
    (hk : k () = .ret a) (hpost : Post call { c.shared with holder := none } a)
    (hlocked : locked tr = true) (hnext : (machine A).next c (.exec t w) = some c')
    (hc' : c' = ⟨{ c.shared with holder := none }, update c.threads t
      (some ⟨call, entry, .ret a, tr ++ [⟨Op.unlock, ()⟩]⟩)⟩) :
    Represented c d (.exec t w) c' := by
  have ht' : c'.threads t = some ⟨call, entry, .ret a, tr ++ [⟨Op.unlock, ()⟩]⟩ := by
    rw [hc']
    exact update_self _ _ _
  have hagree : Agree c'.shared d.shared := by
    rw [hc']
    exact { h.agree with }
  have hfree : c'.shared.holder = none := by rw [hc']
  have hpending : pending delivered c t = [] := pending_of_op ht rfl
  have hpending' : pending delivered c' t = (delivered call a).toList :=
    Machine.pending_of_ret ht' rfl
  have hwaiting' := waiting_of_locked ht' ((locked_append tr (o := .unlock) nofun ()).trans hlocked)
  cases h.place with
  | free hfree => cases hfree.symm.trans hholder
  | active u hu hholderu hsolo hd hcount =>
    cases hholder.symm.trans hholderu
    cases ht.symm.trans hu
    obtain ⟨d₁, hexec, hd₁, hsolo₁⟩ := hsolo.exec (M := machine A) (w := Reading.failed) rfl
    rw [hk] at hsolo₁
    obtain ⟨d', hfinish, hd', hidle⟩ := hsolo₁.finish (M := machine A)
    rw [hd₁] at hd'
    have hstretch : (machine A).Stretch delivered given t d _ d' _ _ := hexec.trans hfinish
    refine ⟨_, d', represents_of_stretch (t := t) hnext rfl hstretch
      (Machine.sequential_of_alone hstretch.own hsolo.alone)
      ⟨inv_next h.inv hnext, ?_, .free hfree hidle (by rw [hd']) fun _ ↦ ?_⟩ ?_ ?_⟩
    · rw [hd']
      exact { hagree with }
    · rw [hd', hc']
      exact hcount.elim id (absurd · id)
    · rw [hpending, hpending']
      rfl
    · rw [hwaiting']
      exact List.nil_sublist _
  | late u hu hholderu hsettled hcall hidle hfree' =>
    cases hholder.symm.trans hholderu
    cases ht.symm.trans hu
    obtain ⟨i, hi, hnone⟩ := hpost
    have hi' : i = false := hi.initialized.symm.trans hsettled.initialized
    refine ⟨_, d, represents_of_stretch (t := t) hnext rfl (Machine.Stretch.nil t d)
      (sequential_nil h.place.alone)
      ⟨inv_next h.inv hnext, hagree, .free hfree hidle hfree' fun hready ↦ ?_⟩ ?_ ?_⟩
    · rw [hc'] at hready
      cases hsettled.ready.symm.trans hready
    · rw [hpending, hpending', hnone hi']
      rfl
    · rw [hwaiting']
      exact List.nil_sublist _

/-- A thread that does not have the lock moves. -/
theorem Sim.update (h : Sim c d) {m : Move Reading RandCall}
    (hholder : c.shared.holder ≠ some m.thread)
    {x : Option (Thread (Op A) Resp (Shared A) RandCall (Option Bytes))}
    (hnext : (machine A).next c m = some c')
    (hc' : c' = ⟨c.shared, update c.threads m.thread x⟩)
    (hobs : Machine.finished delivered c m.thread m ++ pending delivered c' m.thread =
      pending delivered c m.thread)
    (hin : (waiting unused c' m.thread).Sublist
      (waiting unused c m.thread ++ given m)) :
    Represented c d m c' := by
  refine ⟨_, d, represents_of_stretch hnext rfl (Machine.Stretch.nil m.thread d)
    (sequential_nil h.place.alone) ⟨inv_next h.inv hnext, ?_, ?_⟩ ?_ hin⟩
  · rw [hc']
    exact h.agree
  · rw [hc']
    exact h.place.update hholder x
  · rw [hobs, List.append_nil]

theorem simulation : (machine A).Simulation delivered given unused (Sim (A := A)) where
  alone c d h := h.place.alone
  step c d m c' h hnext := by
    cases h.inv.lockStep hnext with
    | start t call ht =>
      have ht' : (⟨c.shared, update c.threads t _⟩ : RandConfig A).threads t =
        some ⟨call, c.shared, code call, []⟩ := update_self _ _ _
      refine h.update (h.inv.holder_ne ht) hnext rfl ?_ ?_
      · rw [Move.thread, Machine.pending_of_none ht, pending_before ht' (before_code call)]
        rfl
      · rw [Move.thread, waiting_of_not_locked ht' rfl]
        exact List.sublist_append_right _ _
    | @look t w call entry o k tr r ht hholder hbefore hlocked hviews =>
      have ht' : (⟨c.shared, update c.threads t _⟩ : RandConfig A).threads t =
        some ⟨call, entry, k r, tr ++ [⟨o, r⟩]⟩ := update_self _ _ _
      refine h.update hholder hnext rfl ?_ ?_
      · rw [Move.thread, pending_of_op ht rfl, pending_before ht' hbefore]
        rfl
      · rw [Move.thread, waiting_of_not_locked ht hlocked.1, waiting_of_not_locked ht' hlocked.2]
        exact List.sublist_append_left _ _
    | lock t w ht hfree hsettled hcall hlocked hviews =>
      exact h.lock ht hfree hsettled hcall hlocked hnext rfl
    | work t w r s' ht hholder ho hsection hpre hsem hholder' hsection' hwp hlocked =>
      exact h.work ht hholder ho hsection hpre hsem hholder' hsection' hlocked.2 hnext rfl
    | unlock t w ht hholder hk hpost hlocked =>
      exact h.unlock ht hholder hk hpost hlocked hnext rfl
    | finish t ht hholder =>
      have ht' : (⟨c.shared, update c.threads t none⟩ : RandConfig A).threads t = none :=
        update_self _ _ _
      refine h.update hholder hnext rfl ?_ ?_
      · rw [Machine.finished, Move.thread, if_pos rfl, Machine.pending_of_none ht', List.append_nil]
      · rw [Move.thread, Machine.waiting_of_none unused ht']
        exact List.nil_sublist _

theorem sim_load :
    Sim (Config.idle (Shared.load A) : RandConfig A) (Config.idle (Shared.load A)) where
  inv := inv_load
  agree := ⟨rfl, rfl, rfl, rfl, rfl⟩
  place := .free rfl rfl rfl fun _ ↦ rfl

variable (A) in
/-- The sequential schedule for a schedule. -/
noncomputable def sequential (ms : List (Move Reading RandCall)) : List (Move Reading RandCall) :=
  (machine A).linearize delivered given unused Sim (Config.idle (Shared.load A))
    (Config.idle (Shared.load A)) ms

/-- What linearizability says about a schedule `ms` that leads to `c`, and its sequential schedule:
that one can be carried out, no two of its calls overlap, each thread makes in it only calls that it
makes in `ms`, in the same order and with the same entropy, and what all of its calls deliver is
what those of `ms` have delivered or are about to return. -/
structure Linearized (ms : List (Move Reading RandCall)) (c : RandConfig A)
    (ms' : List (Move Reading RandCall)) : Prop where
  runs : ∃ d, (machine A).run (Config.idle (Shared.load A)) ms' = some d
  sequential : (machine A).Sequential (Config.idle (Shared.load A)) ms'
  calls : ∀ t, (Machine.inputs given t ms').Sublist (Machine.inputs given t ms)
  delivers : ∀ t, (machine A).observed delivered t (Config.idle (Shared.load A)) ms ++
    pending delivered c t =
      (machine A).observed delivered t (Config.idle (Shared.load A)) ms'

theorem linearized_sequential {ms : List (Move Reading RandCall)}
    (h : (machine A).run (Config.idle (Shared.load A)) ms = some c) :
    Linearized ms c (sequential A ms) := by
  obtain ⟨d, hrun, hseq, -, hobs, hin⟩ := Machine.run_linearize simulation sim_load h
  refine ⟨⟨d, hrun⟩, hseq, fun t ↦ ?_, fun t ↦ ?_⟩
  · exact (List.sublist_append_left _ _).trans (hin t)
  · exact hobs t

/-- **The random generator is linearizable and never reuses output.** Every schedule of
`qudo_fips_rand_init`, `qudo_fips_rand_bytes`, `qudo_fips_rand_reseed` and `qudo_fips_rand_cleanup`
on any threads has a sequential one in the order of the lock, and the sequential schedule of a
longer run only adds moves. A step that generates uses the context that is there, which is
instantiated; the states from which a call generates belong to one instantiation; and no two steps
of the run generate from the same state of the DRBG. -/
theorem rand_linearizable (A : AesLayer) :
    (∀ ms ms', sequential A ms <+: sequential A (ms ++ ms')) ∧
    ∀ (ms : List (Move Reading RandCall)) (c : RandConfig A),
      (machine A).run (Config.idle (Shared.load A)) ms = some c →
      Linearized ms c (sequential A ms) ∧
      (∀ t view ctx, c.nextOp t = some (.writeCtx (.generate view) ctx) →
        view = c.shared.view ∧ view.ctx.initialized = true) ∧
      (∀ t thr, c.threads t = some thr → ∃ epoch, ∀ v ∈ views thr.trace, v.epoch = epoch) ∧
      (c.shared.generated.map fun e ↦ e.2.version).Nodup := by
  refine ⟨fun ms ms' ↦ Machine.linearize_prefix .., fun ms c hrun ↦ ?_⟩
  obtain ⟨hc, hlog⟩ := inv_run hrun
  exact ⟨linearized_sequential hrun, fun t view ctx h ↦ hc.generates h, hlog.epochs, hlog.distinct⟩

/-- Thread 0 sets the generator up. Thread 1 asks for 16 bytes and passes the checks; before it has
the lock, thread 0 cleans up. -/
def cleanupBetween : List (Move Reading RandCall) :=
  let exec (t n : ℕ) : List (Move Reading RandCall) := List.replicate n (.exec t .failed)
  [.start 0 (.init (some (List.replicate 48 0)))] ++ exec 0 6 ++
    [.finish 0, .start 1 (.bytes true 16)] ++ exec 1 2 ++ [.start 0 .cleanup] ++ exec 0 7 ++
    [.finish 0] ++ exec 1 5

/-- The request has passed the checks, and fails for want of a generator. -/
theorem rand_linearizable_cleanup_between :
    ∃ c, (machine Aes.niLayer).run (Config.idle (Shared.load Aes.niLayer)) cleanupBetween = some c ∧
      c.returned 1 = some none ∧
      Linearized cleanupBetween c (sequential Aes.niLayer cleanupBetween) := by
  have hrun : ((machine Aes.niLayer).run (Config.idle (Shared.load Aes.niLayer))
      cleanupBetween).bind (·.returned 1) = some none := by decide +kernel
  obtain ⟨c, hc, hreturned⟩ := Option.bind_eq_some_iff.mp hrun
  exact ⟨c, hc, hreturned, ((rand_linearizable Aes.niLayer).2 _ c hc).1⟩
end Random.Threads
