import QudoPqc.Random.Threads

/-!
# What the lock protects

The discipline that the four functions keep, and what follows from it for every interleaving. A
thread outside the lock only tests the flags and waits; a thread that has it runs undisturbed to its
one `unlock`. The state between two holders is `Settled`: the ready flag says whether the context is
instantiated, and a context that is not is all zeros. A thread that took the lock after a stale test
finds such a context, and the functions of the DRBG refuse it.
-/

namespace Random.Threads

open Concurrent
open Machine (wp_of_sem)
open Function (update update_self)

variable {A : AesLayer}

variable {ctx : Ctx A} {f : Bool → Code A (Option Bytes)} {o : Op A} {m : Move Reading RandCall}
  {call : RandCall} {t : ℕ} {w : Reading} {s s' : Shared A} {r : Resp o}

/-! ## The DRBG functions -/

theorem ctrdrbgInit_seed (ctx : Ctx A) {seed : Bytes} (h : seed.length = fipsRandSeedlen) :
    (ctrdrbgInit ctx 32 (some seed)).1 = true ∧
      (ctrdrbgInit ctx 32 (some seed)).2.initialized = true := by
  rw [ctrdrbgInit, if_neg (by decide), if_neg (by rw [h]; decide)]
  exact ⟨rfl, rfl⟩

theorem ctrdrbgReseed_initialized {seed : Option Bytes}
    (h : (ctrdrbgReseed ctx seed).1 = true) :
    ctx.initialized = true ∧ (ctrdrbgReseed ctx seed).2.initialized = true := by
  cases seed with
  | none => cases h
  | some seed =>
    rw [ctrdrbgReseed] at h ⊢
    split at h
    · cases h
    split at h
    · cases h
    case isFalse hinit hlength =>
      have hmode := congrArg Prod.fst (mode_ctrUpdate (inc128 ctx) seed)
      rw [Bool.not_eq_true, Bool.not_eq_false'] at hinit
      rw [if_neg (by rw [hinit]; decide), if_neg hlength]
      exact ⟨hinit, hmode.trans hinit⟩

theorem ctrdrbgGenerate_initialized {ctx' : Ctx A} {n : ℕ} {bytes : Bytes}
    (h : ctrdrbgGenerate ctx true n none = (some bytes, ctx')) :
    ctx.initialized = true ∧ ctx'.initialized = true := by
  by_cases hrefused : (!ctx.initialized) = true ∨ n > maxRequest
  · rw [ctrdrbgGenerate, if_pos hrefused] at h
    cases h
  · have hinit : ctx.initialized = true := by
      rw [not_or, Bool.not_eq_true, Bool.not_eq_false'] at hrefused
      exact hrefused.1
    refine ⟨hinit, ?_⟩
    rw [ctrdrbgGenerate, if_neg hrefused] at h
    simp only [Bool.not_true, Bool.false_eq_true, false_and, if_false, Option.getD_none, ne_eq,
      not_true_eq_false, if_true] at h
    have hmode : ctx'.mode = ctx.mode := by
      split at h
      · cases h
        rw [mode_ctrUpdate, mode_inc128]
      · cases h
        rw [mode_ctrUpdate, mode_inc128, mode_generateLoop]
    exact (congrArg Prod.fst hmode).trans hinit

/-! ## Outside the lock -/

/-- The arguments with which a call comes to the lock. -/
def Admitted : RandCall → Prop
  | .init entropy => longEnough entropy = true
  | .bytes out outLen => out = true ∧ outLen ≠ 0
  | .reseed entropy => longEnough entropy = true
  | .cleanup => True

/-- The program of a call that has not taken the lock: it tests the flags and comes to the lock, or
returns without having delivered anything. -/
def Before (call : RandCall) : Code A (Option Bytes) → Prop
  | .ret a => delivered call a = none
  | .op .loadReady k => ∀ r, Before call (k r)
  | .op .loadHealthFailed k => ∀ r, Before call (k r)
  | .op .wrlock k => Admitted call ∧ k () = lockedCode call
  | .op _ _ => False

theorem before_code (call : RandCall) : Before call (code call : Code A _) := by
  cases call with
  | init entropy =>
    rw [code]
    split
    case isTrue => rfl
    case isFalse h => exact ⟨by simpa [Admitted] using h, rfl⟩
  | bytes out outLen =>
    intro ready
    simp only [Prog.ret_bind]
    split
    case isTrue => rfl
    case isFalse hready =>
      rw [Bool.or_eq_true, not_or] at hready
      split
      case isTrue => rfl
      case isFalse hlen =>
        intro failed
        cases failed with
        | true => rfl
        | false => exact ⟨⟨by simpa using hready.2, hlen⟩, rfl⟩
  | reseed entropy =>
    intro ready
    simp only [Prog.ret_bind]
    split
    case isTrue => rfl
    case isFalse hready =>
      rw [Bool.or_eq_true, not_or] at hready
      exact ⟨by simpa [Admitted] using hready.2, rfl⟩
  | cleanup =>
    intro ready
    cases ready with
    | false => rfl
    | true => exact ⟨trivial, rfl⟩

/-! ## The shape of a section -/

/-- The program of a thread that has the lock: it neither takes the lock nor tests the ready flag,
it ends with the `unlock`, it never sets `g_health_failed` itself, and it tests that flag only where
a failure to read entropy has the same consequences. -/
def InSection : Code A (Option Bytes) → Prop
  | .ret _ => False
  | .op .wrlock _ => False
  | .op .loadReady _ => False
  | .op .unlock k => ∃ a, k () = .ret a
  | .op .loadHealthFailed k =>
    (∃ k', k false = .op .readEntropy k' ∧ k' none = k true) ∧ ∀ r, InSection (k r)
  | .op (.storeReady _) k => InSection (k ())
  | .op (.storeHealthFailed b) k => b = false ∧ InSection (k ())
  | .op .readCount k => ∀ n, InSection (k n)
  | .op (.writeCount _) k => InSection (k ())
  | .op .readCtx k => ∀ v, InSection (k v)
  | .op (.writeCtx _ _) k => InSection (k ())
  | .op .readEntropy k => ∀ r, InSection (k r)

theorem inSection_unlockReturn (a : Option Bytes) :
    InSection (unlockReturn a : Code A _) := ⟨a, rfl⟩

theorem inSection_reseedDrbg (seed : Bytes)
    (hf : ∀ b, InSection (f b)) : InSection ((reseedDrbg seed).bind f) := by
  intro v
  simp only [Prog.ret_bind]
  split
  · exact hf false
  · exact hf true

theorem inSection_reseedFresh
    (hf : ∀ b, InSection (f b)) : InSection (reseedFresh.bind f) := by
  refine ⟨⟨_, rfl, rfl⟩, fun failed ↦ ?_⟩
  cases failed with
  | true => exact hf false
  | false =>
    intro fresh
    cases fresh with
    | none => exact hf false
    | some fresh => exact inSection_reseedDrbg fresh hf

theorem inSection_reseedIfDue
    (hf : ∀ b, InSection (f b)) : InSection (reseedIfDue.bind f) := by
  intro count
  simp only [Prog.ret_bind]
  split
  · exact inSection_reseedFresh hf
  · exact hf true

theorem inSection_generateDrbg (chunk : ℕ) {f : Option Bytes → Code A (Option Bytes)}
    (hf : ∀ b, InSection (f b)) : InSection ((generateDrbg chunk).bind f) := by
  intro v
  simp only [Prog.ret_bind]
  split
  · exact hf none
  · exact hf (some _)

theorem inSection_bytesLoop (n : ℕ) (out : Bytes) :
    InSection (bytesLoop n out : Code A _) := by
  fun_induction bytesLoop (A := A) n out with
  | case1 out => exact inSection_unlockReturn _
  | case2 n out hn ih =>
    refine inSection_reseedIfDue fun ok ↦ ?_
    cases ok with
    | false => exact inSection_unlockReturn none
    | true =>
      refine inSection_generateDrbg _ fun bytes ↦ ?_
      cases bytes with
      | none => exact inSection_unlockReturn none
      | some bytes => exact ih bytes

theorem inSection_lockedCode (call : RandCall) : InSection (lockedCode call : Code A _) := by
  cases call with
  | init entropy =>
    intro v
    simp only [Prog.ret_bind]
    split
    · exact inSection_unlockReturn none
    · exact inSection_unlockReturn _
  | bytes out outLen => exact inSection_bytesLoop outLen []
  | reseed entropy =>
    refine inSection_reseedDrbg _ fun ok ↦ ?_
    cases ok with
    | false => exact inSection_unlockReturn none
    | true => exact inSection_unlockReturn _
  | cleanup => exact ⟨rfl, inSection_unlockReturn _⟩

/-! ## Undisturbed sections -/

/-- The state that a holder of the lock leaves: the context is instantiated or all zeros, and the
flag says which. -/
structure Settled (i : Bool) (s : Shared A) : Prop where
  ready : s.ready = i
  initialized : s.ctx.initialized = i
  zero : i = false → s.ctx = Ctx.zero A

/-- When a call may write the context and the flag: the functions of the DRBG other than the
instantiation write what they computed from an instantiated context, a call for bytes from the one
that is there, and only an instantiation makes the generator ready. -/
def Pre (call : RandCall) (s : Shared A) : Op A → Prop
  | .writeCtx .instantiate _ => ∃ entropy, call = .init entropy
  | .writeCtx .reseed _ => s.ctx.initialized = true
  | .writeCtx (.generate view) _ =>
    (view = s.view ∧ s.ctx.initialized = true) ∧ ∃ out outLen, call = .bytes out outLen
  | .writeCtx .free ctx => ctx = Ctx.zero A
  | .storeReady b => b = true → ∃ entropy, call = .init entropy
  | _ => True

/-- A section ends in a settled state, and a call that found nothing instantiated has delivered
nothing. -/
def Post (call : RandCall) (s : Shared A) (a : Option Bytes) : Prop :=
  ∃ i, Settled i s ∧ (i = false → delivered call a = none)

/-- The section of a call keeps to both. -/
abbrev Meets (t : ℕ) (call : RandCall) : Shared A → Code A (Option Bytes) → Prop :=
  (machine A).Wp t (Pre call) (Post call)

section Sections

variable {call : RandCall} {t : ℕ} {i : Bool} {s : Shared A}

theorem wp_unlockReturn {a : Option Bytes} (hs : Settled i s)
    (ha : i = false → delivered call a = none) : Meets t call s (unlockReturn a) :=
  wp_of_sem (fun _ ↦ rfl) trivial ⟨i, { hs with }, ha⟩

section Reseed

variable (hs : Settled i s)
  (hf : ∀ ok s', Settled i s' → Meets t call s' (f ok))

include hs hf

theorem wp_reseedDrbg {seed : Bytes} : Meets t call s ((reseedDrbg seed).bind f) := by
  refine wp_of_sem (fun _ ↦ rfl) trivial ?_
  simp only [Prog.ret_bind]
  split
  case isTrue => exact hf false s hs
  case isFalse hok =>
    rw [Bool.not_eq_true, Bool.not_eq_false'] at hok
    obtain ⟨hinit, hinit'⟩ := ctrdrbgReseed_initialized hok
    have htrue : i = true := hs.initialized.symm.trans hinit
    refine wp_of_sem (fun _ ↦ rfl) hinit (wp_of_sem (fun _ ↦ rfl) trivial ?_)
    exact hf true _ ⟨hs.ready, hinit'.trans htrue.symm, fun h ↦
      absurd (h.symm.trans htrue) (by decide)⟩

theorem wp_reseedFresh : Meets t call s (reseedFresh.bind f) := by
  refine wp_of_sem (fun _ ↦ rfl) trivial ?_
  cases hfailed : s.healthFailed with
  | true => exact hf false s hs
  | false =>
    refine ⟨trivial, fun w r s' hsem ↦ ?_⟩
    cases w with
    | value seed =>
      cases hsem
      exact wp_reseedDrbg hs hf
    | failed =>
      cases hsem
      exact hf false s hs
    | unhealthy =>
      cases hsem
      exact hf false _ { hs with }

theorem wp_reseedIfDue : Meets t call s (reseedIfDue.bind f) := by
  refine wp_of_sem (fun _ ↦ rfl) trivial (wp_of_sem (fun _ ↦ rfl) trivial ?_)
  have hs' : Settled i { s with count := increment s.count } := { hs with }
  simp only [Prog.ret_bind]
  split
  · exact wp_reseedFresh hs' hf
  · exact hf true _ hs'

end Reseed

theorem wp_generateDrbg {chunk : ℕ} {f : Option Bytes → Code A (Option Bytes)}
    (hs : Settled i s) (hcall : ∃ out outLen, call = .bytes out outLen)
    (hnone : Meets t call s (f none))
    (hsome : ∀ bytes s', Settled true s' → i = true → Meets t call s' (f (some bytes))) :
    Meets t call s ((generateDrbg chunk).bind f) := by
  refine wp_of_sem (fun _ ↦ rfl) trivial ?_
  simp only [Prog.ret_bind]
  split
  case h_1 => exact hnone
  case h_2 bytes ctx hgen =>
    obtain ⟨hinit, hinit'⟩ := ctrdrbgGenerate_initialized hgen
    have htrue : i = true := hs.initialized.symm.trans hinit
    refine wp_of_sem (fun _ ↦ rfl) ⟨⟨rfl, hinit⟩, hcall⟩ ?_
    exact hsome bytes _ ⟨hs.ready.trans htrue, hinit', fun h ↦ absurd h (by decide)⟩ htrue

theorem length_take_seedlen {entropy : Option Bytes} (h : longEnough entropy = true) :
    ((entropy.getD []).take fipsRandSeedlen).length = fipsRandSeedlen := by
  cases entropy with
  | none => cases h
  | some bytes => exact List.length_take_of_le (of_decide_eq_true h)

theorem wp_initSection {entropy : Option Bytes} (hentropy : longEnough entropy = true) :
    Meets t (.init entropy) s (initSection (entropy.getD [])) := by
  obtain ⟨hok, hinit⟩ := ctrdrbgInit_seed s.ctx (length_take_seedlen hentropy)
  refine wp_of_sem (fun _ ↦ rfl) trivial ?_
  simp only [Prog.ret_bind, Shared.view]
  rw [hok, if_neg (by decide)]
  refine wp_of_sem (fun _ ↦ rfl) ⟨entropy, rfl⟩ ?_
  refine wp_of_sem (fun _ ↦ rfl) trivial ?_
  refine wp_of_sem (fun _ ↦ rfl) (fun _ ↦ ⟨entropy, rfl⟩) ?_
  exact wp_unlockReturn (i := true) ⟨rfl, hinit, fun h ↦ absurd h (by decide)⟩ fun _ ↦ rfl

theorem wp_bytesLoop {o : Bool} {m n : ℕ} {out : Bytes} (hs : Settled i s)
    (hout : out ≠ [] → i = true) : Meets t (.bytes o m) s (bytesLoop n out) := by
  fun_induction bytesLoop (A := A) n out generalizing s i with
  | case1 out =>
    refine wp_unlockReturn hs fun hi ↦ if_pos ?_
    by_contra hne
    exact absurd (hi.symm.trans (hout hne)) (by decide)
  | case2 n out hn ih =>
    refine wp_reseedIfDue hs fun ok s₁ hs₁ ↦ ?_
    cases ok with
    | false => exact wp_unlockReturn hs₁ fun _ ↦ rfl
    | true =>
      refine wp_generateDrbg hs₁ ⟨o, m, rfl⟩ (wp_unlockReturn hs₁ fun _ ↦ rfl) ?_
      intro bytes s₂ hs₂ _
      exact ih bytes hs₂ fun _ ↦ rfl

theorem wp_cleanupSection : Meets t .cleanup s cleanupSection := by
  refine wp_of_sem (fun _ ↦ rfl) (fun h ↦ absurd h (by decide)) ?_
  refine wp_of_sem (fun _ ↦ rfl) rfl ?_
  refine wp_of_sem (fun _ ↦ rfl) trivial ?_
  refine wp_of_sem (fun _ ↦ rfl) trivial ?_
  exact wp_unlockReturn (i := false) ⟨rfl, rfl, fun _ ↦ rfl⟩ fun _ ↦ rfl

/-- What a call does under the lock, from one settled state to the next. -/
theorem wp_lockedCode (hcall : Admitted call) (hs : Settled i s) :
    Meets t call s (lockedCode call) := by
  cases call with
  | init entropy => exact wp_initSection hcall
  | bytes out outLen => exact wp_bytesLoop hs fun h ↦ absurd rfl h
  | reseed entropy =>
    refine wp_reseedDrbg hs fun ok s' hs' ↦ ?_
    cases ok with
    | false => exact wp_unlockReturn hs' fun _ ↦ rfl
    | true => exact wp_unlockReturn hs' fun _ ↦ rfl
  | cleanup => exact wp_cleanupSection

end Sections

/-! ## The lock invariant -/

variable (A) in
/-- A configuration of the generator. -/
abbrev RandConfig := Config (Op A) Resp (Shared A) RandCall (Option Bytes)

/-- Whether the lock has been taken in a trace. -/
def locked (tr : List (Action (Op A) Resp)) : Bool :=
  tr.any fun a ↦ match a.1 with
    | .wrlock => true
    | _ => false

/-- The state from which an operation generates. -/
def viewOf : Op A → Option (View A)
  | .writeCtx (.generate view) _ => some view
  | _ => none

/-- The states from which a call has generated. -/
def views (tr : List (Action (Op A) Resp)) : List (View A) := tr.filterMap fun a ↦ viewOf a.1

theorem locked_append (tr : List (Action (Op A) Resp)) (ho : o ≠ .wrlock) (r : Resp o) :
    locked (tr ++ [⟨o, r⟩]) = locked tr := by
  rw [locked, List.any_append, List.any_cons, List.any_nil, Bool.or_false]
  cases o with
  | wrlock => exact absurd rfl ho
  | _ => exact Bool.or_false _

theorem locked_wrlock (tr : List (Action (Op A) Resp)) :
    locked (tr ++ [⟨Op.wrlock, ()⟩]) = true := by
  rw [locked, List.any_append]
  exact Bool.or_true _

theorem views_append (tr : List (Action (Op A) Resp)) (o : Op A) (r : Resp o) :
    views (tr ++ [⟨o, r⟩]) = views tr ++ (viewOf o).toList := by
  rw [views, List.filterMap_append, List.filterMap_cons, List.filterMap_nil]
  cases viewOf o with
  | none => rfl
  | some v => rfl

theorem views_append_of_none (tr : List (Action (Op A) Resp)) (ho : viewOf o = none)
    (r : Resp o) : views (tr ++ [⟨o, r⟩]) = views tr := by
  rw [views_append, ho]
  exact List.append_nil _

/-- A thread that has not had the lock only looks, until it takes the lock. -/
theorem before_look {k : Resp o → Code A (Option Bytes)}
    (h : Before call (.op o k)) (ho : o ≠ .wrlock) (hsem : (machine A).sem o t w s = some (r, s')) :
    s' = s ∧ Before call (k r) ∧ viewOf o = none := by
  cases o with
  | loadReady =>
    cases hsem
    exact ⟨rfl, h _, rfl⟩
  | loadHealthFailed =>
    cases hsem
    exact ⟨rfl, h _, rfl⟩
  | wrlock => exact absurd rfl ho
  | _ => exact absurd h id

/-- A thread that has the lock keeps it, until it gives it back. -/
theorem inSection_work {k : Resp o → Code A (Option Bytes)}
    (h : InSection (.op o k)) (ho : o ≠ .unlock) (hsem : (machine A).sem o t w s = some (r, s')) :
    s'.holder = s.holder ∧ InSection (k r) := by
  cases o with
  | loadReady => exact absurd h id
  | wrlock => exact absurd h id
  | unlock => exact absurd rfl ho
  | storeReady b =>
    cases hsem
    exact ⟨rfl, h⟩
  | loadHealthFailed =>
    cases hsem
    exact ⟨rfl, h.2 _⟩
  | storeHealthFailed b =>
    cases hsem
    exact ⟨rfl, h.2⟩
  | readCount =>
    cases hsem
    exact ⟨rfl, h _⟩
  | writeCount n =>
    cases hsem
    exact ⟨rfl, h⟩
  | readCtx =>
    cases hsem
    exact ⟨rfl, h _⟩
  | writeCtx step ctx =>
    cases hsem
    refine ⟨?_, h⟩
    cases step with
    | _ => rfl
  | readEntropy =>
    cases w with
    | _ =>
      cases hsem
      exact ⟨rfl, h _⟩

/-- Nobody but the holder of the lock is between `lock` and `unlock`, and the holder is undisturbed
there. -/
structure Inv (c : RandConfig A) : Prop where
  outside : ∀ t thr, c.threads t = some thr → c.shared.holder ≠ some t →
    (Before thr.call thr.prog ∧ locked thr.trace = false ∧ views thr.trace = []) ∨
      ∃ a, thr.prog = .ret a
  inside : ∀ t, c.shared.holder = some t → ∃ thr, c.threads t = some thr ∧
    InSection thr.prog ∧ locked thr.trace = true ∧ Meets t thr.call c.shared thr.prog
  free : c.shared.holder = none → ∃ i, Settled i c.shared

theorem inv_load : Inv (Config.idle (Shared.load A) : RandConfig A) where
  outside _ _ h := by cases h
  inside _ h := by cases h
  free _ := ⟨false, rfl, rfl, fun _ ↦ rfl⟩

/-- Everything that a move can do while the invariant holds. -/
inductive LockStep (c : RandConfig A) : Move Reading RandCall → RandConfig A → Prop
  | start (t : ℕ) (call : RandCall) (ht : c.threads t = none) :
    LockStep c (.start t call)
      ⟨c.shared, update c.threads t (some ⟨call, c.shared, code call, []⟩)⟩
  | look (t : ℕ) (w : Reading) {call : RandCall} {entry : Shared A} {o : Op A}
    {k : Resp o → Code A (Option Bytes)} {tr : List (Action (Op A) Resp)} (r : Resp o)
    (ht : c.threads t = some ⟨call, entry, .op o k, tr⟩) (hholder : c.shared.holder ≠ some t)
    (hbefore : Before call (k r)) (hlocked : locked tr = false ∧ locked (tr ++ [⟨o, r⟩]) = false)
    (hviews : views (tr ++ [⟨o, r⟩]) = []) :
    LockStep c (.exec t w)
      ⟨c.shared, update c.threads t (some ⟨call, entry, k r, tr ++ [⟨o, r⟩]⟩)⟩
  | lock (t : ℕ) (w : Reading) {call : RandCall} {entry : Shared A}
    {k : Unit → Code A (Option Bytes)} {tr : List (Action (Op A) Resp)} {i : Bool}
    (ht : c.threads t = some ⟨call, entry, .op .wrlock k, tr⟩) (hfree : c.shared.holder = none)
    (hsettled : Settled i c.shared) (hcall : Admitted call) (hlocked : locked tr = false)
    (hviews : views tr = []) :
    LockStep c (.exec t w) ⟨{ c.shared with holder := some t },
      update c.threads t (some ⟨call, entry, lockedCode call, tr ++ [⟨Op.wrlock, ()⟩]⟩)⟩
  | work (t : ℕ) (w : Reading) {call : RandCall} {entry : Shared A} {o : Op A}
    {k : Resp o → Code A (Option Bytes)} {tr : List (Action (Op A) Resp)} (r : Resp o)
    (s' : Shared A) (ht : c.threads t = some ⟨call, entry, .op o k, tr⟩)
    (hholder : c.shared.holder = some t) (ho : o ≠ .unlock) (hsection : InSection (.op o k))
    (hpre : Pre call c.shared o) (hsem : (machine A).sem o t w c.shared = some (r, s'))
    (hholder' : s'.holder = some t) (hnext : InSection (k r))
    (hwp : Meets t call s' (k r))
    (hlocked : locked tr = true ∧ locked (tr ++ [⟨o, r⟩]) = true) :
    LockStep c (.exec t w)
      ⟨s', update c.threads t (some ⟨call, entry, k r, tr ++ [⟨o, r⟩]⟩)⟩
  | unlock (t : ℕ) (w : Reading) {call : RandCall} {entry : Shared A}
    {k : Unit → Code A (Option Bytes)} {tr : List (Action (Op A) Resp)}
    {a : Option Bytes} (ht : c.threads t = some ⟨call, entry, .op .unlock k, tr⟩)
    (hholder : c.shared.holder = some t) (hk : k () = .ret a)
    (hpost : Post call { c.shared with holder := none } a) (hlocked : locked tr = true) :
    LockStep c (.exec t w) ⟨{ c.shared with holder := none },
      update c.threads t (some ⟨call, entry, .ret a, tr ++ [⟨Op.unlock, ()⟩]⟩)⟩
  | finish (t : ℕ) {call : RandCall} {entry : Shared A} {a : Option Bytes}
    {tr : List (Action (Op A) Resp)} (ht : c.threads t = some ⟨call, entry, .ret a, tr⟩)
    (hholder : c.shared.holder ≠ some t) :
    LockStep c (.finish t) ⟨c.shared, update c.threads t none⟩

theorem Inv.lockStep {c c' : RandConfig A} (hc : Inv c)
    (h : (machine A).next c m = some c') : LockStep c m c' := by
  obtain ⟨t, call, rfl, ht, rfl⟩ | ⟨t, w, call, entry, o, k, tr, r, s', rfl, ht, hsem, rfl⟩ |
    ⟨t, call, entry, a, tr, rfl, ht, rfl⟩ := Machine.next_cases h
  · exact .start t call ht
  · by_cases hholder : c.shared.holder = some t
    · obtain ⟨thr, ht', hsection, hlocked, hthr⟩ := hc.inside t hholder
      cases ht.symm.trans ht'
      obtain ⟨hpre, hwp⟩ := Machine.wp_op.1 hthr
      have hwp := hwp w r s' hsem
      by_cases ho : o = .unlock
      · subst ho
        cases hsem
        obtain ⟨a, ha⟩ : ∃ a, k () = .ret a := hsection
        rw [ha] at hwp ⊢
        exact .unlock t w ht hholder ha hwp hlocked
      · obtain ⟨hholder', hsection'⟩ := inSection_work hsection ho hsem
        have hwrlock : o ≠ .wrlock := by
          rintro rfl
          exact hsection
        exact .work t w r s' ht hholder ho hsection hpre hsem (hholder'.trans hholder)
          hsection' hwp ⟨hlocked, (locked_append tr hwrlock r).trans hlocked⟩
    · obtain ⟨hbefore, hlocked, hviews⟩ | ⟨a, ha⟩ := hc.outside t _ ht hholder
      · by_cases ho : o = .wrlock
        · subst ho
          by_cases hfree : c.shared.holder = none
          · cases (if_pos hfree).symm.trans hsem
            obtain ⟨i, hsettled⟩ := hc.free hfree
            rw [hbefore.2]
            exact .lock t w ht hfree hsettled hbefore.1 hlocked hviews
          · cases (if_neg hfree).symm.trans hsem
        · obtain ⟨rfl, hbefore', hview⟩ := before_look hbefore ho hsem
          refine .look t w r ht hholder hbefore' ⟨hlocked, (locked_append tr ho r).trans hlocked⟩ ?_
          rw [views_append_of_none tr hview, hviews]
      · cases ha
  · refine .finish t ht fun hholder ↦ ?_
    obtain ⟨thr, ht', hsection, -⟩ := hc.inside t hholder
    cases ht.symm.trans ht'
    exact hsection

theorem Inv.holder_ne {c : RandConfig A} (hc : Inv c) (ht : c.threads t = none) :
    c.shared.holder ≠ some t := by
  intro hholder
  obtain ⟨thr, hthr, -⟩ := hc.inside t hholder
  cases ht.symm.trans hthr

/-- A thread that does not have the lock moves, and the globals stay as they are. -/
theorem Inv.update {c : RandConfig A} (hc : Inv c) (hholder : c.shared.holder ≠ some t)
    {x : Option (Thread (Op A) Resp (Shared A) RandCall (Option Bytes))}
    (hx : ∀ thr, x = some thr →
      Before thr.call thr.prog ∧ locked thr.trace = false ∧ views thr.trace = []) :
    Inv (⟨c.shared, update c.threads t x⟩ : RandConfig A) := by
  refine ⟨fun u thr hu hne ↦ ?_, fun u hu ↦ ?_, hc.free⟩
  · obtain ⟨-, hthr⟩ | ⟨-, hu⟩ := update_eq_some hu
    · exact .inl (hx thr hthr)
    · exact hc.outside u thr hu hne
  · obtain ⟨thr, hthr, hrest⟩ := hc.inside u hu
    have hut : u ≠ t := by
      rintro rfl
      exact hholder hu
    exact ⟨thr, (Function.update_of_ne hut _ _).trans hthr, hrest⟩

theorem inv_next {c c' : RandConfig A} (hc : Inv c)
    (h : (machine A).next c m = some c') : Inv c' := by
  cases hc.lockStep h with
  | start t call ht =>
    refine hc.update (hc.holder_ne ht) fun thr hthr ↦ ?_
    cases hthr
    exact ⟨before_code call, rfl, rfl⟩
  | look t w r ht hholder hbefore hlocked hviews =>
    refine hc.update hholder fun thr hthr ↦ ?_
    cases hthr
    exact ⟨hbefore, hlocked.2, hviews⟩
  | lock t w ht hfree hsettled hcall hlocked hviews =>
    refine ⟨fun u thr hu hne ↦ ?_, fun u hu ↦ ?_, nofun⟩
    · obtain ⟨rfl, -⟩ | ⟨-, hu⟩ := update_eq_some hu
      · exact absurd rfl hne
      · exact hc.outside u thr hu (by rw [hfree]; exact (Option.some_ne_none u).symm)
    · cases hu
      exact ⟨_, update_self _ _ _, inSection_lockedCode _, locked_wrlock _,
        wp_lockedCode hcall { hsettled with }⟩
  | work t w r s' ht hholder ho hsection hpre hsem hholder' hnext hwp hlocked =>
    refine ⟨fun u thr hu hne ↦ ?_, fun u hu ↦ ?_, fun hnone ↦ by cases hholder'.symm.trans hnone⟩
    · obtain ⟨rfl, -⟩ | ⟨hut, hu⟩ := update_eq_some hu
      · exact absurd hholder' hne
      · exact hc.outside u thr hu fun hu' ↦ hut (Option.some.inj (hu'.symm.trans hholder))
    · cases hu.symm.trans hholder'
      exact ⟨_, update_self _ _ _, hnext, hlocked.2, hwp⟩
  | unlock t w ht hholder hk hpost hlocked =>
    refine ⟨fun u thr hu hne ↦ ?_, fun u hu ↦ (by cases hu), fun _ ↦ ?_⟩
    · obtain ⟨-, hthr⟩ | ⟨hut, hu⟩ := update_eq_some hu
      · cases hthr
        exact .inr ⟨_, rfl⟩
      · exact hc.outside u thr hu fun hu' ↦ hut (Option.some.inj (hu'.symm.trans hholder))
    · obtain ⟨i, hsettled, -⟩ := hpost
      exact ⟨i, hsettled⟩
  | finish t ht hholder => exact hc.update hholder nofun

/-! ## The states that are generated from -/

/-- The log of the generating steps: each started from a state of its own, and those of one call
from states of one instantiation. -/
structure Logged (c : RandConfig A) : Prop where
  past : ∀ e ∈ c.shared.generated, e.2.version < c.shared.version
  distinct : (c.shared.generated.map fun e ↦ e.2.version).Nodup
  current : ∀ t thr, c.shared.holder = some t → c.threads t = some thr → ∀ v ∈ views thr.trace,
    v.epoch = c.shared.epoch ∧ ∃ out outLen, thr.call = .bytes out outLen
  epochs : ∀ t thr, c.threads t = some thr → ∃ epoch, ∀ v ∈ views thr.trace, v.epoch = epoch

theorem logged_load : Logged (Config.idle (Shared.load A) : RandConfig A) where
  past _ h := absurd h List.not_mem_nil
  distinct := List.nodup_nil
  current _ _ h := by cases h
  epochs _ _ h := by cases h

/-- What one operation of a section adds to the log. -/
theorem sem_log
    (hpre : Pre call s o) (hsem : (machine A).sem o t w s = some (r, s')) :
    (viewOf o = none ∧ s'.generated = s.generated ∧ s.version ≤ s'.version ∧
      (s'.epoch = s.epoch ∨ ∃ entropy, call = .init entropy)) ∨
    (viewOf o = some s.view ∧ s'.generated = (t, s.view) :: s.generated ∧
      s'.version = s.version + 1 ∧ s'.epoch = s.epoch ∧ ∃ out outLen, call =
      .bytes out outLen) := by
  cases o with
  | writeCtx step ctx =>
    cases hsem
    cases step with
    | instantiate => exact .inl ⟨rfl, rfl, Nat.le_succ _, .inr hpre⟩
    | reseed => exact .inl ⟨rfl, rfl, Nat.le_succ _, .inl rfl⟩
    | generate view =>
      obtain ⟨⟨rfl, -⟩, hcall⟩ := hpre
      exact .inr ⟨rfl, rfl, rfl, rfl, hcall⟩
    | free =>
      refine .inl ⟨rfl, rfl, ?_, .inl rfl⟩
      show s.version ≤ if s.ctx.initialized then s.version + 1 else s.version
      split
      · exact Nat.le_succ _
      · exact le_rfl
  | wrlock =>
    by_cases hfree : s.holder = none
    · cases (if_pos hfree).symm.trans hsem
      exact .inl ⟨rfl, rfl, le_rfl, .inl rfl⟩
    · cases (if_neg hfree).symm.trans hsem
  | readEntropy =>
    cases w with
    | _ =>
      cases hsem
      exact .inl ⟨rfl, rfl, le_rfl, .inl rfl⟩
  | _ =>
    cases hsem
    exact .inl ⟨rfl, rfl, le_rfl, .inl rfl⟩

theorem generated_sem (hpre : Pre call s o) (hsem : (machine A).sem o t w s = some (r, s'))
    (hpast : ∀ e ∈ s.generated, e.2.version < s.version)
    (hdistinct : (s.generated.map fun e ↦ e.2.version).Nodup) :
    (∀ e ∈ s'.generated, e.2.version < s'.version) ∧
      (s'.generated.map fun e ↦ e.2.version).Nodup := by
  obtain ⟨-, hgen, hversion, -⟩ | ⟨-, hgen, hversion, -⟩ := sem_log hpre hsem
  · rw [hgen]
    exact ⟨fun e he ↦ (hpast e he).trans_le hversion, hdistinct⟩
  · rw [hgen, hversion, List.forall_mem_cons, List.map_cons, List.nodup_cons]
    refine ⟨⟨Nat.lt_succ_self _, fun e he ↦ (hpast e he).trans (Nat.lt_succ_self _)⟩, ?_, hdistinct⟩
    intro hmem
    obtain ⟨e, he, heq⟩ := List.mem_map.1 hmem
    exact (hpast e he).ne heq

theorem views_sem
    (hpre : Pre call s o) (hsem : (machine A).sem o t w s = some (r, s'))
    {tr : List (Action (Op A) Resp)}
    (hcurrent : ∀ v ∈ views tr, v.epoch = s.epoch ∧ ∃ out outLen, call = .bytes out outLen) :
    ∀ v ∈ views (tr ++ [⟨o, r⟩]), v.epoch = s'.epoch ∧ ∃ out outLen, call = .bytes out outLen := by
  intro v hv
  obtain ⟨hview, -, -, hepoch⟩ | ⟨hview, -, -, hepoch, hcall⟩ := sem_log hpre hsem
  · rw [views_append_of_none tr hview] at hv
    obtain ⟨hv, out, outLen, rfl⟩ := hcurrent v hv
    obtain hepoch | ⟨entropy, hinit⟩ := hepoch
    · exact ⟨hv.trans hepoch.symm, out, outLen, rfl⟩
    · cases hinit
  · rw [views_append, hview, List.mem_append] at hv
    rw [hepoch]
    obtain hv | hv := hv
    · exact hcurrent v hv
    · cases List.mem_singleton.1 hv
      exact ⟨rfl, hcall⟩

/-- A thread that does not have the lock moves and generates nothing. -/
theorem Logged.update {c : RandConfig A} (hc : Logged c)
    (hholder : c.shared.holder ≠ some t)
    {x : Option (Thread (Op A) Resp (Shared A) RandCall (Option Bytes))}
    (hx : ∀ thr, x = some thr → views thr.trace = []) :
    Logged (⟨c.shared, update c.threads t x⟩ : RandConfig A) := by
  refine ⟨hc.past, hc.distinct, fun u thr hu hthr ↦ ?_, fun u thr hthr ↦ ?_⟩
  · obtain ⟨rfl, -⟩ | ⟨-, hthr⟩ := update_eq_some hthr
    · exact absurd hu hholder
    · exact hc.current u thr hu hthr
  · obtain ⟨-, hthr⟩ | ⟨-, hthr⟩ := update_eq_some hthr
    · refine ⟨0, fun v hv ↦ ?_⟩
      rw [hx thr hthr] at hv
      exact absurd hv List.not_mem_nil
    · exact hc.epochs u thr hthr

theorem logged_next {c c' : RandConfig A} (hc : Inv c)
    (hlog : Logged c) (h : (machine A).next c m = some c') : Logged c' := by
  cases hc.lockStep h with
  | start t call ht =>
    refine hlog.update (hc.holder_ne ht) fun thr hthr ↦ ?_
    cases hthr
    rfl
  | look t w r ht hholder hbefore hlocked hviews =>
    refine hlog.update hholder fun thr hthr ↦ ?_
    cases hthr
    exact hviews
  | lock t w ht hfree hsettled hcall hlocked hviews =>
    refine ⟨hlog.past, hlog.distinct, fun u thr hu hthr v hv ↦ ?_, fun u thr hthr ↦ ?_⟩
    · cases hu
      cases (update_self _ _ _).symm.trans hthr
      rw [views_append_of_none _ rfl, hviews] at hv
      exact absurd hv List.not_mem_nil
    · obtain ⟨-, hthr⟩ | ⟨-, hthr⟩ := update_eq_some hthr
      · cases hthr
        refine ⟨0, fun v hv ↦ ?_⟩
        rw [views_append_of_none _ rfl, hviews] at hv
        exact absurd hv List.not_mem_nil
      · exact hlog.epochs u thr hthr
  | work t w r s' ht hholder ho hsection hpre hsem hholder' hnext hwp hlocked =>
    obtain ⟨hpast, hdistinct⟩ := generated_sem hpre hsem hlog.past hlog.distinct
    have hcurrent := views_sem hpre hsem (hlog.current t _ hholder ht)
    refine ⟨hpast, hdistinct, fun u thr hu hthr ↦ ?_, fun u thr hthr ↦ ?_⟩
    · cases hu.symm.trans hholder'
      cases (update_self _ _ _).symm.trans hthr
      exact hcurrent
    · obtain ⟨-, hthr⟩ | ⟨-, hthr⟩ := update_eq_some hthr
      · cases hthr
        exact ⟨s'.epoch, fun v hv ↦ (hcurrent v hv).1⟩
      · exact hlog.epochs u thr hthr
  | unlock t w ht hholder hk hpost hlocked =>
    refine ⟨hlog.past, hlog.distinct, fun u thr hu ↦ (by cases hu), fun u thr hthr ↦ ?_⟩
    obtain ⟨-, hthr⟩ | ⟨-, hthr⟩ := update_eq_some hthr
    · cases hthr
      rw [views_append_of_none _ rfl]
      exact hlog.epochs t _ ht
    · exact hlog.epochs u thr hthr
  | finish t ht hholder => exact hlog.update hholder nofun

/-- A step that generates uses the context that is there, and it is instantiated. -/
theorem Inv.generates {c : RandConfig A} (hc : Inv c) {view : View A}
    (h : c.nextOp t = some (.writeCtx (.generate view) ctx)) :
    view = c.shared.view ∧ view.ctx.initialized = true := by
  obtain ⟨⟨call, entry, prog, tr⟩, k, ht, hprog⟩ := Config.nextOp_eq_some h
  cases hprog
  by_cases hholder : c.shared.holder = some t
  · obtain ⟨thr, ht', -, -, hthr⟩ := hc.inside t hholder
    cases ht.symm.trans ht'
    obtain ⟨⟨⟨rfl, hinit⟩, -⟩, -⟩ := Machine.wp_op.1 hthr
    exact ⟨rfl, hinit⟩
  · obtain ⟨hbefore, -⟩ | ⟨a, ha⟩ := hc.outside t _ ht hholder
    · exact absurd hbefore id
    · cases ha

theorem inv_run {ms : List (Move Reading RandCall)} {c : RandConfig A}
    (h : (machine A).run (Config.idle (Shared.load A)) ms = some c) : Inv c ∧ Logged c := by
  have hmeets := Machine.meets_of_forall (M := machine A) (P := fun _ _ ↦ True)
    (fun _ _ ↦ trivial) ms
  refine (Machine.reaches_of_run (hmeets _) h).invariant (I := fun c ↦ Inv c ∧ Logged c)
    ⟨inv_load, logged_load⟩ ?_
  rintro c m c' ⟨hc, hlog⟩ - hnext
  exact ⟨inv_next hc hnext, logged_next hc hlog hnext⟩

end Random.Threads
