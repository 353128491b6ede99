import Mathlib.Logic.Function.Basic
import Mathlib.Logic.Relation
import QudoPqc.Concurrent.Prog

/-!
# Interleaved execution

A machine runs any number of threads over one shared state. A thread is idle or inside a call; the
calls it makes, and the order in which the threads move, are arbitrary. One move is the start of a
call, one atomic operation of a running call, or the return of a finished one. Choices which the
modelled code does not determine (the outcome of a computation left abstract, the failure of a
device) are made by an oracle value handed to the operation.

## Runs under a condition

Safety properties are proved for the runs all of whose moves meet a condition on the configuration
they are taken from; `fun _ _ ↦ True` is the condition that excludes nothing. Reachability is the
reflexive transitive closure, so `Relation.ReflTransGen` supplies its algebra.

## Proof outlines

`outline_next` is the interference-freedom rule: each thread is in some phase of a discipline
that its remaining program keeps, the phase says something about the shared state, and every
operation of one thread leaves what the others rely on true.
-/

namespace Concurrent

/-- A shared-memory machine: the effect of each operation on the shared state, and the program
of each call. `sem o t w s = none` means that thread `t` cannot perform `o` now. -/
structure Machine (Op : Type) (Resp : Op → Type) (S W Call Res : Type) where
  /-- Thread `t` performs `o` in the shared state `s`, the oracle choosing `w`. -/
  sem : (o : Op) → ℕ → W → S → Option (Resp o × S)
  /-- The program that a call runs. -/
  code : Call → Prog Op Resp Res

/-- A thread inside a call. -/
structure Thread (Op : Type) (Resp : Op → Type) (S Call Res : Type) where
  /-- The call being executed. -/
  call : Call
  /-- The shared state in which the call was entered. -/
  entry : S
  /-- What is still to be executed. -/
  prog : Prog Op Resp Res
  /-- What has been executed. -/
  trace : List (Action Op Resp)

/-- A configuration: the shared state and the threads that are inside a call. -/
structure Config (Op : Type) (Resp : Op → Type) (S Call Res : Type) where
  shared : S
  threads : ℕ → Option (Thread Op Resp S Call Res)

/-- A move of one thread. -/
inductive Move (W Call : Type) where
  | start (t : ℕ) (call : Call)
  | exec (t : ℕ) (w : W)
  | finish (t : ℕ)

variable {Op : Type} {Resp : Op → Type} {S W Call Res σ : Type}

/-- The thread that moves. -/
def Move.thread : Move W Call → ℕ
  | .start t _ | .exec t _ | .finish t => t

/-- A thread found after an update of the thread table is the new one or an old one. -/
theorem update_eq_some {α : Type} {f : ℕ → Option α} {t u : ℕ} {x : Option α} {y : α}
    (h : Function.update f t x u = some y) : (u = t ∧ x = some y) ∨ (u ≠ t ∧ f u = some y) := by
  by_cases hut : u = t
  · subst hut
    rw [Function.update_self] at h
    exact .inl ⟨rfl, h⟩
  · rw [Function.update_of_ne hut] at h
    exact .inr ⟨hut, h⟩

theorem update_eq_none {α : Type} {f : ℕ → Option α} {t u : ℕ} {x : Option α}
    (h : Function.update f t x u = none) : (u = t ∧ x = none) ∨ (u ≠ t ∧ f u = none) := by
  by_cases hut : u = t
  · subst hut
    rw [Function.update_self] at h
    exact .inl ⟨rfl, h⟩
  · rw [Function.update_of_ne hut] at h
    exact .inr ⟨hut, h⟩

/-- The operation that thread `t` performs next, if it is inside a call that has not returned. -/
def Config.nextOp (c : Config Op Resp S Call Res) (t : ℕ) : Option Op :=
  (c.threads t).bind fun thr ↦ thr.prog.head?

theorem Config.nextOp_eq_some {c : Config Op Resp S Call Res} {t : ℕ} {o : Op}
    (h : c.nextOp t = some o) : ∃ thr k, c.threads t = some thr ∧ thr.prog = .op o k := by
  obtain ⟨thr, ht, hhead⟩ := Option.bind_eq_some_iff.mp h
  obtain ⟨k, hk⟩ := Prog.head?_eq_some hhead
  exact ⟨thr, k, ht, hk⟩

/-- What the call of thread `t` has returned. -/
def Config.returned (c : Config Op Resp S Call Res) (t : ℕ) : Option Res :=
  (c.threads t).bind fun thr ↦ thr.prog.value?

theorem Config.returned_eq_some {c : Config Op Resp S Call Res} {t : ℕ} {a : Res}
    (h : c.returned t = some a) : ∃ thr, c.threads t = some thr ∧ thr.prog = .ret a := by
  obtain ⟨thr, ht, hval⟩ := Option.bind_eq_some_iff.mp h
  exact ⟨thr, ht, Prog.value?_eq_some hval⟩

/-- All threads are idle. -/
def Config.idle (s : S) : Config Op Resp S Call Res := ⟨s, fun _ ↦ none⟩

namespace Machine

/-- The configurations of a machine. -/
abbrev Conf (_ : Machine Op Resp S W Call Res) : Type := Config Op Resp S Call Res

variable (M : Machine Op Resp S W Call Res)

/-- The effect of a move; `none` when the thread cannot make it. -/
def next (c : Config Op Resp S Call Res) : Move W Call → Option (Config Op Resp S Call Res)
  | .start t call =>
    match c.threads t with
    | none =>
      some { c with
        threads := Function.update c.threads t (some ⟨call, c.shared, M.code call, []⟩) }
    | some _ => none
  | .exec t w =>
    match c.threads t with
    | some ⟨call, entry, .op o k, tr⟩ =>
      match M.sem o t w c.shared with
      | some (r, s') =>
        some ⟨s', Function.update c.threads t (some ⟨call, entry, k r, tr ++ [⟨o, r⟩]⟩)⟩
      | none => none
    | _ => none
  | .finish t =>
    match c.threads t with
    | some ⟨_, _, .ret _, _⟩ => some { c with threads := Function.update c.threads t none }
    | _ => none

/-- The effect of a schedule. -/
def run (c : M.Conf) : List (Move W Call) → Option M.Conf
  | [] => some c
  | m :: ms => (M.next c m).bind fun c' ↦ run c' ms

/-- One move that meets the condition `P`. -/
def Step (P : Config Op Resp S Call Res → Move W Call → Prop)
    (c c' : Config Op Resp S Call Res) : Prop :=
  ∃ m, P c m ∧ M.next c m = some c'

/-- A run all of whose moves meet the condition `P`. -/
def Reaches (P : Config Op Resp S Call Res → Move W Call → Prop) :
    Config Op Resp S Call Res → Config Op Resp S Call Res → Prop :=
  Relation.ReflTransGen (M.Step P)

variable {M}

variable {c c' : Config Op Resp S Call Res} {m : Move W Call}
  {P : Config Op Resp S Call Res → Move W Call → Prop} {ms : List (Move W Call)} {t : ℕ}
  {thr : Thread Op Resp S Call Res} {x : Action Op Resp}

/-- Everything a move can do. -/
theorem next_cases
    (h : M.next c m = some c') :
    (∃ t call, m = .start t call ∧ c.threads t = none ∧
      c' = { c with threads :=
        Function.update c.threads t (some ⟨call, c.shared, M.code call, []⟩) }) ∨
    (∃ t w call entry o k tr r s', m = .exec t w ∧
      c.threads t = some ⟨call, entry, .op o k, tr⟩ ∧ M.sem o t w c.shared = some (r, s') ∧
      c' = ⟨s', Function.update c.threads t (some ⟨call, entry, k r, tr ++ [⟨o, r⟩]⟩)⟩) ∨
    (∃ t call entry a tr, m = .finish t ∧ c.threads t = some ⟨call, entry, .ret a, tr⟩ ∧
      c' = { c with threads := Function.update c.threads t none }) := by
  cases m with
  | start t call =>
    simp only [next] at h
    split at h
    next ht => exact .inl ⟨t, call, rfl, ht, (Option.some.inj h).symm⟩
    next => cases h
  | exec t w =>
    simp only [next] at h
    split at h
    next call entry o k tr ht =>
      split at h
      next r s' hs =>
        exact .inr (.inl ⟨t, w, call, entry, o, k, tr, r, s', rfl, ht, hs,
          (Option.some.inj h).symm⟩)
      next => cases h
    next => cases h
  | finish t =>
    simp only [next] at h
    split at h
    next call entry a tr ht =>
      exact .inr (.inr ⟨t, call, entry, a, tr, rfl, ht, (Option.some.inj h).symm⟩)
    next => cases h

/-- Every move of the schedule meets the condition where it is taken. -/
def Meets (M : Machine Op Resp S W Call Res) (P : M.Conf → Move W Call → Prop)
    (c : M.Conf) : List (Move W Call) → Prop
  | [] => True
  | m :: ms => P c m ∧ ∀ c', M.next c m = some c' → M.Meets P c' ms

/-- A schedule that can be carried out is a run, provided its moves meet the condition. -/
theorem reaches_of_run :
    ∀ {c c' : M.Conf}, M.Meets P c ms → M.run c ms = some c' →
      M.Reaches P c c' := by
  induction ms with
  | nil =>
    intro c c' _ h
    rw [run, Option.some.injEq] at h
    exact h ▸ Relation.ReflTransGen.refl
  | cons m ms ih =>
    intro c c' hP h
    rw [run, Option.bind_eq_some_iff] at h
    obtain ⟨d, hd, hrun⟩ := h
    exact (Relation.ReflTransGen.single ⟨m, hP.1, hd⟩).trans (ih (hP.2 d hd) hrun)

theorem meets_of_forall
    (hP : ∀ c m, P c m) (ms : List (Move W Call)) :
    ∀ c : M.Conf, M.Meets P c ms := by
  induction ms with
  | nil => intro c; trivial
  | cons m ms ih => intro c; exact ⟨hP c m, fun c' _ ↦ ih c'⟩

theorem run_append (c : M.Conf) (ms ms' : List (Move W Call)) :
    M.run c (ms ++ ms') = (M.run c ms).bind fun c' ↦ M.run c' ms' := by
  induction ms generalizing c with
  | nil => rfl
  | cons m ms ih =>
    rw [List.cons_append, run, run, Option.bind_assoc]
    congr 1
    funext c'
    exact ih c'

theorem Meets.append
    {ms' : List (Move W Call)} : ∀ {c c' : M.Conf},
      M.Meets P c (ms ++ ms') → M.run c ms = some c' → M.Meets P c ms ∧ M.Meets P c' ms' := by
  induction ms with
  | nil =>
    intro c c' hP h
    rw [run, Option.some.injEq] at h
    exact ⟨trivial, h ▸ hP⟩
  | cons m ms ih =>
    intro c c' hP h
    rw [run, Option.bind_eq_some_iff] at h
    obtain ⟨d, hd, hrun⟩ := h
    refine ⟨⟨hP.1, fun d' hd' ↦ ?_⟩, (ih (hP.2 d hd) hrun).2⟩
    rw [hd, Option.some.injEq] at hd'
    exact hd' ▸ (ih (hP.2 d hd) hrun).1

/-- What a schedule computes, half way and at its end, is reached. -/
theorem exists_reaches_of_run {β : Type} {ms' : List (Move W Call)}
    {f : M.Conf → β} {v y : β} (hP : M.Meets P c (ms ++ ms'))
    (h : (M.run c ms).map f = some v) (h' : (M.run c (ms ++ ms')).map f = some y) :
    ∃ c₁ c₂, M.Reaches P c c₁ ∧ f c₁ = v ∧ M.Reaches P c₁ c₂ ∧ f c₂ = y := by
  obtain ⟨c₁, hrun, hf⟩ := Option.map_eq_some_iff.mp h
  obtain ⟨c₂, hrun', hf'⟩ := Option.map_eq_some_iff.mp h'
  rw [run_append, hrun, Option.bind_some] at hrun'
  obtain ⟨hms, hms'⟩ := hP.append hrun
  exact ⟨c₁, c₂, reaches_of_run hms hrun, hf, reaches_of_run hms' hrun', hf'⟩

/-- What a schedule computes is reached. -/
theorem exists_reaches {β : Type}
    {f : M.Conf → β} {v : β} (hP : M.Meets P c ms)
    (h : (M.run c ms).map f = some v) : ∃ d, M.Reaches P c d ∧ f d = v := by
  obtain ⟨d, hrun, hf⟩ := Option.map_eq_some_iff.mp h
  exact ⟨d, reaches_of_run hP hrun, hf⟩

/-- A run under a condition is a run under every weaker one. -/
theorem Reaches.mono {P' : M.Conf → Move W Call → Prop}
    (hPP' : ∀ c m, P c m → P' c m) (h : M.Reaches P c c') :
    M.Reaches P' c c' := by
  refine Relation.ReflTransGen.mono ?_ _ _ h
  rintro c c' ⟨m, hP, hn⟩
  exact ⟨m, hPP' c m hP, hn⟩

/-- The induction over runs, packaged once. -/
theorem Reaches.invariant
    {I : M.Conf → Prop}
    (h : M.Reaches P c c') (hc : I c)
    (hstep : ∀ c m c', I c → P c m → M.next c m = some c' → I c') : I c' := by
  induction h with
  | refl => exact hc
  | tail _ hs ih =>
    obtain ⟨m, hP, hn⟩ := hs
    exact hstep _ m _ ih hP hn

/-! ## Runs of one thread -/

/-- No thread other than `t` is inside a call. -/
def Alone (t : ℕ) (c : Config Op Resp S Call Res) : Prop := ∀ u, u ≠ t → c.threads u = none

theorem alone_idle (t : ℕ) (s : S) : Alone t (Config.idle s : Config Op Resp S Call Res) :=
  fun _ _ ↦ rfl

theorem alone_next
    (hc : Alone t c) (hm : m.thread = t) (h : M.next c m = some c') : Alone t c' := by
  obtain ⟨t', call, rfl, -, rfl⟩ | ⟨t', w, call, entry, o, k, tr, r, s', rfl, -, -, rfl⟩ |
    ⟨t', call, entry, a, tr, rfl, -, rfl⟩ := next_cases h
  all_goals
    subst hm
    intro u hu
    exact (Function.update_of_ne hu _ _).trans (hc u hu)

/-- A schedule of a single thread meets every condition which moves made alone meet. -/
theorem meets_of_alone
    (hP : ∀ c m, Alone t c → m.thread = t → P c m)
    (hms : ∀ m ∈ ms, m.thread = t) :
    ∀ {c : M.Conf}, Alone t c → M.Meets P c ms := by
  induction ms with
  | nil => intro c _; trivial
  | cons m ms ih =>
    intro c hc
    have hm : m.thread = t := hms m List.mem_cons_self
    refine ⟨hP c m hc hm, fun c' hn ↦ ?_⟩
    exact ih (fun m' hm' ↦ hms m' (List.mem_cons_of_mem _ hm')) (alone_next hc hm hn)

/-- Every move of the schedule passes the check where it is taken. -/
def Checks (M : Machine Op Resp S W Call Res) (check : M.Conf →
    Move W Call → Bool)
    (c : M.Conf) : List (Move W Call) → Bool
  | [] => true
  | m :: ms => check c m && (M.next c m).all fun c' ↦ M.Checks check c' ms

/-- The same for a condition of which a part has to be computed along the schedule. -/
theorem meets_of_checks
    {check : M.Conf → Move W Call → Bool}
    (hP : ∀ c m, Alone t c → m.thread = t → check c m = true → P c m)
    (hms : ∀ m ∈ ms, m.thread = t) :
    ∀ {c : M.Conf}, Alone t c → M.Checks check c ms = true → M.Meets P c ms := by
  induction ms with
  | nil => intro c _ _; trivial
  | cons m ms ih =>
    intro c hc hchecks
    rw [Checks, Bool.and_eq_true] at hchecks
    have hm : m.thread = t := hms m List.mem_cons_self
    refine ⟨hP c m hc hm hchecks.1, fun c' hn ↦ ?_⟩
    rw [hn] at hchecks
    exact ih (fun m' hm' ↦ hms m' (List.mem_cons_of_mem _ hm')) (alone_next hc hm hn) hchecks.2

/-! ## Traces are paths -/

/-- Every running thread has followed its call's program: whatever completes what is left
completes the whole. -/
def Faithful (M : Machine Op Resp S W Call Res) (c : M.Conf) : Prop :=
  ∀ t thr, c.threads t = some thr → ∀ tr a, thr.prog.Returns tr a →
    (M.code thr.call).Returns (thr.trace ++ tr) a

theorem faithful_next (hc : M.Faithful c)
    (h : M.next c m = some c') : M.Faithful c' := by
  obtain ⟨t, call, -, -, rfl⟩ | ⟨t, w, call, entry, o, k, tr, r, s', -, ht, -, rfl⟩ |
    ⟨t, call, entry, a, tr, -, -, rfl⟩ := next_cases h
  · intro u thr hu tr a hr
    rcases update_eq_some hu with ⟨rfl, hnew⟩ | ⟨-, hold⟩
    · cases hnew
      exact hr
    · exact hc u thr hold tr a hr
  · intro u thr hu tr' a hr
    rcases update_eq_some hu with ⟨rfl, hnew⟩ | ⟨-, hold⟩
    · cases hnew
      have hpath := hc u _ ht (⟨o, r⟩ :: tr') a (.op o k r hr)
      rw [List.append_assoc]
      exact hpath
    · exact hc u thr hold tr' a hr
  · intro u thr hu tr' b hr
    rcases update_eq_some hu with ⟨-, hnew⟩ | ⟨-, hold⟩
    · cases hnew
    · exact hc u thr hold tr' b hr

/-- In every run, a call that has returned has followed a path of its program. -/
theorem Reaches.returns {s : S} (h : M.Reaches P (Config.idle s) c) (ht : c.threads t = some thr)
    {a : Res}
    (hp : thr.prog = .ret a) : (M.code thr.call).Returns thr.trace a := by
  have hc : M.Faithful c := h.invariant nofun
    fun _ _ _ hI _ hn ↦ faithful_next hI hn
  have hpath := hc t thr ht [] a (hp ▸ .ret a)
  rwa [List.append_nil] at hpath

/-! ## The operations of a call, in the schedule -/

/-- Until it returns, a thread inside a call stays as it is or performs its next operation. -/
theorem thread_next (h : M.next c m = some c') (ht : c.threads t = some thr)
    (hfin : m ≠ .finish t) :
    c'.threads t = some thr ∨ ∃ w o k r, m = .exec t w ∧ thr.prog = .op o k ∧
      M.sem o t w c.shared = some (r, c'.shared) ∧
      c'.threads t = some ⟨thr.call, thr.entry, k r, thr.trace ++ [⟨o, r⟩]⟩ := by
  obtain ⟨u, call, rfl, hu, rfl⟩ | ⟨u, w, call, entry, o, k, tr, r, s', rfl, hu, hs, rfl⟩ |
    ⟨u, call, entry, a, tr, rfl, hu, rfl⟩ := next_cases h
  · refine .inl ((Function.update_of_ne ?_ _ _).trans ht)
    rintro rfl
    cases hu.symm.trans ht
  · by_cases htu : t = u
    · subst htu
      cases hu.symm.trans ht
      exact .inr ⟨w, o, k, r, rfl, rfl, hs, Function.update_self _ _ _⟩
    · exact .inl ((Function.update_of_ne htu _ _).trans ht)
  · refine .inl ((Function.update_of_ne ?_ _ _).trans ht)
    rintro rfl
    exact hfin rfl

/-- Until a call returns its trace grows at the end. -/
theorem trace_run (hfin : .finish t ∉ ms) :
    ∀ {c c' : M.Conf} {thr : Thread Op Resp S Call Res},
      M.run c ms = some c' → c.threads t = some thr →
      ∃ thr', c'.threads t = some thr' ∧ thr'.call = thr.call ∧ thr.trace <+: thr'.trace := by
  induction ms with
  | nil =>
    intro c c' thr hrun ht
    rw [run, Option.some.injEq] at hrun
    exact ⟨thr, hrun ▸ ht, rfl, List.prefix_rfl⟩
  | cons m ms ih =>
    intro c c' thr hrun ht
    rw [run, Option.bind_eq_some_iff] at hrun
    obtain ⟨d, hnext, hrun⟩ := hrun
    rw [List.mem_cons, not_or] at hfin
    rcases thread_next hnext ht (Ne.symm hfin.1) with hd | ⟨w, o, k, r, -, -, -, hd⟩
    · exact ih hfin.2 hrun hd
    · obtain ⟨thr', ht', hcall, hprefix⟩ := ih hfin.2 hrun hd
      exact ⟨thr', ht', hcall, (List.prefix_append _ _).trans hprefix⟩

/-- In the schedule `ms` from `c`, thread `t` performs the action `x` as its next one: after `ms₁`,
in the configuration `d`, which becomes `d'`. -/
structure Performs (M : Machine Op Resp S W Call Res) (t : ℕ) (c : M.Conf)
    (ms : List (Move W Call)) (x : Action Op Resp) (ms₁ : List (Move W Call)) (w : W)
    (ms₂ : List (Move W Call)) (d d' : M.Conf) : Prop where
  schedule : ms = ms₁ ++ .exec t w :: ms₂
  before : M.run c ms₁ = some d
  nextOp : d.nextOp t = some x.1
  sem : M.sem x.1 t w d.shared = some (x.2, d'.shared)
  next : M.next d (.exec t w) = some d'

/-- Where an action is performed, the condition of the schedule holds. -/
theorem Performs.meets
    {d d' : M.Conf} {ms₁ ms₂ : List (Move W Call)}
    {w : W} (h : M.Performs t c ms x ms₁ w ms₂ d d') (hP : M.Meets P c ms) : P d (.exec t w) := by
  rw [h.schedule] at hP
  exact (hP.append h.before).2.1

/-- The first new entry of a trace has been performed somewhere in the schedule. -/
theorem performs_first (hfin : .finish t ∉ ms) {tr : List (Action Op Resp)} :
    ∀ {c c' : M.Conf} {thr thr' : Thread Op Resp S Call Res},
      M.run c ms = some c' → c.threads t = some thr → c'.threads t = some thr' →
      thr'.trace = thr.trace ++ x :: tr →
      ∃ ms₁ w ms₂ d d' thr₁, M.Performs t c ms x ms₁ w ms₂ d d' ∧ M.run d' ms₂ = some c' ∧
        d'.threads t = some thr₁ ∧ thr₁.trace = thr.trace ++ [x] := by
  induction ms with
  | nil =>
    intro c c' thr thr' hrun ht ht' htr
    rw [run, Option.some.injEq] at hrun
    subst hrun
    cases ht.symm.trans ht'
    exact absurd (List.self_eq_append_right.mp htr) (List.cons_ne_nil _ _)
  | cons m ms ih =>
    intro c c' thr thr' hrun ht ht' htr
    rw [run, Option.bind_eq_some_iff] at hrun
    obtain ⟨d, hnext, hrun⟩ := hrun
    rw [List.mem_cons, not_or] at hfin
    rcases thread_next hnext ht (Ne.symm hfin.1) with hd | ⟨w, o, k, r, rfl, hprog, hs, hd⟩
    · obtain ⟨ms₁, w, ms₂, e, e', thr₁, hperf, hrest⟩ := ih hfin.2 hrun hd ht' htr
      refine ⟨m :: ms₁, w, ms₂, e, e', thr₁, ⟨?_, ?_, hperf.nextOp, hperf.sem, hperf.next⟩, hrest⟩
      · rw [hperf.schedule, List.cons_append]
      · rw [run, hnext, Option.bind_some, hperf.before]
    · -- the operation performed here is the first one the trace has gained
      obtain ⟨thr₂, ht₂, -, hprefix⟩ := trace_run hfin.2 hrun hd
      cases ht'.symm.trans ht₂
      rw [htr, List.prefix_append_right_inj, List.cons_prefix_cons] at hprefix
      obtain ⟨rfl, -⟩ := hprefix
      refine ⟨[], w, ms, c, d, _, ⟨rfl, rfl, ?_, hs, hnext⟩, hrun, hd, rfl⟩
      rw [Config.nextOp, ht, Option.bind_some, hprog]
      rfl

/-- Every new entry of a trace has been performed somewhere in the schedule. -/
theorem performs_of_trace (hfin : .finish t ∉ ms) {tr₁ tr₂ : List (Action Op Resp)}
    {thr' : Thread Op Resp S Call Res}
    (hrun : M.run c ms = some c') (ht : c.threads t = some thr) (ht' : c'.threads t = some thr')
    (htr : thr'.trace = thr.trace ++ (tr₁ ++ x :: tr₂)) :
    ∃ ms₁ w ms₂ d d' thr₁, M.Performs t c ms x ms₁ w ms₂ d d' ∧ M.run d' ms₂ = some c' ∧
      d'.threads t = some thr₁ ∧ thr₁.trace = thr.trace ++ (tr₁ ++ [x]) := by
  induction tr₁ generalizing c ms thr with
  | nil => exact performs_first hfin hrun ht ht' htr
  | cons y tr₁ ih =>
    obtain ⟨ms₁, w, ms₂, d, d', thr₁, hperf, hrun', ht₁, htr₁⟩ :=
      performs_first hfin hrun ht ht' htr
    have hfin₂ : .finish t ∉ ms₂ := fun hmem ↦ hfin (by simp [hperf.schedule, hmem])
    have hsplit : thr'.trace = thr₁.trace ++ (tr₁ ++ x :: tr₂) := by
      rw [htr, htr₁, List.append_assoc, List.cons_append, List.singleton_append]
    obtain ⟨ms₁', w', ms₂', e, e', thr₂, hperf', hrest, ht₂, htr₂⟩ := ih hfin₂ hrun' ht₁ hsplit
    refine ⟨ms₁ ++ .exec t w :: ms₁', w', ms₂', e, e', thr₂,
      ⟨?_, ?_, hperf'.nextOp, hperf'.sem, hperf'.next⟩, hrest, ht₂, ?_⟩
    · rw [hperf.schedule, hperf'.schedule, List.append_assoc, List.cons_append]
    · rw [run_append, hperf.before, Option.bind_some, run, hperf.next, Option.bind_some,
        hperf'.before]
    · rw [htr₂, htr₁, List.append_assoc, List.singleton_append, List.cons_append]

/-! ## What a thread that runs alone leaves behind -/

/-- Thread `t` takes the shared state from one value to another by the operations of the trace,
with the answers recorded there. -/
def Follows (M : Machine Op Resp S W Call Res) (t : ℕ) : S → List (Action Op Resp) → S → Prop
  | s, [], s' => s' = s
  | s, x :: tr, s' => ∃ w s₁, M.sem x.1 t w s = some (x.2, s₁) ∧ M.Follows t s₁ tr s'

theorem follows_append {tr₁ tr₂ : List (Action Op Resp)} :
    ∀ {s s' : S}, M.Follows t s (tr₁ ++ tr₂) s' ↔
      ∃ s₁, M.Follows t s tr₁ s₁ ∧ M.Follows t s₁ tr₂ s' := by
  induction tr₁ with
  | nil =>
    intro s s'
    constructor
    · intro h
      exact ⟨s, rfl, h⟩
    · rintro ⟨s₁, rfl, h⟩
      exact h
  | cons x tr₁ ih =>
    intro s s'
    constructor
    · rintro ⟨w, s₂, hs, h⟩
      obtain ⟨s₁, h₁, h₂⟩ := ih.mp h
      exact ⟨s₁, ⟨w, s₂, hs, h₁⟩, h₂⟩
    · rintro ⟨s₁, ⟨w, s₂, hs, h₁⟩, h₂⟩
      exact ⟨w, s₂, hs, ih.mpr ⟨s₁, h₁, h₂⟩⟩

/-- What is preserved by every operation in `T` is preserved along a trace of such operations. -/
theorem Follows.preserves {T : Op → Prop} {I : S → Prop}
    (hstep : ∀ o w s r s', T o → M.sem o t w s = some (r, s') → I s → I s')
    {tr : List (Action Op Resp)} (htr : ∀ x ∈ tr, T x.1) :
    ∀ {s s' : S}, M.Follows t s tr s' → I s → I s' := by
  induction tr with
  | nil =>
    rintro s s' rfl hI
    exact hI
  | cons x tr ih =>
    rw [List.forall_mem_cons] at htr
    rintro s s' ⟨w, s₁, hs, h⟩ hI
    exact ih htr.2 h (hstep _ w s _ s₁ htr.1 hs hI)

/-- In a run of thread `t` alone, the shared state is what the trace of its call makes of the state
in which the call was entered. -/
theorem Reaches.follows {s : S}
    (h : M.Reaches (fun _ m ↦ m.thread = t) (Config.idle s) c) :
    Alone t c ∧ ∀ thr, c.threads t = some thr → M.Follows t thr.entry thr.trace c.shared := by
  refine h.invariant (I := fun c ↦ Alone t c ∧ ∀ thr, c.threads t = some thr →
    M.Follows t thr.entry thr.trace c.shared) ⟨alone_idle t s, nofun⟩ ?_
  rintro c m c' ⟨halone, hfollows⟩ hm hnext
  refine ⟨alone_next halone hm hnext, ?_⟩
  obtain ⟨u, call, rfl, -, rfl⟩ | ⟨u, w, call, entry, o, k, tr, r, s', rfl, hu, hs, rfl⟩ |
    ⟨u, call, entry, a, tr, rfl, -, rfl⟩ := next_cases hnext
  all_goals
    subst hm
    intro thr ht
    replace ht := (Function.update_self _ _ _).symm.trans ht
  · cases ht
    rfl
  · cases ht
    exact follows_append.mpr ⟨c.shared, hfollows _ hu, w, s', hs, rfl⟩
  · cases ht

/-! ## Proof outlines -/

/-- The shared state is good, idle threads find it as `Idle` says, and each running thread is in a
phase which its remaining program keeps and which is right about the shared state. -/
structure Outline (D : Call → Discipline Op Resp σ) (G : S → Prop) (Idle : S → ℕ → Prop)
    (Rel : S → ℕ → Thread Op Resp S Call Res → σ → Prop) (Q : Call → σ → Res → Prop)
    (c : Config Op Resp S Call Res) : Prop where
  good : G c.shared
  idle : ∀ t, c.threads t = none → Idle c.shared t
  running : ∀ t thr, c.threads t = some thr →
    ∃ φ, Rel c.shared t thr φ ∧ (D thr.call).Keeps φ thr.prog (Q thr.call)

/-- **Interference freedom.** An outline is kept by every move if calls start and end in phases
that fit idle threads, and each operation of a thread moves that thread along the discipline while
every other thread finds a phase for its own remaining program. -/
theorem outline_next {D : Call → Discipline Op Resp σ} {G : S → Prop} {Idle : S → ℕ → Prop}
    {Rel : S → ℕ → Thread Op Resp S Call Res → σ → Prop} {Q : Call → σ → Res → Prop}
    (hstart : ∀ t call, m = .start t call → Idle c.shared t → ∃ φ,
      Rel c.shared t ⟨call, c.shared, M.code call, []⟩ φ ∧
        (D call).Keeps φ (M.code call) (Q call))
    (hfinish : ∀ t call entry a tr φ, Rel c.shared t ⟨call, entry, .ret a, tr⟩ φ → Q call φ a →
      Idle c.shared t)
    (hidle : ∀ t w o r s' u, M.sem o t w c.shared = some (r, s') → u ≠ t → Idle c.shared u →
      Idle s' u)
    (hown : ∀ t w call entry o k tr r s' φ, m = .exec t w →
      c.threads t = some ⟨call, entry, .op o k, tr⟩ → M.sem o t w c.shared = some (r, s') →
      G c.shared → Rel c.shared t ⟨call, entry, .op o k, tr⟩ φ → (D call).Allowed φ o →
      G s' ∧ ∃ φ', (D call).Next φ o r φ' ∧ Rel s' t ⟨call, entry, k r, tr ++ [⟨o, r⟩]⟩ φ')
    (hother : ∀ t w call entry o k tr r s' φ u thr ψ, m = .exec t w →
      c.threads t = some ⟨call, entry, .op o k, tr⟩ → M.sem o t w c.shared = some (r, s') →
      Rel c.shared t ⟨call, entry, .op o k, tr⟩ φ → (D call).Allowed φ o → u ≠ t →
      c.threads u = some thr → Rel c.shared u thr ψ → (D thr.call).Keeps ψ thr.prog (Q thr.call) →
      ∃ ψ', Rel s' u thr ψ' ∧ (D thr.call).Keeps ψ' thr.prog (Q thr.call))
    (hc : Outline D G Idle Rel Q c) (h : M.next c m = some c') : Outline D G Idle Rel Q c' := by
  obtain ⟨hG, hI, hthr⟩ := hc
  obtain ⟨t, call, hm, ht, rfl⟩ | ⟨t, w, call, entry, o, k, tr, r, s', hm, ht, hs, rfl⟩ |
    ⟨t, call, entry, a, tr, -, ht, rfl⟩ := next_cases h
  · refine ⟨hG, fun u hu ↦ ?_, fun u thr hu ↦ ?_⟩
    · rcases update_eq_none hu with ⟨-, hnew⟩ | ⟨-, hold⟩
      · cases hnew
      · exact hI u hold
    · rcases update_eq_some hu with ⟨rfl, hnew⟩ | ⟨-, hold⟩
      · cases hnew
        exact hstart u call hm (hI u ht)
      · exact hthr u thr hold
  · obtain ⟨φ, hrel, hallow, hkeep⟩ := hthr t _ ht
    obtain ⟨hG', φ', hnext, hrel'⟩ := hown t w call entry o k tr r s' φ hm ht hs hG hrel hallow
    refine ⟨hG', fun u hu ↦ ?_, fun u thr hu ↦ ?_⟩
    · rcases update_eq_none hu with ⟨-, hnew⟩ | ⟨hut, hold⟩
      · cases hnew
      · exact hidle t w o r s' u hs hut (hI u hold)
    · rcases update_eq_some hu with ⟨rfl, hnew⟩ | ⟨hut, hold⟩
      · cases hnew
        exact ⟨φ', hrel', hkeep r φ' hnext⟩
      · obtain ⟨ψ, hψ, hkψ⟩ := hthr u thr hold
        exact hother t w call entry o k tr r s' φ u thr ψ hm ht hs hrel hallow hut hold hψ hkψ
  · obtain ⟨φ, hrel, hQ⟩ := hthr t _ ht
    refine ⟨hG, fun u hu ↦ ?_, fun u thr hu ↦ ?_⟩
    · rcases update_eq_none hu with ⟨rfl, -⟩ | ⟨-, hold⟩
      · exact hfinish u call entry a tr φ hrel hQ
      · exact hI u hold
    · rcases update_eq_some hu with ⟨-, hnew⟩ | ⟨-, hold⟩
      · cases hnew
      · exact hthr u thr hold

end Machine

end Concurrent
