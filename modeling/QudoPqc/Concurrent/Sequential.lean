import QudoPqc.Concurrent.Machine

/-!
# Sequential runs

A schedule is sequential if at no point of it two threads are inside a call. A machine is
linearizable, as far as what its calls report is observed, if every schedule can be replaced by a
sequential one in which each thread observes the same, and if the replacement of a longer schedule
only adds moves: then a call that ends before another one starts comes before it as well.

`Simulation` is the obligation that this is derived from: a relation between the configurations of
the two runs, kept by every move of the one for some moves of the other.

## Assertions about one thread

`Wp` is the weakest precondition of the rest of a program that its thread executes with nobody
interfering, which is what a thread does while it holds a lock.
-/

namespace Concurrent

variable {Op : Type} {Resp : Op → Type} {S W Call Res β ι : Type}

namespace Machine

variable (M : Machine Op Resp S W Call Res)

/-! ## Undisturbed execution -/

/-- Every operation that thread `t` performs from `s` on is in `Pre` where it is performed, and what
it returns is in `Post`, if no other thread moves. -/
def Wp (t : ℕ) (Pre : S → Op → Prop) (Post : S → Res → Prop) : S → Prog Op Resp Res → Prop
  | s, .ret a => Post s a
  | s, .op o k => Pre s o ∧ ∀ w r s', M.sem o t w s = some (r, s') → Wp t Pre Post s' (k r)

variable {M} in
theorem wp_op {t : ℕ} {Pre : S → Op → Prop} {Post : S → Res → Prop} {s : S} {o : Op}
    {k : Resp o → Prog Op Resp Res} : M.Wp t Pre Post s (.op o k) ↔
      Pre s o ∧ ∀ w r s', M.sem o t w s = some (r, s') → M.Wp t Pre Post s' (k r) := Iff.rfl

/-- An operation with one outcome. -/
theorem wp_of_sem {M : Machine Op Resp S W Call Res} {t : ℕ} {Pre : S → Op → Prop}
    {Post : S → Res → Prop} {s s' : S} {o : Op} {r : Resp o} {k : Resp o → Prog Op Resp Res}
    (hsem : ∀ w, M.sem o t w s = some (r, s')) (hpre : Pre s o) (h : M.Wp t Pre Post s' (k r)) :
    M.Wp t Pre Post s (.op o k) := by
  refine ⟨hpre, fun w r₁ s₁ hs ↦ ?_⟩
  rw [hsem, Option.some.injEq, Prod.mk.injEq] at hs
  obtain ⟨rfl, rfl⟩ := hs
  exact h

/-! ## Observations -/

variable (obs : Call → Res → Option β)

/-- What a thread is about to observe: the result of the call that it has completed. -/
def pending (c : Config Op Resp S Call Res) (t : ℕ) : List β :=
  match c.threads t with
  | some ⟨call, _, .ret a, _⟩ => (obs call a).toList
  | _ => []

/-- What a move lets thread `t` observe. -/
def finished (c : Config Op Resp S Call Res) (t : ℕ) : Move W Call → List β
  | .finish u => if u = t then pending obs c t else []
  | _ => []

/-- What thread `t` observes in a schedule: the results of the calls that it finishes. -/
def observed (t : ℕ) (c : M.Conf) : List (Move W Call) → List β
  | [] => []
  | m :: ms =>
    match M.next c m with
    | some c' => finished obs c t m ++ observed t c' ms
    | none => []

variable {M obs}

variable {t u : ℕ} {ms₁ ms₂ ms : List (Move W Call)} {c c' d d' : Config Op Resp S Call Res}
  {m : Move W Call} {call : Call}

theorem observed_append :
    ∀ {c d : M.Conf}, M.run c ms₁ = some d →
      M.observed obs t c (ms₁ ++ ms₂) = M.observed obs t c ms₁ ++ M.observed obs t d ms₂ := by
  induction ms₁ with
  | nil =>
    intro c d h
    cases h
    rfl
  | cons m ms₁ ih =>
    intro c d h
    rw [run, Option.bind_eq_some_iff] at h
    obtain ⟨c', hnext, hrun⟩ := h
    rw [List.cons_append, observed, observed, hnext]
    dsimp only
    rw [ih hrun, List.append_assoc]

theorem pending_of_op {thr : Thread Op Resp S Call Res}
    {o : Op} {k : Resp o → Prog Op Resp Res} (ht : c.threads t = some thr)
    (hp : thr.prog = .op o k) : pending obs c t = [] := by
  obtain ⟨call, entry, p, tr⟩ := thr
  cases hp
  rw [pending, ht]

theorem pending_of_ret {thr : Thread Op Resp S Call Res}
    {a : Res} (ht : c.threads t = some thr) (hp : thr.prog = .ret a) :
    pending obs c t = (obs thr.call a).toList := by
  obtain ⟨call, entry, p, tr⟩ := thr
  cases hp
  rw [pending, ht]

theorem pending_of_none (ht : c.threads t = none) :
    pending obs c t = [] := by
  rw [pending, ht]

theorem pending_congr
    (h : c'.threads t = c.threads t) : pending obs c' t = pending obs c t := by
  rw [pending, pending, h]

/-! ## What a thread is given -/

section Inputs

variable (inp : Move W Call → List ι) (wait : Thread Op Resp S Call Res → List ι)

/-- What thread `t` is given in a schedule, move by move: the calls that it makes, and what the
oracle chooses for it. -/
def inputs (t : ℕ) (ms : List (Move W Call)) : List ι :=
  ms.flatMap fun m ↦ if m.thread = t then inp m else []

theorem inputs_append (t : ℕ) (ms₁ ms₂ : List (Move W Call)) :
    inputs inp t (ms₁ ++ ms₂) = inputs inp t ms₁ ++ inputs inp t ms₂ := List.flatMap_append

theorem inputs_singleton (t : ℕ) (m : Move W Call) :
    inputs inp t [m] = if m.thread = t then inp m else [] := List.append_nil _

theorem inputs_of_ne (hms : ∀ m ∈ ms, m.thread = t)
    (hu : u ≠ t) : inputs inp u ms = [] :=
  List.flatMap_eq_nil_iff.2 fun m hm ↦ if_neg fun h ↦ hu (h.symm.trans (hms m hm))

/-- What thread `t` has been given and has not used. -/
def waiting (c : Config Op Resp S Call Res) (t : ℕ) : List ι := (c.threads t).elim [] wait

theorem waiting_of_none (ht : c.threads t = none) :
    waiting wait c t = [] := by
  rw [waiting, ht]
  rfl

theorem waiting_congr
    (h : c'.threads t = c.threads t) : waiting wait c' t = waiting wait c t := by
  rw [waiting, waiting, h]

end Inputs

/-! ## Sequential schedules -/

variable (M) in
/-- From `c` on, no two threads are inside a call at the same time. -/
def Sequential (c : Config Op Resp S Call Res) (ms : List (Move W Call)) : Prop :=
  ∀ ms₁ d, ms₁ <+: ms → M.run c ms₁ = some d → ∃ t, Alone t d

theorem Sequential.append
    (h₁ : M.Sequential c ms₁) (hrun : M.run c ms₁ = some d) (h₂ : M.Sequential d ms₂) :
    M.Sequential c (ms₁ ++ ms₂) := by
  intro ms e hms he
  rcases List.prefix_or_prefix_of_prefix hms (List.prefix_append ms₁ ms₂) with h | ⟨ms', rfl⟩
  · exact h₁ ms e h he
  · rw [run_append, hrun, Option.bind_some] at he
    exact h₂ ms' e ((List.prefix_append_right_inj ms₁).1 hms) he

theorem sequential_nil (h : ∃ t, Alone t c) :
    M.Sequential c [] := by
  intro ms₁ d hle hrun
  rw [List.prefix_nil] at hle
  subst hle
  cases hrun
  exact h

/-- The moves of one thread that is alone. -/
theorem sequential_of_alone (hms : ∀ m ∈ ms, m.thread = t) (hc : Alone t c) :
    M.Sequential c ms := by
  intro ms₁ d hle hrun
  refine ⟨t, ?_⟩
  replace hms : ∀ m ∈ ms₁, m.thread = t := fun m hm ↦ hms m (hle.subset hm)
  clear hle
  induction ms₁ generalizing c with
  | nil =>
    cases hrun
    exact hc
  | cons m ms₁ ih =>
    rw [run, Option.bind_eq_some_iff] at hrun
    obtain ⟨c', hnext, hrun⟩ := hrun
    exact ih (alone_next hc (hms m List.mem_cons_self) hnext) hrun
      fun m' hm' ↦ hms m' (List.mem_cons_of_mem _ hm')

/-! ## Linearization -/

section Linearize

variable (M obs) (inp : Move W Call → List ι) (wait : Thread Op Resp S Call Res → List ι)
  (Sim : Config Op Resp S Call Res → Config Op Resp S Call Res → Prop)

/-- The moves `ms`, which take the sequential run from `d` to `d'`, stand for the move `m` from `c`
to `c'`. -/
structure Represents (c d : M.Conf) (m : Move W Call)
    (c' : M.Conf) (ms : List (Move W Call)) (d' : M.Conf) :
    Prop where
  run : M.run d ms = some d'
  sequential : M.Sequential d ms
  related : Sim c' d'
  /-- What has been observed or is about to be is the same before and after. -/
  observed : ∀ t, finished obs c t m ++ pending obs c' t =
    pending obs c t ++ M.observed obs t d ms
  /-- The sequential run is given what the move is given or has been given before. -/
  inputs : ∀ t, (inputs inp t ms ++ waiting wait c' t).Sublist
    (waiting wait c t ++ inputs inp t [m])

/-- Every move of a run is represented by moves of the sequential run. -/
structure Simulation : Prop where
  alone : ∀ c d, Sim c d → ∃ t, Alone t d
  step : ∀ c d m c', Sim c d → M.next c m = some c' →
    ∃ ms d', M.Represents obs inp wait Sim c d m c' ms d'

open Classical in
/-- Moves that represent `m`, and where they lead. -/
noncomputable def representative (c d : Config Op Resp S Call Res) (m : Move W Call)
    (c' : Config Op Resp S Call Res) : List (Move W Call) × Config Op Resp S Call Res :=
  if h : ∃ p : List (Move W Call) × Config Op Resp S Call Res,
    M.Represents obs inp wait Sim c d m c' p.1 p.2 then h.choose else ([], d)

/-- The sequential schedule for a schedule, move by move. -/
noncomputable def linearize (c d : M.Conf) :
    List (Move W Call) → List (Move W Call)
  | [] => []
  | m :: ms =>
    match M.next c m with
    | none => []
    | some c' =>
      let p := M.representative obs inp wait Sim c d m c'
      p.1 ++ linearize c' p.2 ms

theorem linearize_prefix (ms ms' : List (Move W Call)) : ∀ c d,
    M.linearize obs inp wait Sim c d ms <+: M.linearize obs inp wait Sim c d (ms ++ ms') := by
  induction ms with
  | nil => intro c d; exact List.nil_prefix
  | cons m ms ih =>
    intro c d
    rw [List.cons_append, linearize, linearize]
    cases M.next c m with
    | none => exact List.prefix_rfl
    | some c' => exact (List.prefix_append_right_inj _).2 (ih _ _)

end Linearize

section Simulation

variable {inp : Move W Call → List ι} {wait : Thread Op Resp S Call Res → List ι}
  {Sim : Config Op Resp S Call Res → Config Op Resp S Call Res → Prop}

theorem representative_spec (hsim : M.Simulation obs inp wait Sim) (h : Sim c d)
    (hnext : M.next c m = some c') :
    M.Represents obs inp wait Sim c d m c' (M.representative obs inp wait Sim c d m c').1
      (M.representative obs inp wait Sim c d m c').2 := by
  obtain ⟨ms, d', hrep⟩ := hsim.step c d m c' h hnext
  have hex : ∃ p : List (Move W Call) × M.Conf,
      M.Represents obs inp wait Sim c d m c' p.1 p.2 := ⟨(ms, d'), hrep⟩
  rw [representative, dif_pos hex]
  exact hex.choose_spec

/-- **Linearization.** The sequential schedule of a run is a run. Each thread observes in it what it
has observed and is about to observe in the given one, and is given no more than there. -/
theorem run_linearize (hsim : M.Simulation obs inp wait Sim) :
    ∀ {c d c' : M.Conf}, Sim c d → M.run c ms = some c' →
      ∃ d', M.run d (M.linearize obs inp wait Sim c d ms) = some d' ∧
        M.Sequential d (M.linearize obs inp wait Sim c d ms) ∧ Sim c' d' ∧
        (∀ t, M.observed obs t c ms ++ pending obs c' t =
          pending obs c t ++ M.observed obs t d (M.linearize obs inp wait Sim c d ms)) ∧
        ∀ t, (inputs inp t (M.linearize obs inp wait Sim c d ms) ++ waiting wait c' t).Sublist
          (waiting wait c t ++ inputs inp t ms) := by
  induction ms with
  | nil =>
    intro c d c' h hrun
    cases hrun
    exact ⟨d, rfl, sequential_nil (hsim.alone c d h), h, fun t ↦ (List.append_nil _).symm,
      fun t ↦ List.sublist_append_left _ _⟩
  | cons m ms ih =>
    intro c d c' h hrun
    rw [run, Option.bind_eq_some_iff] at hrun
    obtain ⟨c₁, hnext, hrun⟩ := hrun
    have hrep := representative_spec hsim h hnext
    obtain ⟨d', hrun', hseq, hrel, hobs, hin⟩ := ih hrep.related hrun
    rw [linearize, hnext]
    dsimp only
    refine ⟨d', ?_, hrep.sequential.append hrep.run hseq, hrel, fun t ↦ ?_, fun t ↦ ?_⟩
    · rw [run_append, hrep.run, Option.bind_some, hrun']
    · rw [observed, hnext]
      dsimp only
      rw [List.append_assoc, hobs t, ← List.append_assoc, hrep.observed t, List.append_assoc,
        observed_append hrep.run]
    · have hfirst := (hrep.inputs t).append_right (inputs inp t ms)
      rw [List.append_assoc, List.append_assoc, ← inputs_append, List.singleton_append] at hfirst
      rw [inputs_append, List.append_assoc]
      exact ((hin t).append_left _).trans hfirst

/-! ### One thread alone -/

theorem observed_of_ne (hms : ∀ m ∈ ms, m.thread = t)
    (hu : u ≠ t) : ∀ d : M.Conf, M.observed obs u d ms = [] := by
  induction ms with
  | nil => intro d; rfl
  | cons m ms ih =>
    intro d
    rw [observed]
    cases M.next d m with
    | none => rfl
    | some d' =>
      have hm : finished obs d u m = [] := by
        have hthread := hms m List.mem_cons_self
        cases m with
        | finish v => exact if_neg fun h ↦ hu (h.symm.trans hthread)
        | _ => rfl
      dsimp only
      rw [hm, ih (fun m' hm' ↦ hms m' (List.mem_cons_of_mem _ hm')) d', List.append_nil]

/-- Nobody but thread `t` is inside a call, and it has `prog` left of it. -/
def Solo (t : ℕ) (call : Call) (prog : Prog Op Resp Res) (d : Config Op Resp S Call Res) : Prop :=
  ∃ entry tr, d.threads = Function.update (fun _ ↦ none) t (some ⟨call, entry, prog, tr⟩)

theorem Solo.alone {prog : Prog Op Resp Res} (h : Solo t call prog d) : Alone t d := by
  obtain ⟨entry, tr, hd⟩ := h
  intro u hu
  rw [hd, Function.update_of_ne hu]

variable (M obs inp) in
/-- The moves `ms` of thread `t` lead from `d` to `d'`: what it observes and is given. -/
structure Stretch (t : ℕ) (d : M.Conf) (ms : List (Move W Call))
    (d' : M.Conf) (out : List β) (given : List ι) : Prop where
  run : M.run d ms = some d'
  own : ∀ m ∈ ms, m.thread = t
  observed : M.observed obs t d ms = out
  inputs : inputs inp t ms = given

theorem Stretch.nil (t : ℕ) (d : M.Conf) : M.Stretch obs inp t d [] d [] [] :=
  ⟨rfl, fun _ h ↦ absurd h List.not_mem_nil, rfl, rfl⟩

theorem Stretch.trans {e : M.Conf}
    {out₁ out₂ : List β} {given₁ given₂ : List ι} (h₁ : M.Stretch obs inp t d ms₁ e out₁ given₁)
    (h₂ : M.Stretch obs inp t e ms₂ d' out₂ given₂) :
    M.Stretch obs inp t d (ms₁ ++ ms₂) d' (out₁ ++ out₂) (given₁ ++ given₂) where
  run := by rw [run_append, h₁.run, Option.bind_some, h₂.run]
  own m hm := (List.mem_append.1 hm).elim (h₁.own m) (h₂.own m)
  observed := by rw [observed_append h₁.run, h₁.observed, h₂.observed]
  inputs := by rw [inputs_append, h₁.inputs, h₂.inputs]

theorem stretch_of_next
    (h : M.next d m = some d') :
    M.Stretch obs inp m.thread d [m] d' (finished obs d m.thread m) (inp m) where
  run := by rw [run, h]; rfl
  own _ hm := congrArg Move.thread (List.mem_singleton.1 hm)
  observed := by rw [observed, h]; exact List.append_nil _
  inputs := by rw [inputs_singleton, if_pos rfl]

theorem stretch_start (t : ℕ) (call : Call)
    (hd : d.threads = fun _ ↦ none) :
    ∃ d', M.Stretch obs inp t d [.start t call] d' [] (inp (.start t call)) ∧
      d'.shared = d.shared ∧ Solo t call (M.code call) d' := by
  refine ⟨⟨d.shared, Function.update (fun _ ↦ none) t (some ⟨call, d.shared, M.code call, []⟩)⟩,
    stretch_of_next (m := .start t call) ?_, rfl, d.shared, [], rfl⟩
  rw [next, hd]

theorem Solo.exec {o : Op} {k : Resp o → Prog Op Resp Res} (h : Solo t call (.op o k) d) {w : W}
    {r : Resp o} {s' : S}
    (hsem : M.sem o t w d.shared = some (r, s')) :
    ∃ d', M.Stretch obs inp t d [.exec t w] d' [] (inp (.exec t w)) ∧ d'.shared = s' ∧
      Solo t call (k r) d' := by
  obtain ⟨entry, tr, hd⟩ := h
  refine ⟨⟨s', Function.update (fun _ ↦ none) t (some ⟨call, entry, k r, tr ++ [⟨o, r⟩]⟩)⟩,
    stretch_of_next (m := .exec t w) ?_, rfl, entry, _, rfl⟩
  rw [next, hd, Function.update_self]
  dsimp only
  rw [hsem]
  dsimp only
  rw [Function.update_idem]

theorem Solo.finish {a : Res}
    (h : Solo t call (.ret a) d) :
    ∃ d', M.Stretch obs inp t d [.finish t] d' (obs call a).toList (inp (.finish t)) ∧
      d'.shared = d.shared ∧ d'.threads = fun _ ↦ none := by
  obtain ⟨entry, tr, hd⟩ := h
  have ht : d.threads t = some ⟨call, entry, .ret a, tr⟩ := by rw [hd, Function.update_self]
  have hnext : M.next d (.finish t) = some ⟨d.shared, fun _ ↦ none⟩ := by
    rw [next, ht, hd, Function.update_idem, Function.update_eq_self_iff.2 rfl]
  have hstretch : M.Stretch obs inp t d [.finish t] _ _ _ := stretch_of_next hnext
  rw [finished, Move.thread, if_pos rfl, pending_of_ret ht rfl] at hstretch
  exact ⟨_, hstretch, rfl, rfl⟩

theorem threads_of_ne
    (h : M.next c m = some c') (hu : u ≠ m.thread) : c'.threads u = c.threads u := by
  obtain ⟨t, call, rfl, -, rfl⟩ | ⟨t, w, call, entry, o, k, tr, r, s', rfl, -, -, rfl⟩ |
    ⟨t, call, entry, a, tr, rfl, -, rfl⟩ := next_cases h
  all_goals exact Function.update_of_ne hu _ _

/-- The representation of a move by moves of the same thread. -/
theorem represents_of_stretch {out : List β} {given : List ι} (hnext : M.next c m = some c')
    (hm : m.thread = t) (h : M.Stretch obs inp t d ms d' out given) (hseq : M.Sequential d ms)
    (hrel : Sim c' d') (hobs : finished obs c t m ++ pending obs c' t = pending obs c t ++ out)
    (hin : (given ++ waiting wait c' t).Sublist (waiting wait c t ++ inp m)) :
    M.Represents obs inp wait Sim c d m c' ms d' where
  run := h.run
  sequential := hseq
  related := hrel
  observed u := by
    by_cases hu : u = t
    · rw [hu, hobs, h.observed]
    · have hfin : finished obs c u m = [] := by
        cases m with
        | finish v => exact if_neg fun hv ↦ hu (hv.symm.trans hm)
        | _ => rfl
      rw [observed_of_ne h.own hu, hfin, List.append_nil, List.nil_append]
      exact pending_congr (threads_of_ne hnext (hm.symm ▸ hu))
  inputs u := by
    by_cases hu : u = t
    · rw [hu, h.inputs, inputs_singleton, if_pos hm]
      exact hin
    · rw [inputs_of_ne inp h.own hu, inputs_singleton, if_neg fun hv ↦ hu (hv.symm.trans hm),
        List.append_nil, List.nil_append, waiting_congr wait (threads_of_ne hnext (hm.symm ▸ hu))]

/-! ### A call on its own -/

variable (M) in
/-- Thread `t` goes through a program on its own; `w` is what the oracle chooses. -/
def perform {α : Type} (t : ℕ) (w : Op → W) : Prog Op Resp α → S → Option (α × S)
  | .ret a, s => some (a, s)
  | .op o k, s => (M.sem o t (w o) s).bind fun r ↦ perform t w (k r.1) r.2

variable {w : Op → W} {a : Res}

theorem Solo.perform {p : Prog Op Resp Res} {s' : S} (hd : Solo t call p d)
    (h : M.perform t w p d.shared = some (a, s')) :
    ∃ ms d' given, M.Stretch obs inp t d ms d' (obs call a).toList given ∧
      d'.shared = s' ∧ d'.threads = fun _ ↦ none := by
  induction p generalizing d with
  | ret b =>
    cases h
    obtain ⟨d', hfinish, hend⟩ := hd.finish
    exact ⟨_, d', _, hfinish, hend⟩
  | op o k ih =>
    obtain ⟨⟨r, s₁⟩, hsem, hrest⟩ := Option.bind_eq_some_iff.mp h
    obtain ⟨d₁, hexec, rfl, hd₁⟩ := hd.exec hsem
    obtain ⟨ms, d', given, hms, hend⟩ := ih r hd₁ hrest
    exact ⟨_, d', _, hexec.trans hms, hend⟩

/-- A call when no other is in progress. -/
theorem stretch_of_perform {Q : S → Prop} (hd : d.threads = fun _ ↦ none)
    (h : ∃ s', M.perform t w (M.code call) d.shared = some (a, s') ∧ Q s') :
    ∃ ms d' given, M.Stretch obs inp t d ms d' (obs call a).toList given ∧
      Q d'.shared ∧ d'.threads = fun _ ↦ none := by
  obtain ⟨_, hperform, hs'⟩ := h
  obtain ⟨d₁, hstart, hshared, hd₁⟩ := stretch_start t call hd
  obtain ⟨ms, d', given, hms, rfl, hnone⟩ := hd₁.perform (hshared ▸ hperform)
  exact ⟨_, d', _, hstart.trans hms, hs', hnone⟩

end Simulation

end Machine

end Concurrent
