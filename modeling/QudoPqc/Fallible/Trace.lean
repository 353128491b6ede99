import QudoPqc.Fallible.Act

/-!
# Actions that leave a trace

An action that also emits events, such as the release of a buffer with what it contains at that
moment. The events are an output of the run: nothing an action does later can depend on them. So
`run` forgets them and leaves an `Act`, and it commutes with sequencing; what is proved about the
state of a run never has to mention the events. `Emits E` is the other half: all events of a run,
successful or not, are in `E`.
-/

namespace Fallible

variable {σ ε α β : Type}

/-- An action with its events: the result, if there is one, the state it leaves, and the events. -/
def Traced (σ ε α : Type) : Type := σ → (Option α × σ) × List ε

namespace Traced

instance : Monad (Traced σ ε) where
  pure a := fun s ↦ ((some a, s), [])
  bind x f := fun s ↦
    match x s with
    | ((some a, s'), es) => ((f a s').1, es ++ (f a s').2)
    | ((none, s'), es) => ((none, s'), es)

/-- An action without events. -/
def ofAct (x : Act σ α) : Traced σ ε α := fun s ↦ (x s, [])

/-- Read the state. -/
def fetch : Traced σ ε σ := ofAct Act.fetch

/-- Change the state. -/
def update (f : σ → σ) : Traced σ ε Unit := ofAct (Act.update f)

/-- Go on only if `p` holds. -/
def require (p : Bool) : Traced σ ε Unit := ofAct (Act.require p)

/-- Go on only with a value. -/
def ofOption (x : Option α) : Traced σ ε α := ofAct (Act.ofOption x)

/-- Emit events. -/
def emit (es : List ε) : Traced σ ε Unit := fun s ↦ ((some (), s), es)

/-- Run `f` on a value that may be absent. -/
def forSome (x : Option α) (f : α → Traced σ ε Unit) : Traced σ ε Unit := x.elim (pure ()) f

/-- Run `x` on another object, which starts as `r`; the result is what becomes of it. -/
def apart {τ : Type} (x : Traced τ ε α) (r : τ) : Traced σ ε τ := fun s ↦
  (((x r).1.1.map fun _ ↦ (x r).1.2, s), (x r).2)

/-- Run `x`, and then `g` whether it fails or not. -/
def cleanup (x : Traced σ ε α) (g : Traced σ ε Unit) : Traced σ ε α := fun s ↦
  (((x s).1.1, (g (x s).1.2).1.2), (x s).2 ++ (g (x s).1.2).2)

/-- Run `x`, and then `g` if it fails. -/
def onFailure (x : Traced σ ε α) (g : Traced σ ε Unit) : Traced σ ε α := fun s ↦
  match x s with
  | ((some a, s'), es) => ((some a, s'), es)
  | ((none, s'), es) => ((none, (g s').1.2), es ++ (g s').2)

/-! ## Forgetting the events -/

/-- The action without its events. -/
def run (x : Traced σ ε α) : Act σ α := fun s ↦ (x s).1

@[simp] theorem run_pure (a : α) : (pure a : Traced σ ε α).run = pure a := rfl

@[simp] theorem run_bind (x : Traced σ ε α) (f : α → Traced σ ε β) :
    (x >>= f).run = x.run >>= fun a ↦ (f a).run := by
  funext s
  simp only [run, bind]
  rcases x s with ⟨⟨_ | a, s'⟩, es⟩
  · rfl
  · rfl

@[simp] theorem run_fetch : (fetch : Traced σ ε σ).run = Act.fetch := rfl

@[simp] theorem run_update (f : σ → σ) : (update f : Traced σ ε Unit).run = Act.update f := rfl

@[simp] theorem run_require (p : Bool) : (require p : Traced σ ε Unit).run = Act.require p := rfl

@[simp] theorem run_ofOption (x : Option α) :
    (ofOption x : Traced σ ε α).run = Act.ofOption x := rfl

@[simp] theorem run_emit (es : List ε) : (emit es : Traced σ ε Unit).run = pure () := rfl

@[simp] theorem run_forSome (x : Option α) (f : α → Traced σ ε Unit) :
    (forSome x f).run = x.elim (pure ()) fun a ↦ (f a).run := by
  cases x <;> rfl

@[simp] theorem run_apart {τ : Type} (x : Traced τ ε α) (r : τ) :
    (apart x r : Traced σ ε τ).run = Act.ofOption ((x.run r).1.map fun _ ↦ (x.run r).2) := rfl

@[simp] theorem run_cleanup (x : Traced σ ε α) (g : Traced σ ε Unit) :
    (cleanup x g).run = Act.cleanup x.run fun s ↦ (g.run s).2 := rfl

@[simp] theorem run_onFailure (x : Traced σ ε α) (g : Traced σ ε Unit) :
    (onFailure x g).run = Act.onFailure x.run fun s ↦ (g.run s).2 := by
  funext s
  simp only [run, onFailure, Act.onFailure]
  rcases x s with ⟨⟨_ | a, s'⟩, es⟩
  · rfl
  · rfl

@[simp] theorem run_ite {c : Prop} [Decidable c] (x y : Traced σ ε α) :
    (if c then x else y).run = if c then x.run else y.run := apply_ite run c x y

/-! ## The events -/

/-- The events of the run from `s`. -/
def events (x : Traced σ ε α) (s : σ) : List ε := (x s).2

variable {x : Traced σ ε α} {f : Unit → Traced σ ε β} {s : σ} {e : ε} {g : Traced σ ε Unit}
  {p : Bool} {es : List ε}

theorem mem_events_bind {f : α → Traced σ ε β} :
    e ∈ (x >>= f).events s ↔
      e ∈ x.events s ∨ ∃ a r, x.run s = (some a, r) ∧ e ∈ (f a).events r := by
  simp only [events, run, Bind.bind]
  match x s with
  | ((some a, r), es) =>
    rw [List.mem_append]
    refine or_congr_right ⟨fun h ↦ ⟨a, r, rfl, h⟩, ?_⟩
    rintro ⟨a', r', hrun, h⟩
    obtain ⟨ha, rfl⟩ := Prod.mk.inj hrun
    cases ha
    exact h
  | ((none, r), es) =>
    refine (or_iff_left ?_).symm
    rintro ⟨a', r', hrun, -⟩
    exact absurd (Prod.mk.inj hrun).1.symm (Option.some_ne_none a')

@[simp] theorem mem_events_pure {a : α} :
    e ∈ (pure a : Traced σ ε α).events s ↔ False := ⟨List.not_mem_nil, False.elim⟩

@[simp] theorem mem_events_update {g : σ → σ} :
    e ∈ (update g : Traced σ ε Unit).events s ↔ False := ⟨List.not_mem_nil, False.elim⟩

@[simp] theorem mem_events_require :
    e ∈ (require p : Traced σ ε Unit).events s ↔ False := ⟨List.not_mem_nil, False.elim⟩

@[simp] theorem mem_events_fetch_bind {f : σ → Traced σ ε β} :
    e ∈ (fetch >>= f).events s ↔ e ∈ (f s).events s := Iff.rfl

@[simp] theorem mem_events_update_bind {g : σ → σ} :
    e ∈ (update g >>= f).events s ↔ e ∈ (f ()).events (g s) := Iff.rfl

@[simp] theorem mem_events_emit_bind :
    e ∈ (emit es >>= f).events s ↔ e ∈ es ∨ e ∈ (f ()).events s := List.mem_append

@[simp] theorem mem_events_require_bind :
    e ∈ (require p >>= f).events s ↔ p = true ∧ e ∈ (f ()).events s := by
  cases p with
  | false => exact ⟨fun h ↦ absurd h List.not_mem_nil, fun h ↦ nomatch h.1⟩
  | true => exact (and_iff_right rfl).symm

@[simp] theorem mem_events_ofOption_bind {x : Option α} {f : α → Traced σ ε β} :
    e ∈ (ofOption x >>= f).events s ↔ ∃ a, x = some a ∧ e ∈ (f a).events s := by
  cases x with
  | none =>
    refine ⟨fun h ↦ absurd h List.not_mem_nil, ?_⟩
    rintro ⟨a, h, -⟩
    exact nomatch h
  | some a =>
    refine ⟨fun h ↦ ⟨a, rfl, h⟩, ?_⟩
    rintro ⟨a', h, hmem⟩
    cases h
    exact hmem

theorem mem_events_cleanup :
    e ∈ (cleanup x g).events s ↔ e ∈ x.events s ∨ e ∈ g.events (x.run s).2 := List.mem_append

theorem mem_events_onFailure :
    e ∈ (onFailure x g).events s ↔
      e ∈ x.events s ∨ (x.run s).1 = none ∧ e ∈ g.events (x.run s).2 := by
  simp only [events, run, onFailure]
  match x s with
  | ((some a, r), es) =>
    exact (or_iff_left fun h ↦ nomatch h.1).symm
  | ((none, r), es) =>
    rw [List.mem_append]
    exact or_congr_right (and_iff_right rfl).symm

/-- Every run of `x` emits events in `E` only. -/
def Emits (E : ε → Prop) (x : Traced σ ε α) : Prop := ∀ s, ∀ e ∈ x.events s, E e

namespace Emits

variable {E : ε → Prop}

theorem pure (a : α) : Emits E (Pure.pure a : Traced σ ε α) := fun _ _ he ↦
  absurd he List.not_mem_nil

theorem ofAct (x : Act σ α) : Emits E (ofAct x : Traced σ ε α) := fun _ _ he ↦
  absurd he List.not_mem_nil

theorem emit (h : ∀ e ∈ es, E e) : Emits E (emit es : Traced σ ε Unit) := fun _ ↦ h

theorem bind {f : α → Traced σ ε β} (hx : Emits E x)
    (hf : ∀ a, Emits E (f a)) : Emits E (x >>= f) := by
  intro s e he
  rcases mem_events_bind.mp he with hfirst | ⟨a, r, -, hrest⟩
  · exact hx s e hfirst
  · exact hf a r e hrest

theorem fetch_bind {f : σ → Traced σ ε β} (hf : ∀ s, Emits E (f s)) :
    Emits E (Traced.fetch >>= f) := (ofAct _).bind hf

theorem update_bind {g : σ → σ} (hf : Emits E (f ())) :
    Emits E (Traced.update g >>= f) := (ofAct _).bind fun _ ↦ hf

theorem require_bind (hf : Emits E (f ())) :
    Emits E (Traced.require p >>= f) := (ofAct _).bind fun _ ↦ hf

theorem ofOption_bind {x : Option α} {f : α → Traced σ ε β} (hf : ∀ a, Emits E (f a)) :
    Emits E (Traced.ofOption x >>= f) := (ofAct _).bind hf

theorem emit_bind (h : ∀ e ∈ es, E e)
    (hf : Emits E (f ())) : Emits E (Traced.emit es >>= f) := (emit h).bind fun _ ↦ hf

theorem ite {c : Prop} [Decidable c] {y : Traced σ ε α} (hx : Emits E x) (hy : Emits E y) :
    Emits E (if c then x else y) := by
  split
  · exact hx
  · exact hy

theorem forSome {x : Option α} {f : α → Traced σ ε Unit} (hf : ∀ a, Emits E (f a)) :
    Emits E (forSome x f) := by
  cases x with
  | none => exact pure ()
  | some a => exact hf a

theorem apart {τ : Type} {x : Traced τ ε α} {r : τ} (hx : Emits E x) :
    Emits E (apart x r : Traced σ ε τ) := fun _ ↦ hx r

theorem cleanup (hx : Emits E x) (hg : Emits E g) :
    Emits E (cleanup x g) := by
  intro s e he
  rcases mem_events_cleanup.mp he with hfirst | hrest
  · exact hx s e hfirst
  · exact hg _ e hrest

theorem onFailure (hx : Emits E x) (hg : Emits E g) :
    Emits E (onFailure x g) := by
  intro s e he
  rcases mem_events_onFailure.mp he with hfirst | ⟨-, hrest⟩
  · exact hx s e hfirst
  · exact hg _ e hrest

end Emits

end Traced

end Fallible
