import Mathlib.Init

/-!
# Fallible actions on a state

A C function that fills in an object, checks each call and jumps to an error label is an action
that may fail and keeps, when it fails, what it has written so far. `Act σ α` is such an action on
states of type `σ`; `cleanup` and `onFailure` are the code at the label.

A run is described in two ways. The `_eq_some` rules read a successful run off step by step, and
turn it into one conjunction. `Keeps f` says that a run, successful or not, does not change what
`f` reads from the state.
-/

namespace Fallible

variable {σ α β τ : Type}

/-- An action: the result, if there is one, and the state it leaves. -/
def Act (σ α : Type) : Type := σ → Option α × σ

namespace Act

instance : Monad (Act σ) where
  pure a := fun s ↦ (some a, s)
  bind x f := fun s ↦
    match x s with
    | (some a, s') => f a s'
    | (none, s') => (none, s')

/-- Read the state. -/
def fetch : Act σ σ := fun s ↦ (some s, s)

/-- Change the state. -/
def update (f : σ → σ) : Act σ Unit := fun s ↦ (some (), f s)

/-- Go on only if `p` holds. -/
def require (p : Bool) : Act σ Unit := fun s ↦ (if p then some () else none, s)

/-- Go on only with a value. -/
def ofOption (x : Option α) : Act σ α := fun s ↦ (x, s)

/-- Run `x`, and change the state whether it fails or not. -/
def cleanup (x : Act σ α) (f : σ → σ) : Act σ α := fun s ↦ ((x s).1, f (x s).2)

/-- Run `x`, and change the state if it fails. -/
def onFailure (x : Act σ α) (f : σ → σ) : Act σ α := fun s ↦
  match x s with
  | (some a, s') => (some a, s')
  | (none, s') => (none, f s')

/-! ## Successful runs -/

variable {x : Act σ α} {f : α → Act σ β} {s t r : σ} {b : β} {a : α} {p : Bool} {g : σ → σ}

theorem bind_eq_some :
    (x >>= f) s = (some b, t) ↔ ∃ a r, x s = (some a, r) ∧ f a r = (some b, t) := by
  constructor
  · intro h
    match hx : x s with
    | (some a, r) =>
      refine ⟨a, r, rfl, ?_⟩
      simpa only [bind, hx] using h
    | (none, r) => simp [bind, hx] at h
  · rintro ⟨a, r, hx, hf⟩
    simp only [bind, hx, hf]

theorem bind_of_eq_some (f : α → Act σ β)
    (h : x s = (some a, r)) : (x >>= f) s = f a r := by
  simp only [bind, h]

theorem bind_of_eq_none (f : α → Act σ β) (h : x s = (none, r)) :
    (x >>= f) s = (none, r) := by
  simp only [bind, h]

/-- The state does not depend on what is made of the result. -/
theorem bind_pure_snd (x : Act σ α) (b : β) (s : σ) :
    ((x >>= fun _ ↦ pure b) s).2 = (x s).2 := by
  match h : x s with
  | (some a, r) => rw [bind_of_eq_some _ h]; rfl
  | (none, r) => rw [bind_of_eq_none _ h]

theorem require_bind (hp : p = true) (f : Unit → Act σ β) (s : σ) :
    (require p >>= f) s = f () s := by
  rw [hp]
  rfl

theorem ofOption_bind {x : Option α} (hx : x = some a) (f : α → Act σ β) (s : σ) :
    (ofOption x >>= f) s = f a s := by
  rw [hx]
  rfl

@[simp] theorem ofOption_some_bind (a : α) (f : α → Act σ β) : ofOption (some a) >>= f = f a := rfl

/-- From `s`, `x` succeeds if `P` holds, and then with `a` and the state `r`. -/
def Yields (x : Act σ α) (s : σ) (P : Prop) (a : α) (r : σ) : Prop :=
  ∀ a' r', x s = (some a', r') ↔ P ∧ a = a' ∧ r = r'

theorem Yields.bind_iff {P : Prop}
    (h : Yields x s P a r) : (x >>= f) s = (some b, t) ↔ P ∧ f a r = (some b, t) := by
  rw [bind_eq_some]
  constructor
  · rintro ⟨a', r', hx, hf⟩
    obtain ⟨hP, rfl, rfl⟩ := (h a' r').mp hx
    exact ⟨hP, hf⟩
  · rintro ⟨hP, hf⟩
    exact ⟨a, r, (h a r).mpr ⟨hP, rfl, rfl⟩, hf⟩

@[simp] theorem pure_eq_some {b : α} :
    (pure a : Act σ α) s = (some b, t) ↔ a = b ∧ s = t := by
  change (some a, s) = (some b, t) ↔ _
  rw [Prod.mk.injEq, Option.some.injEq]

@[simp] protected theorem pure_bind (a : α) (f : α → Act σ β) : pure a >>= f = f a := rfl

@[simp] theorem pure_snd (a : α) (s : σ) : ((pure a : Act σ α) s).2 = s := rfl

@[simp] theorem fetch_bind (f : σ → Act σ β) (s : σ) : (fetch >>= f) s = f s s := rfl

@[simp] theorem update_bind (g : σ → σ) (f : Unit → Act σ β) (s : σ) :
    (update g >>= f) s = f () (g s) := rfl

@[simp] theorem update_eq_some {u : Unit} :
    update g s = (some u, t) ↔ g s = t := by
  rw [update, Prod.mk.injEq]
  exact and_iff_right rfl

@[simp] theorem require_eq_some {u : Unit} :
    require p s = (some u, t) ↔ p = true ∧ s = t := by
  cases p <;> simp [require]

@[simp] theorem require_bind_eq_some {f : Unit → Act σ β} :
    (require p >>= f) s = (some b, t) ↔ p = true ∧ f () s = (some b, t) := by
  rw [bind_eq_some]
  constructor
  · rintro ⟨u, r, hp, hf⟩
    obtain ⟨hp', rfl⟩ := require_eq_some.mp hp
    exact ⟨hp', hf⟩
  · rintro ⟨hp, hf⟩
    exact ⟨(), s, require_eq_some.mpr ⟨hp, rfl⟩, hf⟩

@[simp] theorem require_false_bind (f : Unit → Act σ β) (s : σ) :
    (require false >>= f) s = (none, s) := rfl

@[simp] theorem ofOption_bind_eq_some {x : Option α} :
    (ofOption x >>= f) s = (some b, t) ↔ ∃ a, x = some a ∧ f a s = (some b, t) := by
  rw [bind_eq_some]
  constructor
  · rintro ⟨a, r, hx, hf⟩
    obtain ⟨hx', rfl⟩ := Prod.mk.inj hx
    exact ⟨a, hx', hf⟩
  · rintro ⟨a, hx, hf⟩
    exact ⟨a, s, Prod.ext hx rfl, hf⟩

theorem cleanup_eq_some :
    cleanup x g s = (some a, t) ↔ ∃ r, x s = (some a, r) ∧ g r = t := by
  rw [cleanup, Prod.mk.injEq]
  constructor
  · rintro ⟨ha, rfl⟩
    exact ⟨_, Prod.ext ha rfl, rfl⟩
  · rintro ⟨r, hx, rfl⟩
    rw [hx]
    exact ⟨rfl, rfl⟩

@[simp] theorem onFailure_eq_some :
    onFailure x g s = (some a, t) ↔ x s = (some a, t) := by
  match hx : x s with
  | (some b, r) => rw [onFailure, hx]
  | (none, r) => simp [onFailure, hx]

@[simp] theorem onFailure_bind_eq_some : (onFailure x g >>= f) s = (some b, t) ↔ (x >>= f) s =
    (some b, t) := by
  simp only [bind_eq_some, onFailure_eq_some]

/-! ## What a run leaves alone -/

/-- No run of `x` changes what `f` reads. -/
def Keeps (f : σ → τ) (x : Act σ α) : Prop := ∀ s, f (x s).2 = f s

namespace Keeps

variable {f : σ → τ}

theorem bind {g : α → Act σ β} (hx : Keeps f x) (hg : ∀ a, Keeps f (g a)) :
    Keeps f (x >>= g) := by
  intro s
  have hs := hx s
  match h : x s with
  | (some a, r) =>
    rw [h] at hs
    rw [bind_of_eq_some g h, hg a r, hs]
  | (none, r) =>
    rw [h] at hs
    rwa [bind_of_eq_none g h]

theorem pure (a : α) : Keeps f (Pure.pure a : Act σ α) := fun _ ↦ rfl

theorem fetch : Keeps f (fetch : Act σ σ) := fun _ ↦ rfl

theorem update (h : ∀ s, f (g s) = f s) : Keeps f (update g) := h

theorem require (p : Bool) : Keeps f (require p : Act σ Unit) := fun _ ↦ rfl

theorem ofOption (x : Option α) : Keeps f (ofOption x : Act σ α) := fun _ ↦ rfl

theorem fetch_bind {y : σ → Act σ β} (h : ∀ s, Keeps f (y s)) : Keeps f (Act.fetch >>= y) :=
  fetch.bind h

theorem require_bind (h : Keeps f x) : Keeps f (Act.require p >>= fun _ ↦ x) :=
  (require p).bind fun _ ↦ h

theorem ofOption_bind {y : Option α} {z : α → Act σ β} (h : ∀ a, Keeps f (z a)) :
    Keeps f (Act.ofOption y >>= z) :=
  (ofOption y).bind h

theorem update_bind (h : ∀ s, f (g s) = f s) (hx : Keeps f x) :
    Keeps f (Act.update g >>= fun _ ↦ x) :=
  (update h).bind fun _ ↦ hx

theorem cleanup (hx : Keeps f x) (h : ∀ s, f (g s) = f s) :
    Keeps f (cleanup x g) := fun s ↦ (h _).trans (hx s)

theorem onFailure (hx : Keeps f x) (h : ∀ s, f (g s) = f s) :
    Keeps f (onFailure x g) := by
  intro s
  have hs := hx s
  match hxs : x s with
  | (some a, r) =>
    rw [hxs] at hs
    rw [Act.onFailure, hxs]
    exact hs
  | (none, r) =>
    rw [hxs] at hs
    rw [Act.onFailure, hxs]
    exact (h r).trans hs

end Keeps

/-! ## Pre- and postconditions -/

/-- From a state with `P`, `x` either succeeds with `Q` or fails with `R`. -/
def Triple (P : σ → Prop) (x : Act σ α) (Q : α → σ → Prop) (R : σ → Prop) : Prop :=
  ∀ s, P s → (∀ a, (x s).1 = some a → Q a (x s).2) ∧ ((x s).1 = none → R (x s).2)

namespace Triple

variable {P M R : σ → Prop} {Q : α → σ → Prop} {T : β → σ → Prop}

/-- What holds afterwards however the run ends. -/
theorem final (h : Triple P x (fun _ ↦ R) R) (hs : P s) : R (x s).2 := by
  obtain ⟨hsome, hnone⟩ := h s hs
  cases hx : (x s).1 with
  | none => exact hnone hx
  | some a => exact hsome a hx

theorem mono {Q' : α → σ → Prop} {R' : σ → Prop} (h : Triple P x Q R)
    (hP : ∀ s, M s → P s) (hQ : ∀ a s, Q a s → Q' a s) (hR : ∀ s, R s → R' s) :
    Triple M x Q' R' := fun s hs ↦
  ⟨fun a ha ↦ hQ a _ ((h s (hP s hs)).1 a ha), fun hx ↦ hR _ ((h s (hP s hs)).2 hx)⟩

/-- A fact about the result is added to the postcondition. -/
theorem and_result {q : α → Prop} (h : Triple P x Q R)
    (hq : ∀ s a, (x s).1 = some a → q a) : Triple P x (fun a s ↦ q a ∧ Q a s) R := fun s hs ↦
  ⟨fun a ha ↦ ⟨hq s a ha, (h s hs).1 a ha⟩, (h s hs).2⟩

theorem bind (hx : Triple P x Q R)
    (hf : ∀ a, Triple (Q a) (f a) T R) : Triple P (x >>= f) T R := by
  intro s hs
  obtain ⟨hsome, hnone⟩ := hx s hs
  match h : x s with
  | (some a, r) =>
    rw [h] at hsome
    rw [bind_of_eq_some f h]
    exact hf a r (hsome a rfl)
  | (none, r) =>
    rw [h] at hnone
    rw [bind_of_eq_none f h]
    exact ⟨nofun, fun _ ↦ hnone rfl⟩

theorem pure (h : ∀ s, P s → Q a s) : Triple P (Pure.pure a : Act σ α) Q R := by
  intro s hs
  refine ⟨fun b hb ↦ ?_, nofun⟩
  obtain rfl : a = b := Option.some.inj hb
  exact h s hs

theorem fetch_bind {f : σ → Act σ β} (hf : ∀ s₀, Triple (fun s ↦ s = s₀ ∧ P s) (f s₀) T R) :
    Triple P (fetch >>= f) T R := fun s hs ↦ hf s s ⟨rfl, hs⟩

/-- What is read does not matter. -/
theorem fetch_bind_any {f : σ → Act σ β} (hf : ∀ s₀, Triple P (f s₀) T R) :
    Triple P (fetch >>= f) T R := fun s hs ↦ hf s s hs

theorem update {Q : Unit → σ → Prop} (h : ∀ s, P s → Q () (g s)) :
    Triple P (update g) Q R := fun s hs ↦
  ⟨fun _ _ ↦ h s hs, nofun⟩

theorem update_bind {f : Unit → Act σ β} (h : ∀ s, P s → M (g s))
    (hf : Triple M (f ()) T R) : Triple P (Act.update g >>= f) T R := fun s hs ↦
  hf (g s) (h s hs)

theorem require {Q : Unit → σ → Prop} (htrue : p = true → ∀ s, P s → Q () s)
    (hfalse : p = false → ∀ s, P s → R s) : Triple P (require p) Q R := by
  intro s hs
  cases p with
  | false => exact ⟨nofun, fun _ ↦ hfalse rfl s hs⟩
  | true => exact ⟨fun a _ ↦ htrue rfl s hs, nofun⟩

theorem require_bind {f : Unit → Act σ β} (hfalse : p = false → ∀ s, P s → R s)
    (hf : p = true → Triple P (f ()) T R) : Triple P (Act.require p >>= f) T R := by
  cases p with
  | false =>
    exact fun s hs ↦ ⟨nofun, fun _ ↦ hfalse rfl s hs⟩
  | true => exact hf rfl

theorem ofOption_bind {x : Option α} (hnone : x = none → ∀ s, P s → R s)
    (hf : ∀ a, x = some a → Triple P (f a) T R) : Triple P (ofOption x >>= f) T R := by
  cases x with
  | none =>
    exact fun s hs ↦ ⟨nofun, fun _ ↦ hnone rfl s hs⟩
  | some a => exact hf a rfl

/-! Steps from a known state. -/

theorem fetch_bind_eq {f : σ → Act σ β} (hf : Triple (· = s) (f s) T R) :
    Triple (· = s) (fetch >>= f) T R := by
  rintro _ rfl
  exact hf _ rfl

theorem update_bind_eq {f : Unit → Act σ β}
    (hf : Triple (· = g s) (f ()) T R) : Triple (· = s) (Act.update g >>= f) T R := by
  rintro _ rfl
  exact hf _ rfl

/-! A step that keeps what is to hold on failure. -/

theorem update_keep {f : Unit → Act σ β} (h : ∀ s, P s → P (g s))
    (hf : Triple P (f ()) T R) : Triple P (Act.update g >>= f) T R := update_bind h hf

theorem require_keep {f : Unit → Act σ β} (hf : p = true → Triple P (f ()) T P) :
    Triple P (Act.require p >>= f) T P := require_bind (fun _ _ h ↦ h) hf

theorem ofOption_keep {x : Option α} (hf : ∀ a, x = some a → Triple P (f a) T P) :
    Triple P (Act.ofOption x >>= f) T P := ofOption_bind (fun _ _ h ↦ h) hf

theorem onFailure (hx : Triple P x Q M) (h : ∀ s, M s → R (g s)) :
    Triple P (onFailure x g) Q R := by
  intro s hs
  obtain ⟨hsome, hnone⟩ := hx s hs
  match hxs : x s with
  | (some a, r) =>
    rw [hxs] at hsome
    rw [Act.onFailure, hxs]
    exact ⟨hsome, nofun⟩
  | (none, r) =>
    rw [hxs] at hnone
    rw [Act.onFailure, hxs]
    exact ⟨nofun, fun _ ↦ h r (hnone rfl)⟩

theorem cleanup {Q' : α → σ → Prop} {R' : σ → Prop}
    (hx : Triple P x Q' R') (hQ : ∀ a s, Q' a s → Q a (g s)) (hR : ∀ s, R' s → R (g s)) :
    Triple P (cleanup x g) Q R := fun s hs ↦
  ⟨fun a ha ↦ hQ a _ ((hx s hs).1 a ha), fun hnone ↦ hR _ ((hx s hs).2 hnone)⟩

/-- Nothing is asked of the run. -/
theorem any (x : Act σ α) : Triple P x (fun _ _ ↦ True) fun _ ↦ True := fun _ _ ↦
  ⟨fun _ _ ↦ trivial, fun _ ↦ trivial⟩

/-- The two ways a run can end are dealt with separately. -/
theorem of_success (hQ : ∀ s a t, P s → x s = (some a, t) → Q a t)
    (hR : Triple P x (fun _ _ ↦ True) R) : Triple P x Q R := fun s hs ↦
  ⟨fun a ha ↦ hQ s a _ hs (Prod.ext ha rfl), (hR s hs).2⟩

/-- A property of what `x` leaves alone stays as it was. -/
theorem of_keeps {f : σ → τ} (h : Keeps f x)
    (hP : ∀ s t, f t = f s → P s → P t) : Triple P x (fun _ ↦ P) P := by
  intro s hs
  have hkeep : P (x s).2 := hP s _ (h s) hs
  exact ⟨fun _ _ ↦ hkeep, fun _ ↦ hkeep⟩

/-- A precondition on no state is a hypothesis. -/
theorem of_and {q : Prop} (h : q → Triple P x Q R) :
    Triple (fun s ↦ q ∧ P s) x Q R := fun s hs ↦ h hs.1 s hs.2

end Triple

end Act

end Fallible
