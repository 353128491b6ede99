import Mathlib.Data.List.Basic

/-!
# Programs on a state

A C function that works on an object behind a pointer is a program of type `StateM σ α`.
`Returns I p a J` is what a caller knows about it: from every state with `I` it returns `a`, and it
leaves a state with `J`. The value is exact, while a condition says no more about the state than
what the next call relies on.

`collect` and `loop` are the loops of such programs: one writes a row of results, the other carries
a value along.
-/

namespace Stateful

variable {σ α β : Type} {I J K : σ → Prop} {a : α} {b : β}

variable {p : StateM σ α} {f : ℕ → α} {n : ℕ} {body : ℕ → α → StateM σ α}

/-- What a function reads off the state. -/
def gets (f : σ → α) : StateM σ α := fun s ↦ (f s, s)

/-- From a state with `I`, the program returns `a` and leaves a state with `J`. -/
def Returns (I : σ → Prop) (p : StateM σ α) (a : α) (J : σ → Prop) : Prop :=
  ∀ s, I s → (p s).1 = a ∧ J (p s).2

namespace Returns

theorem pure (h : ∀ s, I s → J s) : Returns I (Pure.pure a) a J :=
  fun s hs ↦ ⟨rfl, h s hs⟩

theorem bind {f : α → StateM σ β} (hp : Returns I p a J)
    (hf : Returns J (f a) b K) : Returns I (p >>= f) b K := by
  intro s hs
  obtain ⟨ha, hJ⟩ := hp s hs
  have hrun : (p >>= f) s = f (p s).1 (p s).2 := rfl
  rw [hrun, ha]
  exact hf _ hJ

/-- Change the state, then go on. -/
theorem modify_bind {g : σ → σ} (hp : Returns J p a K)
    (h : ∀ s, I s → J (g s)) : Returns I (do modify g; p) a K :=
  fun s hs ↦ hp (g s) (h s hs)

/-- Read something off the state, then go on with it. -/
theorem gets_bind {f : σ → α} {p : α → StateM σ β} (hp : Returns I (p a) b J)
    (h : ∀ s, I s → f s = a) : Returns I (do let x ← Stateful.gets f; p x) b J := by
  intro s hs
  have hrun : (do let x ← Stateful.gets f; p x : StateM σ β) s = p (f s) s := rfl
  rw [hrun, h s hs]
  exact hp s hs

theorem gets {f : σ → α} (h : ∀ s, I s → f s = a) : Returns I (Stateful.gets f) a I :=
  fun s hs ↦ ⟨h s hs, hs⟩

theorem mono {I' J' : σ → Prop} (hp : Returns I p a J) (hI : ∀ s, I' s → I s)
    (hJ : ∀ s, J s → J' s) : Returns I' p a J' :=
  fun s hs ↦ ⟨(hp s (hI s hs)).1, hJ _ (hp s (hI s hs)).2⟩

end Returns

/-! ## Loops -/

/-- `for (i = 0; i < n; i++)`, with a result for every `i`. -/
def collect (body : ℕ → StateM σ α) : ℕ → StateM σ (List α)
  | 0 => pure []
  | n + 1 => do
    let results ← collect body n
    let result ← body n
    pure (results ++ [result])

/-- `for (i = 0; i < n; i++)`, with a value that goes from one round to the next. -/
def loop (body : ℕ → α → StateM σ α) : ℕ → α → StateM σ α
  | 0, a => pure a
  | n + 1, a => do
    let a ← loop body n a
    body n a

theorem Returns.collect {body : ℕ → StateM σ α}
    (h : ∀ i < n, Returns I (body i) (f i) I) :
    Returns I (collect body n) ((List.range n).map f) I := by
  induction n with
  | zero => exact .pure fun _ hs ↦ hs
  | succ n ih =>
    rw [List.range_succ, List.map_append]
    exact (ih fun i hi ↦ h i (by omega)).bind ((h n (by omega)).bind (.pure fun _ hs ↦ hs))

/-- A last round may leave more than the others need. -/
theorem Returns.collect_last (hn : 0 < n) {body : ℕ → StateM σ α}
    (hJ : ∀ s, J s → I s) (h : ∀ i < n, Returns I (body i) (f i) J) :
    Returns I (Stateful.collect body n) ((List.range n).map f) J := by
  obtain ⟨n, rfl⟩ : ∃ m, n = m + 1 := ⟨n - 1, by omega⟩
  rw [List.range_succ, List.map_append]
  refine (Returns.collect fun i hi ↦ (h i (by omega)).mono (fun _ hs ↦ hs) hJ).bind ?_
  exact (h n (by omega)).bind (.pure fun _ hs ↦ hs)

/-- What holds of the state may change from round to round. -/
theorem Returns.loop_steps {I : ℕ → σ → Prop}
    (h : ∀ i < n, Returns (I i) (body i (f i)) (f (i + 1)) (I (i + 1))) :
    Returns (I 0) (Stateful.loop body n (f 0)) (f n) (I n) := by
  induction n with
  | zero => exact .pure fun _ hs ↦ hs
  | succ n ih => exact (ih fun i hi ↦ h i (by omega)).bind (h n (by omega))

/-- The rounds take `f 0` to `f 1`, `f 1` to `f 2`, and so on. -/
theorem Returns.loop
    (h : ∀ i < n, Returns I (body i (f i)) (f (i + 1)) I) :
    Returns I (Stateful.loop body n (f 0)) (f n) I :=
  Returns.loop_steps (I := fun _ ↦ I) h

theorem Returns.loop_last (hn : 0 < n)
    (hJ : ∀ s, J s → I s) (h : ∀ i < n, Returns I (body i (f i)) (f (i + 1)) J) :
    Returns I (Stateful.loop body n (f 0)) (f n) J := by
  obtain ⟨n, rfl⟩ : ∃ m, n = m + 1 := ⟨n - 1, by omega⟩
  refine (Returns.loop fun i hi ↦ (h i (by omega)).mono (fun _ hs ↦ hs) hJ).bind ?_
  exact h n (by omega)

end Stateful
