import QudoPqc.Fallible.Trace

/-!
# Histories

Operations are applied to one object, one after another; an operation that fails leaves what it
has written so far, and the next one starts from there. A condition on an operation and the object
it is applied to can be asked of every step of a history (`Along`). An invariant that each such
step keeps holds at every step, and at the end.
-/

namespace Fallible

variable {σ ε ι : Type} (op : ι → Traced σ ε Unit)

/-- The object after the operations. -/
def after (ops : List ι) (s : σ) : σ := ops.foldl (fun s o ↦ ((op o).run s).2) s

/-- The events of the operations. -/
def eventsOf : List ι → σ → List ε
  | [], _ => []
  | o :: ops, s => (op o).events s ++ eventsOf ops ((op o).run s).2

/-- Every operation meets `C` on the object it is applied to. -/
def Along (C : ι → σ → Prop) : List ι → σ → Prop
  | [], _ => True
  | o :: ops, s => C o s ∧ Along C ops ((op o).run s).2

variable {op} {C Q : ι → σ → Prop} {I : σ → Prop} {E : ε → Prop}

theorem after_nil (s : σ) : after op [] s = s := rfl

theorem after_cons (o : ι) (ops : List ι) (s : σ) :
    after op (o :: ops) s = after op ops ((op o).run s).2 := rfl

/-- An invariant holds at the end. -/
theorem Along.invariant {ops : List ι} {s : σ} (hstep : ∀ o s, C o s → I s → I ((op o).run s).2)
    (h : Along op C ops s) (hs : I s) : I (after op ops s) := by
  induction ops generalizing s with
  | nil => exact hs
  | cons o ops ih => exact ih h.2 (hstep o s h.1 hs)

/-- What an invariant implies for one step holds for every step. -/
theorem Along.of_invariant {ops : List ι} {s : σ}
    (hstep : ∀ o s, C o s → I s → I ((op o).run s).2) (hQ : ∀ o s, C o s → I s → Q o s)
    (h : Along op C ops s) (hs : I s) : Along op Q ops s := by
  induction ops generalizing s with
  | nil => exact trivial
  | cons o ops ih => exact ⟨hQ o s h.1 hs, ih h.2 (hstep o s h.1 hs)⟩

/-- The events of a history are those of its steps. -/
theorem Along.events {ops : List ι} {s : σ} (hE : ∀ o s, C o s → ∀ e ∈ (op o).events s, E e)
    (h : Along op C ops s) : ∀ e ∈ eventsOf op ops s, E e := by
  induction ops generalizing s with
  | nil => exact fun _ he ↦ absurd he List.not_mem_nil
  | cons o ops ih =>
    intro e he
    rcases List.mem_append.mp he with hfirst | hrest
    · exact hE o s h.1 e hfirst
    · exact ih h.2 e hrest

end Fallible
