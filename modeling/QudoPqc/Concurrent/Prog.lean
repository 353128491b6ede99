import Mathlib.Data.List.Basic
import Mathlib.Logic.Basic

/-!
# Programs over atomic operations

A thread of a shared-memory system is written as a tree of atomic operations: either it has
returned, or it performs one operation and continues according to the answer. Nothing is said
here about what an operation does; that is the business of the machine which runs the tree. This
keeps the text of a program close to the source it is translated from, and makes "what the thread
will still do" an ordinary value on which predicates can be defined by recursion.

## What is proved about programs

Three kinds of fact are used. `Returns` lists the operations, with their answers, on the way to a
return value. `CanReach` says that some choice of answers leads to an operation or a return of one
kind before any answer of another kind. `Discipline.Keeps` is a weakest precondition with a phase:
every operation is allowed in the phase the program is in, whatever the answers. All three compose
along `bind`, which is what lets a lemma about a callee be used by name at its call sites.
-/

namespace Concurrent

/-- A program over the operations `Op`, whose operation `o` is answered by a value of `Resp o`. -/
inductive Prog (Op : Type) (Resp : Op → Type) (α : Type) where
  /-- The program has returned `a`. -/
  | ret (a : α)
  /-- The program performs `o` and goes on with `k` applied to the answer. -/
  | op (o : Op) (k : Resp o → Prog Op Resp α)

/-- An operation together with the answer it received. -/
abbrev Action (Op : Type) (Resp : Op → Type) := (o : Op) × Resp o

namespace Prog

variable {Op : Type} {Resp : Op → Type} {α β γ : Type}

variable {p : Prog Op Resp α} {o : Op} {a : α} {tr : List (Action Op Resp)}
  {k : Resp o → Prog Op Resp α} {f : α → Prog Op Resp β}

/-- Sequencing. The continuation is grafted on every return. -/
def bind : Prog Op Resp α → (α → Prog Op Resp β) → Prog Op Resp β
  | ret a, f => f a
  | op o k, f => op o fun r ↦ (k r).bind f

instance : Monad (Prog Op Resp) where
  pure := ret
  bind := bind

/-- The program that performs `o` and returns its answer. -/
def perform (o : Op) : Prog Op Resp (Resp o) := op o ret

@[simp] theorem pure_eq (a : α) : (pure a : Prog Op Resp α) = ret a := rfl

@[simp] theorem bind_eq (p : Prog Op Resp α) (f : α → Prog Op Resp β) : p >>= f = p.bind f := rfl

@[simp] theorem ret_bind (a : α) (f : α → Prog Op Resp β) : (ret a).bind f = f a := rfl

@[simp] theorem op_bind (o : Op) (k : Resp o → Prog Op Resp α) (f : α → Prog Op Resp β) :
    (op o k).bind f = op o fun r ↦ (k r).bind f := rfl

@[simp] theorem perform_eq (o : Op) : (perform o : Prog Op Resp (Resp o)) = op o ret := rfl

theorem bind_assoc (p : Prog Op Resp α) (f : α → Prog Op Resp β) (g : β → Prog Op Resp γ) :
    (p.bind f).bind g = p.bind fun a ↦ (f a).bind g := by
  induction p with
  | ret a => rfl
  | op o k ih =>
    rw [op_bind, op_bind, op_bind]
    exact congrArg (op o) (funext ih)

/-- The operation the program performs next. -/
def head? : Prog Op Resp α → Option Op
  | ret _ => none
  | op o _ => some o

theorem head?_eq_some (h : p.head? = some o) :
    ∃ k, p = op o k := by
  cases p with
  | ret a => cases h
  | op o' k =>
    cases h
    exact ⟨k, rfl⟩

/-- The value the program has returned. -/
def value? : Prog Op Resp α → Option α
  | ret a => some a
  | op _ _ => none

theorem value?_eq_some (h : p.value? = some a) : p = ret a := by
  cases p with
  | ret b =>
    cases h
    rfl
  | op o k => cases h

/-! ## Paths to a return value -/

/-- `p.Returns tr a`: performing the operations of `tr` with the answers recorded there, `p`
returns `a`. -/
inductive Returns : Prog Op Resp α → List (Action Op Resp) → α → Prop
  | ret (a : α) : Returns (.ret a) [] a
  | op (o : Op) (k : Resp o → Prog Op Resp α) (r : Resp o) {tr : List (Action Op Resp)} {a : α}
      (h : Returns (k r) tr a) : Returns (.op o k) (⟨o, r⟩ :: tr) a

theorem returns_ret {b : α} :
    (ret a : Prog Op Resp α).Returns tr b ↔ tr = [] ∧ b = a := by
  constructor
  · rintro ⟨⟩
    exact ⟨rfl, rfl⟩
  · rintro ⟨rfl, rfl⟩
    exact Returns.ret _

theorem returns_op :
    (op o k).Returns tr a ↔ ∃ r tr', tr = ⟨o, r⟩ :: tr' ∧ (k r).Returns tr' a := by
  constructor
  · rintro ⟨⟩
    exact ⟨_, _, rfl, by assumption⟩
  · rintro ⟨r, tr', rfl, h⟩
    exact Returns.op o k r h

/-- A path through a sequence is a path through its first part followed by one through the
second. -/
theorem returns_bind {b : β} :
    ∀ {tr : List (Action Op Resp)}, (p.bind f).Returns tr b ↔
      ∃ tr₁ a tr₂, tr = tr₁ ++ tr₂ ∧ p.Returns tr₁ a ∧ (f a).Returns tr₂ b := by
  induction p with
  | ret a =>
    intro tr
    constructor
    · intro h
      exact ⟨[], a, tr, rfl, Returns.ret a, h⟩
    · rintro ⟨tr₁, a', tr₂, rfl, h₁, h₂⟩
      obtain ⟨rfl, rfl⟩ := returns_ret.mp h₁
      exact h₂
  | op o k ih =>
    intro tr
    rw [op_bind, returns_op]
    constructor
    · rintro ⟨r, tr', rfl, h⟩
      obtain ⟨tr₁, a, tr₂, rfl, h₁, h₂⟩ := (ih r).mp h
      exact ⟨⟨o, r⟩ :: tr₁, a, tr₂, rfl, Returns.op o k r h₁, h₂⟩
    · rintro ⟨tr₁, a, tr₂, rfl, h₁, h₂⟩
      obtain ⟨r, tr', rfl, hk⟩ := returns_op.mp h₁
      exact ⟨r, tr' ++ tr₂, rfl, (ih r).mpr ⟨tr', a, tr₂, rfl, hk, h₂⟩⟩

/-- A path through the early return of a function whose callee reports failure. -/
theorem returns_guard {p : Prog Op Resp Bool} {x q : Prog Op Resp β} {b : β}
    (h : (p.bind fun ok ↦ if (!ok) = true then x else q).Returns tr b) :
    ∃ tr₁ tr₂, tr = tr₁ ++ tr₂ ∧ ((p.Returns tr₁ false ∧ x.Returns tr₂ b) ∨
      (p.Returns tr₁ true ∧ q.Returns tr₂ b)) := by
  obtain ⟨tr₁, ok, tr₂, rfl, h₁, h₂⟩ := returns_bind.mp h
  refine ⟨tr₁, tr₂, rfl, ?_⟩
  cases ok with
  | false => exact .inl ⟨h₁, h₂⟩
  | true => exact .inr ⟨h₁, h₂⟩

/-! ## Reaching an operation or a return -/

/-- Some choice of answers leads `p` to an operation in `hit`, or to a return value in `good`, with
no answer in `cut` on the way. -/
def CanReach (hit : Op → Prop) (cut : (o : Op) → Resp o → Prop) (good : α → Prop) :
    Prog Op Resp α → Prop
  | ret a => good a
  | op o k => hit o ∨ ∃ r, ¬cut o r ∧ (k r).CanReach hit cut good

variable {hit : Op → Prop} {cut : (o : Op) → Resp o → Prop} {good : α → Prop}

theorem canReach_op :
    (op o k).CanReach hit cut good ↔ hit o ∨ ∃ r, ¬cut o r ∧ (k r).CanReach hit cut good := Iff.rfl

/-- An answer which is not a cut loses nothing. -/
theorem not_canReach_of_op (r : Resp o) (hr : ¬cut o r)
    (h : ¬(op o k).CanReach hit cut good) : ¬(k r).CanReach hit cut good :=
  fun hk ↦ h (.inr ⟨r, hr, hk⟩)

/-! ## Properties of everything still to come -/

/-- `P` holds of `p` and of whatever remains of it after any answers. -/
def Throughout (P : Prog Op Resp α → Prop) : Prog Op Resp α → Prop
  | ret a => P (ret a)
  | op o k => P (op o k) ∧ ∀ r, (k r).Throughout P

/-! ## Footprints -/

/-- Whatever the answers, `p` performs operations in `S` only. -/
def Only (S : Op → Prop) : Prog Op Resp α → Prop
  | ret _ => True
  | op o k => S o ∧ ∀ r, (k r).Only S

variable {S : Op → Prop}

@[simp] theorem only_ret (a : α) : (ret a : Prog Op Resp α).Only S := trivial

@[simp] theorem only_op :
    (op o k).Only S ↔ S o ∧ ∀ r, (k r).Only S := Iff.rfl

theorem Only.mono {T : Op → Prop} (hST : ∀ o, S o → T o) (hp : p.Only S) :
    p.Only T := by
  induction p with
  | ret a => trivial
  | op o k ih => exact ⟨hST o hp.1, fun r ↦ ih r (hp.2 r)⟩

/-- Every operation on a path is in the footprint. -/
theorem Only.of_returns (hp : p.Only S)
    (h : p.Returns tr a) : ∀ x ∈ tr, S x.1 := by
  induction h with
  | ret a => simp
  | op o k r _ ih =>
    rw [List.forall_mem_cons]
    exact ⟨hp.1, ih (hp.2 r)⟩

theorem Only.bind (hp : p.Only S)
    (hf : ∀ a, (f a).Only S) : (p.bind f).Only S := by
  induction p with
  | ret a => exact hf a
  | op o k ih => exact ⟨hp.1, fun r ↦ ih r (hp.2 r)⟩

/-- What follows a first part that can return `a` is part of the whole. -/
theorem Only.of_bind (hp : p.Returns tr a) (h : (p.bind f).Only S) : (f a).Only S := by
  induction hp with
  | ret a => exact h
  | op o k r _ ih => exact ih (h.2 r)

theorem Only.ite {c : Prop} [Decidable c] {q : Prog Op Resp α} (hp : p.Only S) (hq : q.Only S) :
    (if c then p else q).Only S := by
  split
  · exact hp
  · exact hq

/-- The early return of a function whose callee reports failure. -/
theorem Only.guard {p : Prog Op Resp Bool} {x q : Prog Op Resp β} (hp : p.Only S) (hx : x.Only S)
    (hq : q.Only S) : (p.bind fun b ↦ if (!b) = true then x else q).Only S := by
  refine hp.bind fun b ↦ ?_
  cases b
  · exact hx
  · exact hq

end Prog

/-! ## Disciplines -/

/-- A discipline on the use of the operations: in which phase an operation may be performed, and
which phases an answer can lead to. An answer that leads to no phase is one the discipline rules
out. -/
structure Discipline (Op : Type) (Resp : Op → Type) (σ : Type) where
  /-- The operation may be performed in the phase. -/
  Allowed : σ → Op → Prop
  /-- The phases the answer can lead to. -/
  Next : σ → (o : Op) → Resp o → σ → Prop

namespace Discipline

variable {Op : Type} {Resp : Op → Type} {α β σ : Type} (D : Discipline Op Resp σ)

/-- Started in phase `φ`, the program keeps the discipline, and returns only values and phases
in `Q`. -/
def Keeps : σ → Prog Op Resp α → (σ → α → Prop) → Prop
  | φ, .ret a, Q => Q φ a
  | φ, .op o k, Q => D.Allowed φ o ∧ ∀ r φ', D.Next φ o r φ' → Keeps φ' (k r) Q

variable {D}

@[simp] theorem keeps_ret {φ : σ} {a : α} {Q : σ → α → Prop} :
    D.Keeps φ (.ret a) Q ↔ Q φ a := Iff.rfl

theorem keeps_op {φ : σ} {o : Op} {k : Resp o → Prog Op Resp α} {Q : σ → α → Prop} :
    D.Keeps φ (.op o k) Q ↔
      D.Allowed φ o ∧ ∀ r φ', D.Next φ o r φ' → D.Keeps φ' (k r) Q := Iff.rfl

theorem keeps_bind {p : Prog Op Resp α} {f : α → Prog Op Resp β} {Q : σ → β → Prop} :
    ∀ {φ : σ}, D.Keeps φ (p.bind f) Q ↔ D.Keeps φ p fun φ' a ↦ D.Keeps φ' (f a) Q := by
  induction p with
  | ret a => intro φ; rfl
  | op o k ih =>
    intro φ
    rw [Prog.op_bind, keeps_op, keeps_op]
    exact and_congr_right fun _ ↦ forall_congr' fun r ↦ forall_congr' fun φ' ↦
      imp_congr_right fun _ ↦ ih r

/-- The rule of consequence. -/
theorem Keeps.mono {p : Prog Op Resp α} {Q R : σ → α → Prop} (hQR : ∀ φ a, Q φ a → R φ a) :
    ∀ {φ : σ}, D.Keeps φ p Q → D.Keeps φ p R := by
  induction p with
  | ret a => intro φ h; exact hQR φ a h
  | op o k ih =>
    intro φ h
    exact ⟨h.1, fun r φ' hn ↦ ih r (h.2 r φ' hn)⟩

/-- A program whose operations are all allowed in the phase and do not lead out of it stays in
it. -/
theorem keeps_of_only {S : Op → Prop} {φ : σ} (hallow : ∀ o, S o → D.Allowed φ o)
    (hnext : ∀ o r φ', S o → D.Next φ o r φ' → φ' = φ) {p : Prog Op Resp α} (hp : p.Only S) :
    D.Keeps φ p fun φ' _ ↦ φ' = φ := by
  induction p with
  | ret a => rfl
  | op o k ih =>
    refine ⟨hallow o hp.1, fun r φ' hn ↦ ?_⟩
    rw [hnext o r φ' hp.1 hn]
    exact ih r (hp.2 r)

end Discipline

end Concurrent
