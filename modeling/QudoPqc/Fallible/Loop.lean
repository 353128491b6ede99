import Mathlib.Data.Fin.Tuple.Basic
import Mathlib.Data.List.GetD
import QudoPqc.Fallible.Act

/-!
# Loops that may fail

Four kinds of loop. `forRows` computes the rows of a vector and stops at the first that fails.
`Act.forRange` runs an action for each index, and leaves what the actions before the failing one
have written. `Act.retry` runs numbered attempts until one succeeds, each on the state the last one
has left; `firstSome` is what it computes when the outcome of an attempt does not depend on that
state (`Act.retry_eq_some`). `fill` reads candidates block by block and keeps what is accepted,
until that is enough; it returns the first ones that are accepted (`fill_eq_some`).
-/

namespace Fallible

variable {σ α : Type}

/-! ## Rows -/

/-- The values for all indices, if there is one for each. -/
def forRows : {n : ℕ} → (Fin n → Option α) → Option (Fin n → α)
  | 0, _ => some Fin.elim0
  | _ + 1, f => (f 0).bind fun a ↦ (forRows fun i ↦ f i.succ).map fun as ↦ Fin.cons a as

theorem forRows_eq_some {n : ℕ} {f : Fin n → Option α} {as : Fin n → α} :
    forRows f = some as ↔ ∀ i, f i = some (as i) := by
  induction n with
  | zero =>
    rw [forRows, Option.some.injEq]
    exact ⟨fun _ i ↦ i.elim0, fun _ ↦ funext fun i ↦ i.elim0⟩
  | succ n ih =>
    rw [forRows, Option.bind_eq_some_iff]
    constructor
    · rintro ⟨a, ha, hmap⟩
      obtain ⟨rest, hrest, rfl⟩ := Option.map_eq_some_iff.mp hmap
      exact Fin.cases ha (ih.mp hrest)
    · intro h
      refine ⟨as 0, h 0, Option.map_eq_some_iff.mpr ⟨fun i ↦ as i.succ, ?_, ?_⟩⟩
      · exact ih.mpr fun i ↦ h i.succ
      · exact Fin.cons_self_tail as

/-! ## Attempts -/

/-- The first value of `f` at `i`, `i + 1`, …, for so many indices. -/
def firstSome (f : ℕ → Option α) : (left i : ℕ) → Option α
  | 0, _ => none
  | left + 1, i =>
    match f i with
    | some a => some a
    | none => firstSome f left (i + 1)

theorem exists_of_firstSome {f : ℕ → Option α} {left i : ℕ} {a : α}
    (h : firstSome f left i = some a) : ∃ j, f j = some a := by
  induction left generalizing i with
  | zero => exact nomatch h
  | succ left ih =>
    rw [firstSome] at h
    cases hf : f i with
    | some b =>
      rw [hf] at h
      exact ⟨i, hf.trans h⟩
    | none =>
      rw [hf] at h
      exact ih h

theorem firstSome_mono {f : ℕ → Option α} {left left' i : ℕ} {a : α}
    (h : firstSome f left i = some a) (hle : left ≤ left') : firstSome f left' i = some a := by
  induction left generalizing left' i with
  | zero => exact nomatch h
  | succ left ih =>
    obtain ⟨rest, rfl⟩ := Nat.exists_eq_add_of_le' (Nat.one_le_of_lt hle)
    rw [firstSome] at h ⊢
    cases hf : f i with
    | some b =>
      rw [hf] at h
      exact h
    | none =>
      rw [hf] at h
      exact ih h (by omega)

/-! ## Rejection -/

section Fill

variable {β : Type} {accept : α → Option β} {n left i : ℕ} {block : ℕ → List α} {out out' : List β}

/-- The candidates of a block: what is accepted is kept, until there are `n`. -/
def fillBlock (accept : α → Option β) (n : ℕ) (out : List β) : List α → List β
  | [] => out
  | a :: as => if out.length < n then fillBlock accept n (out ++ (accept a).toList) as else out

/-- The blocks `i`, `i + 1`, … until `n` candidates have been accepted, so many at most. -/
def fill (accept : α → Option β) (n : ℕ) (block : ℕ → List α) :
    (left i : ℕ) → List β → Option (List β)
  | 0, _, _ => none
  | left + 1, i, out =>
    let out := fillBlock accept n out (block i)
    if out.length < n then fill accept n block left (i + 1) out else some out

theorem fillBlock_eq (h : out.length ≤ n) (as : List α) :
    fillBlock accept n out as = (out ++ as.filterMap accept).take n := by
  induction as generalizing out with
  | nil => rw [fillBlock, List.filterMap_nil, List.append_nil, List.take_of_length_le h]
  | cons a as ih =>
    rw [fillBlock, List.filterMap_cons]
    split_ifs with hlt
    · cases accept a with
      | none => rw [Option.toList_none, List.append_nil, ih h]
      | some b =>
        rw [Option.toList_some, ih (by rw [List.length_append]; exact hlt), List.append_assoc]
        rfl
    · rw [List.take_left' (by omega)]

/-- The loop ends exactly when the blocks have enough candidates to accept. -/
theorem fill_eq_some (h : out.length < n) :
    fill accept n block left i out = some out' ↔
      ∃ all, all = out ++ ((List.range' i left).flatMap block).filterMap accept ∧
        n ≤ all.length ∧ all.take n = out' := by
  rw [exists_eq_left]
  induction left generalizing i out with
  | zero =>
    rw [List.range'_zero, List.flatMap_nil, List.filterMap_nil, List.append_nil]
    exact iff_of_false (by simp [fill]) fun hfull ↦ absurd hfull.1 (by omega)
  | succ left ih =>
    rw [fill, fillBlock_eq h.le, List.range'_succ, List.flatMap_cons, List.filterMap_append,
      ← List.append_assoc]
    generalize out ++ (block i).filterMap accept = all
    rw [List.length_take]
    split_ifs with hlt
    · rw [List.take_of_length_le (by omega), ih (by omega)]
    · rw [List.take_append_of_le_length (by omega), Option.some.injEq, List.length_append]
      exact (and_iff_right (by omega)).symm

/-- What is returned has been accepted. -/
theorem exists_of_fill (h : fill accept n block left i [] = some out) {j : ℕ} (hj : j < n) (d : β) :
    ∃ a, accept a = some (out.getD j d) := by
  obtain ⟨_, rfl, hlen, rfl⟩ := (fill_eq_some (Nat.zero_lt_of_lt hj)).mp h
  rw [List.getD_eq_getElem _ _ (by rwa [List.length_take_of_le hlen])]
  obtain ⟨a, -, ha⟩ := List.mem_filterMap.mp (List.mem_of_mem_take (List.getElem_mem _))
  exact ⟨a, ha⟩

end Fill

namespace Act

/-- The attempts `i`, `i + 1`, … until one succeeds, so many at most. -/
def retry (attempt : ℕ → Act σ α) : (left i : ℕ) → Act σ α
  | 0, _ => fun s ↦ (none, s)
  | left + 1, i => fun s ↦
    match attempt i s with
    | (some a, s') => (some a, s')
    | (none, s') => retry attempt left (i + 1) s'

/-- From a state with `P`, which a failing attempt keeps, neither whether an attempt succeeds nor
what it then leaves depends on the state. -/
theorem retry_eq_some {P : σ → Prop} {attempt : ℕ → Act σ Unit} {f : ℕ → Option σ} {left i : ℕ}
    (hsuccess : ∀ j, j < i + left → ∀ s, P s → ∀ u t, attempt j s = (some u, t) ↔ f j = some t)
    (hkeep : ∀ j, Triple P (attempt j) (fun _ _ ↦ True) P) {s t : σ} (hs : P s) {u : Unit} :
    retry attempt left i s = (some u, t) ↔ firstSome f left i = some t := by
  induction left generalizing i s with
  | zero =>
    rw [retry, firstSome]
    exact iff_of_false (nofun) (nofun)
  | succ left ih =>
    have hi := hsuccess i (by omega) s hs
    have hP := (hkeep i s hs).2
    match hx : attempt i s with
    | (some v, r) =>
      have hretry : retry attempt (left + 1) i s = (some v, r) := by simp only [retry, hx]
      have hfirst : firstSome f (left + 1) i = some r := by rw [firstSome, (hi v r).mp hx]
      rw [hretry, hfirst, Prod.mk.injEq, Option.some.injEq, Option.some.injEq]
      exact and_iff_right rfl
    | (none, r) =>
      rw [hx] at hP
      have hr : P r := hP rfl
      have hf : f i = none := Option.eq_none_iff_forall_ne_some.mpr fun r' hr' ↦ by
        have hsome := (hi () r').mpr hr'
        rw [hx] at hsome
        exact nomatch hsome
      have hretry : retry attempt (left + 1) i s = retry attempt left (i + 1) r := by
        simp only [retry, hx]
      have hfirst : firstSome f (left + 1) i = firstSome f left (i + 1) := by rw [firstSome, hf]
      rw [hretry, hfirst]
      exact ih (fun j hj ↦ hsuccess j (by omega)) hr

/-! ## Indices -/

/-- The actions for all indices, one after the other. -/
def forRange : {n : ℕ} → (Fin n → Act σ Unit) → Act σ Unit
  | 0, _ => pure ()
  | _ + 1, body => do
    body 0
    forRange fun i ↦ body i.succ

/-- A loop in which each step checks something and changes the state. -/
theorem forRange_eq_some {n : ℕ} {p : Fin n → Bool} {g : Fin n → σ → σ} {s t : σ} {u : Unit} :
    forRange (fun i ↦ do require (p i); update (g i)) s = (some u, t) ↔
      (∀ i, p i = true) ∧ Fin.foldl n (fun s i ↦ g i s) s = t := by
  induction n generalizing s with
  | zero =>
    rw [forRange, pure_eq_some, Fin.foldl_zero]
    exact and_congr (iff_of_true rfl fun i ↦ i.elim0) Iff.rfl
  | succ n ih =>
    rw [forRange, bind_eq_some, Fin.foldl_succ, Fin.forall_fin_succ]
    constructor
    · rintro ⟨u', r, hbody, hrest⟩
      obtain ⟨hp, hr⟩ := require_bind_eq_some.mp hbody
      obtain ⟨hps, hfold⟩ := ih.mp hrest
      rw [← update_eq_some.mp hr] at hfold
      exact ⟨⟨hp, hps⟩, hfold⟩
    · rintro ⟨⟨hp, hps⟩, hfold⟩
      exact ⟨(), g 0 s, require_bind_eq_some.mpr ⟨hp, rfl⟩, ih.mpr ⟨hps, hfold⟩⟩

theorem Triple.forRange {n : ℕ} {P : σ → Prop} {body : Fin n → Act σ Unit}
    (h : ∀ i, Triple P (body i) (fun _ ↦ P) P) : Triple P (forRange body) (fun _ ↦ P) P := by
  induction n with
  | zero => exact Triple.pure fun s hs ↦ hs
  | succ n ih => exact (h 0).bind fun _ ↦ ih fun i ↦ h i.succ

end Act

end Fallible
