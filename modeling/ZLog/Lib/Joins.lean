import Mathlib.Data.List.Perm.Basic
import Mathlib.Order.Lattice
import Mathlib.Order.BoundedOrder.Lattice

/-!
# Operations that act as joins

A state meets a level of a semilattice, and an operation raises the level that its state meets by
a join.  The level that a sequence of operations leads to is then the join of what they ask for,
so it depends neither on their order nor on repetitions.

## Main results

- `Joins.stepAll`: what a sequence of operations leads to.
- `total_perm`: the order of the operations does not matter.
- `le_total`: each operation gets what it asks for.
-/

namespace Lib

variable {σ α ε L : Type} [SemilatticeSup L] [OrderBot L]

/-- The state after a sequence of steps; the first one to fail ends it. -/
def stepAll (step : σ → α → Except ε σ) (s : σ) : List α → Except ε σ
  | [] => .ok s
  | a :: as =>
    match step s a with
    | .error e => .error e
    | .ok t => stepAll step t as

/-- What a sequence of operations asks for together. -/
def total (value : α → L) (as : List α) : L := as.foldr (fun a l => value a ⊔ l) ⊥

/-- Every operation succeeds, and raises the level by what it asks for. -/
structure Joins (step : σ → α → Except ε σ) (value : α → L) (Meets : L → σ → Prop) : Prop where
  step : ∀ {l : L} {s : σ} (a : α), Meets l s → ∃ t, step s a = .ok t ∧ Meets (l ⊔ value a) t

section

variable {step : σ → α → Except ε σ} {value : α → L} {Meets : L → σ → Prop} {as bs : List α}

@[simp] theorem total_nil : total value [] = ⊥ := rfl

@[simp] theorem total_cons (a : α) : total value (a :: as) = value a ⊔ total value as := rfl

/-- By induction on how the two sequences are permuted. -/
theorem total_perm (h : as.Perm bs) : total value as = total value bs := by
  induction h with
  | nil => rfl
  | cons a _ ih => rw [total_cons, total_cons, ih]
  | swap a b l => exact sup_left_comm _ _ _
  | trans _ _ ih₁ ih₂ => exact ih₁.trans ih₂

theorem le_total {a : α} (h : a ∈ as) : value a ≤ total value as := by
  induction as with
  | nil => cases h
  | cons b as ih =>
    rw [total_cons]
    rcases List.mem_cons.mp h with heq | h
    · rw [heq]
      exact le_sup_left
    · exact (ih h).trans le_sup_right

/-- **Run rule**: a sequence of operations raises the level by what they ask for together. -/
theorem Joins.stepAll (h : Joins step value Meets) {l : L} {s : σ} (hs : Meets l s)
    (as : List α) : ∃ t, stepAll step s as = .ok t ∧ Meets (l ⊔ total value as) t := by
  induction as generalizing l s with
  | nil =>
    refine ⟨s, rfl, ?_⟩
    rw [total_nil, sup_bot_eq]
    exact hs
  | cons a as ih =>
    obtain ⟨t, hstep, ht⟩ := h.step a hs
    obtain ⟨u, hrun, hu⟩ := ih ht
    refine ⟨u, ?_, ?_⟩
    · unfold Lib.stepAll
      rw [hstep]
      exact hrun
    · rw [total_cons, ← sup_assoc]
      exact hu

end

end Lib
