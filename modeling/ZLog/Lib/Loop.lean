import Mathlib.Data.Nat.Init

/-!
# Loops

A deterministic machine that may fail: its step gives the next state or an error.  `Leads` is the
state after some number of steps, `Ends` says that a final state is reached, and the two rules
say how a measure shows that a machine ends and how an invariant shows that it does not.

## Main results

- `ends_of_measure`: progress with a decreasing measure ends.
- `not_ends_of_invariant`: a machine that keeps an invariant without final states does not end.
-/

namespace Lib

variable {σ ε : Type}

/-- The state after `n` steps. -/
def iterate (step : σ → Except ε σ) : Nat → σ → Except ε σ
  | 0, s => .ok s
  | n + 1, s =>
    match step s with
    | .error e => .error e
    | .ok t => iterate step n t

/-- The machine gets from one state to the other. -/
def Leads (step : σ → Except ε σ) (s t : σ) : Prop := ∃ n, iterate step n s = .ok t

/-- The machine reaches a final state. -/
def Ends (step : σ → Except ε σ) (final : σ → Prop) (s : σ) : Prop :=
  ∃ t, Leads step s t ∧ final t

variable {step : σ → Except ε σ} {final : σ → Prop} {s t u : σ}

/-- No iteration at all. -/
theorem Leads.refl (s : σ) : Leads step s s := ⟨0, rfl⟩

/-- The first iteration, and the rest. -/
theorem iterate_succ (h : step s = .ok t) (n : Nat) :
    iterate step (n + 1) s = iterate step n t := by
  rw [iterate, h]

/-- One iteration before those that are known to lead on. -/
theorem Leads.head (h : step s = .ok t) (h' : Leads step t u) : Leads step s u := by
  obtain ⟨n, hn⟩ := h'
  exact ⟨n + 1, (iterate_succ h n).trans hn⟩

theorem Leads.single (h : step s = .ok t) : Leads step s t := .head h (.refl t)

/-- Iterations are counted from any state on the way. -/
theorem iterate_add (n k : Nat) (h : iterate step n s = .ok t) :
    iterate step (n + k) s = iterate step k t := by
  induction n generalizing s with
  | zero =>
    cases h
    rw [Nat.zero_add]
  | succ n ih =>
    cases hs : step s with
    | error e =>
      unfold iterate at h
      rw [hs] at h
      cases h
    | ok s' =>
      rw [iterate_succ hs] at h
      rw [Nat.succ_add, iterate_succ hs]
      exact ih h

/-- Loops are run one part after the other. -/
theorem Leads.trans (h : Leads step s t) (h' : Leads step t u) : Leads step s u := by
  obtain ⟨n, hn⟩ := h
  obtain ⟨k, hk⟩ := h'
  exact ⟨n + k, (iterate_add n k hn).trans hk⟩

theorem Ends.of_final (h : final s) : Ends step final s := ⟨s, .refl s, h⟩

/-- A loop ends when a state on its way does. -/
theorem Ends.of_leads (h' : Ends step final t) (h : Leads step s t) : Ends step final s := by
  obtain ⟨u, htu, hu⟩ := h'
  exact ⟨u, h.trans htu, hu⟩

/-- **Termination**: from every state of the invariant the machine gets to a state from which it
    ends, or to one of the invariant with a smaller measure. -/
theorem ends_of_measure (I : σ → Prop) (measure : σ → Nat)
    (progress : ∀ s, I s → ∃ t, Leads step s t ∧
      (Ends step final t ∨ (I t ∧ measure t < measure s)))
    (h : I s) : Ends step final s := by
  induction hm : measure s using Nat.strong_induction_on generalizing s with
  | _ n ih =>
    obtain ⟨t, hst, hends | ⟨ht, hlt⟩⟩ := progress s h
    · exact hends.of_leads hst
    · exact (ih _ (hm ▸ hlt) ht rfl).of_leads hst

/-- **Divergence**: no state of the invariant is final, and a step stays in it or fails. -/
theorem not_ends_of_invariant (I : σ → Prop) (hfinal : ∀ s, I s → ¬ final s)
    (keep : ∀ s t, I s → step s = .ok t → I t) (h : I s) : ¬ Ends step final s := by
  rintro ⟨t, ⟨n, hn⟩, ht⟩
  induction n generalizing s with
  | zero =>
    cases hn
    exact hfinal _ h ht
  | succ n ih =>
    unfold iterate at hn
    cases hs : step s with
    | error e =>
      rw [hs] at hn
      cases hn
    | ok s' =>
      rw [hs] at hn
      exact ih (keep s s' h hs) hn

end Lib
