import Mathlib.Data.List.Basic

/-!
# Runs of a transition function

A system is a partial function `step : σ → α → Option σ`: `step s a` is the state after the
action `a`, and `none` when the action is not enabled in `s`.  A run is a sequence of enabled
actions; `Run` also carries a side condition on every step, so that "every run whose steps
all satisfy `ok`" is a statement about `Run step ok`.

## Main results

- `Run.invariant`: a property that every step keeps holds in every state a run reaches.
- `Run.relation`: a reflexive and transitive relation that every step establishes holds
  between the two ends of a run.
- `Run.bounded`: a bound on a measure that never drops holds in every step.
- `Can.next`, `Can.bind`: a run that is built step by step.
- `run_of_exec`: the run that a concrete list of actions drives.
- `run_of_exec_guard`: the same under a side condition.
- `exec_length_le`: a measure that drops at every step bounds the length of every run.
- `exec_lockstep`: two systems that simulate one another step by step are driven by the same actions.
-/

namespace Lib

variable {σ α : Type}

/-- The states reachable from `s` by steps that satisfy `ok`. -/
inductive Run (step : σ → α → Option σ) (ok : σ → α → Prop) (s : σ) : σ → Prop where
  | refl : Run step ok s s
  | tail {t u : σ} {a : α} : Run step ok s t → ok t a → step t a = some u → Run step ok s u

/-- No side condition. -/
def anyStep (_ : σ) (_ : α) : Prop := True

/-- The states reachable from `s`. -/
abbrev Reaches (step : σ → α → Option σ) (s t : σ) : Prop := Run step anyStep s t

section

variable {step : σ → α → Option σ} {ok : σ → α → Prop}

/-- **Invariant rule**: what holds initially and is kept by every step holds throughout. -/
theorem Run.invariant {I : σ → Prop}
    (keep : ∀ t a u, I t → ok t a → step t a = some u → I u)
    {s t : σ} (h : Run step ok s t) (hs : I s) : I t := by
  induction h with
  | refl => exact hs
  | tail _ hok hstep ih => exact keep _ _ _ ih hok hstep

/-- The invariant rule, where a step may use that its state is reachable. -/
theorem Run.invariant_reaches {I : σ → Prop} {s t : σ}
    (keep : ∀ t a u, Run step ok s t → I t → ok t a → step t a = some u → I u)
    (h : Run step ok s t) (hs : I s) : I t := by
  induction h with
  | refl => exact hs
  | tail hrun hok hstep ih => exact keep _ _ _ hrun ih hok hstep

/-- **Relation rule**: a preorder that contains every step contains every run.  The steps are
    only looked at from states that satisfy an invariant. -/
theorem Run.relation {I : σ → Prop} {R : σ → σ → Prop} (hrefl : ∀ t, R t t)
    (htrans : ∀ t u v, R t u → R u v → R t v)
    (keep : ∀ t a u, I t → ok t a → step t a = some u → I u)
    (hstep : ∀ t a u, I t → ok t a → step t a = some u → R t u)
    {s t : σ} (h : Run step ok s t) (hs : I s) : R s t := by
  induction h with
  | refl => exact hrefl _
  | tail hrun hok hst ih =>
    exact htrans _ _ _ ih (hstep _ _ _ (hrun.invariant keep hs) hok hst)

theorem Run.trans {s t u : σ} (h₁ : Run step ok s t) (h₂ : Run step ok t u) :
    Run step ok s u := by
  induction h₂ with
  | refl => exact h₁
  | tail _ hok hstep ih => exact .tail ih hok hstep

theorem Run.single {s t : σ} {a : α} (hok : ok s a) (h : step s a = some t) :
    Run step ok s t :=
  .tail .refl hok h

/-- A run that satisfies a condition satisfies every weaker one. -/
theorem Run.mono {ok' : σ → α → Prop} (himp : ∀ t a, ok t a → ok' t a) {s t : σ}
    (h : Run step ok s t) : Run step ok' s t := by
  induction h with
  | refl => exact .refl
  | tail _ hok hstep ih => exact .tail ih (himp _ _ hok) hstep

/-- **Bound rule**: a measure that never drops and ends below `k` is below `k` in every step. -/
theorem Run.bounded {μ : σ → Nat} {I : σ → Prop}
    (keep : ∀ t a u, I t → ok t a → step t a = some u → I u)
    (grow : ∀ t a u, I t → ok t a → step t a = some u → μ t ≤ μ u) {s t : σ} {k : Nat}
    (h : Run step ok s t) (hs : I s) (hk : μ t < k) : Run step (fun t a => ok t a ∧ μ t < k) s t := by
  induction h with
  | refl => exact .refl
  | tail hrun hok hstep ih =>
    have hle := grow _ _ _ (hrun.invariant keep hs) hok hstep
    exact .tail (ih (Nat.lt_of_le_of_lt hle hk)) ⟨hok, Nat.lt_of_le_of_lt hle hk⟩ hstep

/-- Some run from `s` whose steps satisfy `ok` reaches a state with the property. -/
def Can (step : σ → α → Option σ) (ok : σ → α → Prop) (P : σ → Prop) (s : σ) : Prop :=
  ∃ t, Run step ok s t ∧ P t

theorem Can.here {P : σ → Prop} {s : σ} (h : P s) : Can step ok P s := ⟨s, .refl, h⟩

theorem Can.next {P : σ → Prop} {s t : σ} {a : α} (hok : ok s a) (hs : step s a = some t)
    (h : Can step ok P t) : Can step ok P s := by
  obtain ⟨u, hrun, hP⟩ := h
  exact ⟨u, (Run.single hok hs).trans hrun, hP⟩

theorem Can.bind {P Q : σ → Prop} {s : σ} (h : Can step ok P s)
    (hQ : ∀ t, P t → Can step ok Q t) : Can step ok Q s := by
  obtain ⟨t, hrun, hP⟩ := h
  obtain ⟨u, hrun', hQ⟩ := hQ t hP
  exact ⟨u, hrun.trans hrun', hQ⟩

theorem Can.imp {P Q : σ → Prop} {s : σ} (h : Can step ok P s) (himp : ∀ t, P t → Q t) :
    Can step ok Q s := h.bind fun t hP => .here (himp t hP)

/-- What can be reached under a condition can be reached under a weaker one. -/
theorem Can.mono {ok' : σ → α → Prop} {P : σ → Prop} {s : σ} (h : Can step ok P s)
    (himp : ∀ t a, ok t a → ok' t a) : Can step ok' P s := by
  obtain ⟨t, hrun, hP⟩ := h
  exact ⟨t, hrun.mono himp, hP⟩

/-- The state a list of actions leads to, if all of them are enabled. -/
def exec (step : σ → α → Option σ) (s : σ) : List α → Option σ
  | [] => some s
  | a :: as =>
    match step s a with
    | some t => exec step t as
    | none => none

/-- A list of actions that satisfy the condition everywhere is a run. -/
theorem run_of_exec_forall {s t : σ} (as : List α) (hok : ∀ t, ∀ a ∈ as, ok t a)
    (h : exec step s as = some t) : Run step ok s t := by
  induction as generalizing s with
  | nil =>
    cases h
    exact .refl
  | cons a as ih =>
    simp only [exec] at h
    split at h
    · next u hu =>
      have hrest := ih (fun t b hb => hok t b (List.mem_cons_of_mem a hb)) h
      exact (Run.single (hok s a List.mem_cons_self) hu).trans hrest
    · cases h

theorem run_of_exec {s t : σ} (as : List α) (h : exec step s as = some t) :
    Reaches step s t := run_of_exec_forall as (fun _ _ _ => trivial) h

/-- A list of actions with a side condition that is checked before every step. -/
theorem run_of_exec_guard [∀ s a, Decidable (ok s a)] {s t : σ} (as : List α)
    (h : exec (fun s a => if ok s a then step s a else none) s as = some t) : Run step ok s t := by
  induction as generalizing s with
  | nil =>
    cases h
    exact .refl
  | cons a as ih =>
    simp only [exec] at h
    split at h
    · next u hu =>
      split at hu
      · next hok => exact (Run.single hok hu).trans (ih h)
      · cases hu
    · cases h

/-- A list of actions is driven one part after the other. -/
theorem exec_append {s u : σ} {as bs : List α} (h : exec step s (as ++ bs) = some u) :
    ∃ t, exec step s as = some t ∧ exec step t bs = some u := by
  induction as generalizing s with
  | nil => exact ⟨s, rfl, h⟩
  | cons a as ih =>
    simp only [List.cons_append, exec] at h ⊢
    split at h
    · exact ih h
    · cases h

/-- **Lockstep rule**: when every step from related states can be matched, the actions that drive the
    one system drive the other, and the states stay related. -/
theorem exec_lockstep {τ : Type} {step' : τ → α → Option τ} {R : σ → τ → Prop}
    (match_step : ∀ s t a s', R s t → step s a = some s' → ∃ t', step' t a = some t' ∧ R s' t')
    {s s' : σ} {t : τ} {as : List α} (hR : R s t) (h : exec step s as = some s') :
    ∃ t', exec step' t as = some t' ∧ R s' t' := by
  induction as generalizing s t with
  | nil =>
    cases h
    exact ⟨t, rfl, hR⟩
  | cons a as ih =>
    simp only [exec] at h
    split at h
    · next u hu =>
      obtain ⟨v, hv, hR'⟩ := match_step s t a u hR hu
      simp only [exec, hv]
      exact ih hR' h
    · cases h

/-- **Measure rule**: a measure that drops at every step bounds the length of every run. -/
theorem exec_length_le {I : σ → Prop} {μ : σ → Nat}
    (keep : ∀ t a u, I t → step t a = some u → I u)
    (drop : ∀ t a u, I t → step t a = some u → μ u < μ t)
    {s t : σ} {as : List α} (h : exec step s as = some t) (hs : I s) : as.length + μ t ≤ μ s := by
  induction as generalizing s with
  | nil =>
    cases h
    exact Nat.le_of_eq (Nat.zero_add _)
  | cons a as ih =>
    simp only [exec] at h
    split at h
    · next u hu =>
      have hrest := ih h (keep s a u hs hu)
      have hfirst := drop s a u hs hu
      rw [List.length_cons]
      omega
    · cases h

end

end Lib
