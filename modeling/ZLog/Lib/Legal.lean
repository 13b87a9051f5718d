import Mathlib.Data.List.Basic

/-!
# Legal sequences of events

The specification of an object says which events may happen in a state, and what the state is
afterwards.  A sequence of events is legal when each of them may happen in the state that those
before it have led to.  Events carry the time at which they happen.

## Main results

- `Legal.invariant`: what every event keeps holds at the end.
- `Legal.determined`: when the requests determine the events one at a time, they determine the
  sequence.
- `Stamped.snoc`: an event that happens now comes last.
-/

namespace Lib

variable {σ ι ρ : Type}

/-- The events, oldest first, lead from `s` to the last state. -/
inductive Legal (spec : σ → ι → σ → Prop) (s : σ) : List ι → σ → Prop where
  | nil : Legal spec s [] s
  | snoc {es : List ι} {t t' : σ} {e : ι} : Legal spec s es t → spec t e t' →
      Legal spec s (es ++ [e]) t'

namespace Legal

variable {spec : σ → ι → σ → Prop} {s t t' : σ} {es es' : List ι}

/-- **Invariant rule.** -/
theorem invariant {I : σ → Prop} (keep : ∀ t e t', I t → spec t e t' → I t')
    (h : Legal spec s es t) (hs : I s) : I t := by
  induction h with
  | nil => exact hs
  | snoc _ hspec ih => exact keep _ _ _ ih hspec

private theorem map_concat {f : ι → ρ} {e : ι} (h : (es ++ [e]).map f = es'.map f) :
    ∃ fs e', es' = fs ++ [e'] ∧ es.map f = fs.map f ∧ f e = f e' := by
  rw [List.map_append] at h
  obtain ⟨fs, gs, rfl, hfs, hgs⟩ := List.append_eq_map_iff.mp h
  obtain ⟨e', rfl, he⟩ := List.map_eq_singleton_iff.mp hgs
  exact ⟨fs, e', rfl, hfs.symm, he.symm⟩

/-- **Determinism**: the requests determine the events and the state. -/
theorem determined {request : ι → ρ}
    (unique : ∀ t e e' t' t'', spec t e t' → spec t e' t'' → request e = request e' →
      e = e' ∧ t' = t'')
    (h : Legal spec s es t) (h' : Legal spec s es' t')
    (hreq : es.map request = es'.map request) : es = es' ∧ t = t' := by
  induction h generalizing es' t' with
  | nil =>
    obtain rfl := List.map_eq_nil_iff.mp hreq.symm
    generalize hes : ([] : List ι) = fs at h'
    cases h' with
    | nil => exact ⟨rfl, rfl⟩
    | snoc => simp at hes
  | snoc hlegal hspec ih =>
    obtain ⟨fs, e', rfl, hfs, he⟩ := map_concat hreq
    generalize hes : fs ++ [e'] = gs at h'
    cases h' with
    | nil => simp at hes
    | snoc hlegal' hspec' =>
      obtain ⟨rfl, rfl⟩ := List.append_singleton_inj.mp hes
      obtain ⟨rfl, rfl⟩ := ih hlegal' hfs
      obtain ⟨rfl, rfl⟩ := unique _ _ _ _ _ hspec hspec' he
      exact ⟨rfl, rfl⟩

end Legal

/-! ## Times -/

/-- The events happened one after the other, before `now`. -/
structure Stamped (time : ι → Nat) (es : List ι) (now : Nat) : Prop where
  order : es.Pairwise fun e e' => time e < time e'
  past : ∀ e ∈ es, time e < now

namespace Stamped

variable {time : ι → Nat} {es : List ι} {now : Nat}

theorem nil (time : ι → Nat) (now : Nat) : Stamped time [] now :=
  ⟨List.Pairwise.nil, fun _ he => absurd he List.not_mem_nil⟩

/-- Time passes. -/
theorem later (h : Stamped time es now) : Stamped time es (now + 1) :=
  ⟨h.order, fun e he => Nat.lt_succ_of_lt (h.past e he)⟩

/-- An event happens. -/
theorem snoc (h : Stamped time es now) {e : ι} (he : time e = now) :
    Stamped time (es ++ [e]) (now + 1) := by
  constructor
  · rw [List.pairwise_append]
    refine ⟨h.order, List.pairwise_singleton _ _, ?_⟩
    intro e₁ he₁ e₂ he₂
    rw [List.mem_singleton.mp he₂, he]
    exact h.past e₁ he₁
  · intro e₁ he₁
    rcases List.mem_append.mp he₁ with he₁ | he₁
    · exact Nat.lt_succ_of_lt (h.past e₁ he₁)
    · rw [List.mem_singleton.mp he₁, he]
      exact Nat.lt_succ_self now

end Stamped

end Lib
