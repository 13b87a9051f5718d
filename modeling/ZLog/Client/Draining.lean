import ZLog.Client.OpQueue
import Mathlib.Tactic

/-!
# Destroying a log

The destructor of a log sets the shutdown flag and joins the finisher threads.  A finisher that finds
the flag set answers what is still pending with `-ESHUTDOWN`, and exits when nothing is left.  The
counter of the operations in flight passes its bound by one at most, so it never wraps and the
assertion of the finishers holds.

## Main results

- `inflight_exceeds_by_one`: the counter is exact, and the bound is passed by one at most.
- `destructor_drains`: the destructor returns, and then every operation was called back once.
-/

namespace ZLog

namespace OpQueue

variable {s s' : OpQueue} {maxInflightOps : Nat} {a : Action}

/-! ## The counter -/

theorem inflight_accept (s : OpQueue) (op : Nat) : (s.accept op).inflight = s.inflight + 1 := by
  show (s.pendingOps ++ [op]).length + s.finishers.countP Finisher.busy = s.inflight + 1
  unfold inflight
  rw [List.length_append, List.length_singleton]
  omega

theorem inflight_signal (s : OpQueue) : s.signal.inflight = s.inflight := by
  unfold signal
  split <;> rfl

/-- A step takes in one operation at most. -/
theorem inflight_step (h : s.step maxInflightOps a = some s') : s'.inflight ≤ s.inflight + 1 := by
  cases a with
  | call =>
    simp only [step] at h
    split at h
    · cases h
      exact Nat.le_succ _
    · cases h
      rw [inflight_accept]
      exact le_refl _
  | wake op =>
    simp only [step] at h
    split at h
    · cases h
    · split at h
      · cases h
        rw [inflight_accept]
        exact le_refl _
      · cases h
        exact Nat.le_succ _
  | take i =>
    simp only [step] at h
    split at h
    · next hi =>
      obtain ⟨ops, n, -, hbusy, hset⟩ := Sound.set_finisher hi
      split at h
      · split at h
        · cases h
          show s.pendingOps.length + (s.finishers.set i .exited).countP Finisher.busy ≤ _
          rw [(hset .exited).2]
          unfold inflight
          rw [hbusy]
          exact Nat.le_succ _
        · cases h
      · next op pendingOps hpending =>
        cases h
        show pendingOps.length + (s.finishers.set i _).countP Finisher.busy ≤ _
        rw [(hset _).2]
        unfold inflight
        rw [hbusy, hpending, List.length_cons]
        show pendingOps.length + (n + 1) ≤ pendingOps.length + 1 + (n + 0) + 1
        omega
    · cases h
  | callback i ret =>
    simp only [step] at h
    split at h
    · next hi =>
      cases h
      obtain ⟨ops, n, -, hbusy, hset⟩ := Sound.set_finisher hi
      show s.pendingOps.length + (s.finishers.set i .called).countP Finisher.busy ≤ _
      rw [(hset .called).2]
      unfold inflight
      rw [hbusy]
      exact Nat.le_succ _
    · cases h
  | finish i =>
    simp only [step] at h
    split at h
    · next hi =>
      split at h
      · cases h
      · cases h
        obtain ⟨ops, n, -, hbusy, hset⟩ := Sound.set_finisher hi
        rw [inflight_signal]
        show s.pendingOps.length + (s.finishers.set i .waiting).countP Finisher.busy ≤ _
        rw [(hset .waiting).2]
        unfold inflight
        rw [hbusy]
        show s.pendingOps.length + (n + 0) ≤ s.pendingOps.length + (n + 1) + 1
        omega
    · cases h
  | shutdown =>
    cases h
    exact Nat.le_succ _

/-- The counter is exact, and the slots in use and promised pass the bound by one at most. -/
structure Exact (maxInflightOps : Nat) (s : OpQueue) : Prop extends Sound s where
  exact : s.numInflightOps = s.inflight
  near : s.numInflightOps + (s.queueOpWaiters.filter Prod.fst).length ≤ maxInflightOps + 1

theorem Exact.init (maxInflightOps n : Nat) : Exact maxInflightOps (.init n) := by
  have hsound := Sound.init n
  refine ⟨hsound, ?_, Nat.zero_le _⟩
  show 0 = 0 + (List.replicate n Finisher.waiting).countP Finisher.busy
  rw [List.countP_replicate]
  rfl

/-- **Step lemma.**  A waiter that takes its slot late and a caller that took it in between are the
    only way past the bound, and then nobody is promised another slot. -/
theorem Exact.step (h : Exact maxInflightOps s) (hpos : 1 ≤ maxInflightOps)
    (hmax : maxInflightOps + 1 < 2 ^ 32) (hstep : s.step maxInflightOps a = some s') :
    Exact maxInflightOps s' := by
  have hsound := h.toSound.step hpos hstep
  have hle := inflight_step hstep
  have hnear := h.near
  have hflag := hsound.flagged_le_one
  have hcounter := hsound.counter
  have hold := h.exact
  -- the counter drops by one at most, so it has not wrapped
  have hdone : s.numInflightOps ≤ s'.numInflightOps + 1 →
      s'.numInflightOps + (s'.queueOpWaiters.filter Prod.fst).length ≤ maxInflightOps + 1 →
      Exact maxInflightOps s' :=
    fun _ hn => ⟨hsound, by omega, hn⟩
  rcases step_cases hstep with ⟨op, rfl⟩ | ⟨rfl, hlt, hnum, hw⟩ | ⟨op, rfl, -, hnum, hw⟩ |
    ⟨i, r, rfl, hr, hnum, hw, rfl⟩ | ⟨-, -, hnum, hw⟩
  · rcases h.wake_cases hstep with ⟨-, rfl⟩ | ⟨-, hnum, hw⟩
    · exact h
    · -- the promise becomes a slot
      rw [hw, List.filter_append, List.length_append] at hnear
      change s.numInflightOps + ((s'.queueOpWaiters.filter Prod.fst).length + 1) ≤ _ at hnear
      exact hdone (by omega) (by omega)
  · exact hdone (by omega) (by omega)
  · apply hdone
    · omega
    · rw [hw, hnum]
      exact hnear
  · rw [signal_numInflightOps, hnum] at hdone
    exact hdone (by omega) (by omega)
  · apply hdone
    · omega
    · rw [hw, hnum]
      exact hnear

theorem Exact.reaches {n : Nat} (hpos : 1 ≤ maxInflightOps) (hmax : maxInflightOps + 1 < 2 ^ 32)
    (h : Lib.Reaches (OpQueue.step maxInflightOps) (OpQueue.init n) s) : Exact maxInflightOps s := by
  apply h.invariant _ (Exact.init maxInflightOps n)
  intro t a u ht _ hstep
  exact ht.step hpos hmax hstep

end OpQueue

/-- **The bound is passed by one at most**: a caller may take the slot of a flagged waiter, but only
    one waiter is flagged at a time. -/
theorem inflight_exceeds_by_one {maxInflightOps : Nat} (hpos : 1 ≤ maxInflightOps)
    (hmax : maxInflightOps + 1 < 2 ^ 32) (finisherThreads : Nat) {s : OpQueue}
    (h : Lib.Reaches (OpQueue.step maxInflightOps) (OpQueue.init finisherThreads) s) :
    s.numInflightOps = s.inflight ∧ s.inflight ≤ maxInflightOps + 1 := by
  have hs := OpQueue.Exact.reaches hpos hmax h
  have hnear := hs.near
  have hexact := hs.exact
  exact ⟨hexact, by omega⟩

/-- A caller takes the slot of the waiter, and then the waiter is the one too many. -/
theorem inflight_exceeds_by_one_reached :
    ∃ s, Lib.Reaches (OpQueue.step 1) (OpQueue.init 1) s ∧ s.numInflightOps = 2 ∧
      s.numInflightOps = s.inflight ∧ s.inflight ≤ 1 + 1 := by
  have hrun : Lib.Reaches (OpQueue.step 1) (OpQueue.init 1) _ := Lib.run_of_exec
    [.call, .call, .take 0, .callback 0 (.ok ()), .finish 0, .call, .wake 1] rfl
  exact ⟨_, hrun, rfl, inflight_exceeds_by_one (le_refl 1) (by decide) 1 hrun⟩

/-! ## The destructor -/

/-- The steps left for a finisher with what it holds. -/
def Finisher.work : Finisher → Nat
  | .waiting => 1
  | .holding _ _ => 3
  | .called => 2
  | .exited => 0

namespace OpQueue

/-- The log is destroyed once, when no caller is inside `queue_op`, and nobody calls it
    afterwards. -/
def Orderly (s : OpQueue) : Action → Prop
  | .call => s.shutdown = false
  | .shutdown => s.shutdown = false ∧ s.queueOpWaiters = []
  | _ => True

instance decidableOrderly (s : OpQueue) : (a : Action) → Decidable (s.Orderly a)
  | .call => inferInstanceAs (Decidable (s.shutdown = false))
  | .wake _ => isTrue trivial
  | .take _ => isTrue trivial
  | .callback .. => isTrue trivial
  | .finish _ => isTrue trivial
  | .shutdown => inferInstanceAs (Decidable (s.shutdown = false ∧ s.queueOpWaiters = []))

/-- The destructor has joined the finisher threads. -/
def Joined (s : OpQueue) : Prop := ∀ f ∈ s.finishers, f = .exited

/-- The steps left until the finishers are joined. -/
def work (s : OpQueue) : Nat := 3 * s.pendingOps.length + (s.finishers.map Finisher.work).sum

/-- What holds along an orderly run. -/
structure Serving (maxInflightOps n : Nat) (s : OpQueue) : Prop extends Exact maxInflightOps s where
  threads : s.finishers.length = n
  alone : s.shutdown = true → s.queueOpWaiters = []
  exited : Finisher.exited ∈ s.finishers → s.shutdown = true ∧ s.pendingOps = []

variable {s s' : OpQueue} {maxInflightOps n : Nat} {a : Action}

/-- What the steps of a finisher change. -/
theorem finisher_cases (h : s.step maxInflightOps a = some s') (ho : s.Orderly a)
    (hdown : s.shutdown = true) (halone : s.queueOpWaiters = []) :
    ∃ (i : Nat) (f f' : Finisher), s.finishers[i]? = some f ∧ s'.finishers = s.finishers.set i f' ∧
      s'.shutdown = true ∧ s'.queueOpWaiters = [] ∧
      ((a = .take i ∧ f = .waiting ∧ f' = .exited ∧ s.pendingOps = [] ∧ s'.pendingOps = [] ∧
          s'.callbacks = s.callbacks) ∨
        (∃ op, a = .take i ∧ f = .waiting ∧ f' = .holding op true ∧
          s.pendingOps = op :: s'.pendingOps ∧ s'.callbacks = s.callbacks) ∨
        (∃ op down ret, f = .holding op down ∧ f' = .called ∧ s'.pendingOps = s.pendingOps ∧
          s'.callbacks = s.callbacks ++ [(op, if down then .error .eshutdown else ret)]) ∨
        (f = .called ∧ f' = .waiting ∧ s'.pendingOps = s.pendingOps ∧
          s'.callbacks = s.callbacks)) := by
  cases a with
  | call =>
    have hopen : s.shutdown = false := ho
    rw [hopen] at hdown
    cases hdown
  | wake op =>
    simp only [OpQueue.step, halone] at h
    cases h
  | take i =>
    simp only [OpQueue.step] at h
    split at h
    · next hi =>
      split at h
      · next hpending =>
        rw [if_pos hdown] at h
        cases h
        exact ⟨i, _, .exited, hi, rfl, hdown, halone,
          Or.inl ⟨rfl, rfl, rfl, hpending, hpending, rfl⟩⟩
      · next op pendingOps hpending =>
        cases h
        exact ⟨i, _, .holding op s.shutdown, hi, rfl, hdown, halone,
          Or.inr (Or.inl ⟨op, rfl, rfl, by rw [hdown], hpending, rfl⟩)⟩
    · cases h
  | callback i ret =>
    simp only [OpQueue.step] at h
    split at h
    · next op down hi =>
      cases h
      exact ⟨i, _, .called, hi, rfl, hdown, halone,
        Or.inr (Or.inr (Or.inl ⟨op, down, ret, rfl, rfl, rfl, rfl⟩))⟩
    · cases h
  | finish i =>
    simp only [OpQueue.step] at h
    split at h
    · next hi =>
      split at h
      · cases h
      · cases h
        have hquiet : s.queueOpWaiters.getLast? = none := by
          rw [halone]
          rfl
        have hsame : ({ s with numInflightOps := s.numInflightOps - 1,
                               finishers := s.finishers.set i .waiting } : OpQueue).signal =
            { s with numInflightOps := s.numInflightOps - 1,
                     finishers := s.finishers.set i .waiting } := by
          unfold signal
          rw [hquiet]
        rw [hsame]
        exact ⟨i, _, .waiting, hi, rfl, hdown, halone,
          Or.inr (Or.inr (Or.inr ⟨rfl, rfl, rfl, rfl⟩))⟩
    · cases h
  | shutdown =>
    have hopen : s.shutdown = false := ho.1
    rw [hopen] at hdown
    cases hdown

/-- Only the destructor sets the flag, and no finisher exits before. -/
theorem step_frame (h : s.step maxInflightOps a = some s') :
    s'.finishers.length = s.finishers.length ∧ (a ≠ .shutdown → s'.shutdown = s.shutdown) ∧
      (s.shutdown = false → Finisher.exited ∉ s.finishers → Finisher.exited ∉ s'.finishers) := by
  have hset : ∀ (i : Nat) (f : Finisher), f ≠ .exited → Finisher.exited ∉ s.finishers →
      Finisher.exited ∉ s.finishers.set i f := by
    intro i f hf hnone hmem
    rcases List.mem_or_eq_of_mem_set hmem with hmem | heq
    · exact hnone hmem
    · exact hf heq.symm
  cases a with
  | call =>
    simp only [OpQueue.step] at h
    split at h <;> cases h <;> exact ⟨rfl, fun _ => rfl, fun _ => id⟩
  | wake op =>
    simp only [OpQueue.step] at h
    split at h
    · cases h
    · split at h <;> cases h <;> exact ⟨rfl, fun _ => rfl, fun _ => id⟩
  | take i =>
    simp only [OpQueue.step] at h
    split at h
    · split at h
      · split at h
        · next hdown =>
          cases h
          refine ⟨List.length_set, fun _ => rfl, fun hopen => ?_⟩
          rw [hopen] at hdown
          cases hdown
        · cases h
      · cases h
        exact ⟨List.length_set, fun _ => rfl, fun _ => hset i _ (by rintro ⟨⟩)⟩
    · cases h
  | callback i ret =>
    simp only [OpQueue.step] at h
    split at h
    · cases h
      exact ⟨List.length_set, fun _ => rfl, fun _ => hset i _ (by rintro ⟨⟩)⟩
    · cases h
  | finish i =>
    simp only [OpQueue.step] at h
    split at h
    · split at h
      · cases h
      · cases h
        unfold signal
        split <;> exact ⟨List.length_set, fun _ => rfl, fun _ => hset i _ (by rintro ⟨⟩)⟩
    · cases h
  | shutdown =>
    cases h
    exact ⟨rfl, fun hne => absurd rfl hne, fun _ => id⟩

theorem Serving.init (maxInflightOps n : Nat) : Serving maxInflightOps n (.init n) := by
  refine ⟨Exact.init maxInflightOps n, List.length_replicate, by rintro ⟨⟩, ?_⟩
  intro hmem
  cases List.eq_of_mem_replicate hmem

/-- **Step lemma.** -/
theorem Serving.step (h : Serving maxInflightOps n s) (hpos : 1 ≤ maxInflightOps)
    (hmax : maxInflightOps + 1 < 2 ^ 32) (ho : s.Orderly a)
    (hstep : s.step maxInflightOps a = some s') : Serving maxInflightOps n s' := by
  have hexact := h.toExact.step hpos hmax hstep
  obtain ⟨hlength, hflag, hnew⟩ := step_frame hstep
  have hthreads := hlength.trans h.threads
  cases hdown : s.shutdown with
  | true =>
    have halone := h.alone hdown
    obtain ⟨i, f, f', hi, hset, hdown', halone', hcase⟩ := finisher_cases hstep ho hdown halone
    refine ⟨hexact, hthreads, fun _ => halone', fun hmem => ⟨hdown', ?_⟩⟩
    rw [hset] at hmem
    rcases hcase with ⟨-, -, -, -, hp, -⟩ | ⟨op, -, -, rfl, hp, -⟩ | ⟨op, down, ret, -, rfl, hp, -⟩ |
      ⟨-, rfl, hp, -⟩
    · exact hp
    · rcases List.mem_or_eq_of_mem_set hmem with hmem | heq
      · rw [(h.exited hmem).2] at hp
        cases hp
      · cases heq
    · rcases List.mem_or_eq_of_mem_set hmem with hmem | heq
      · exact hp.trans (h.exited hmem).2
      · cases heq
    · rcases List.mem_or_eq_of_mem_set hmem with hmem | heq
      · exact hp.trans (h.exited hmem).2
      · cases heq
  | false =>
    have hnone : Finisher.exited ∉ s.finishers := by
      intro hmem
      rw [(h.exited hmem).1] at hdown
      cases hdown
    refine ⟨hexact, hthreads, ?_, fun hmem => absurd hmem (hnew hdown hnone)⟩
    intro hdown'
    cases a with
    | shutdown =>
      cases hstep
      exact ho.2
    | _ =>
      rw [hflag (by rintro ⟨⟩), hdown] at hdown'
      cases hdown'

theorem Serving.of_run (hpos : 1 ≤ maxInflightOps) (hmax : maxInflightOps + 1 < 2 ^ 32)
    (h : Lib.Run (OpQueue.step maxInflightOps) Orderly (OpQueue.init n) s) :
    Serving maxInflightOps n s := by
  apply h.invariant _ (Serving.init maxInflightOps n)
  intro t a u ht ho hstep
  exact ht.step hpos hmax ho hstep

/-- A finisher that changes its state changes the steps left. -/
theorem work_set {l : List Finisher} {i : Nat} {f : Finisher} (hi : l[i]? = some f)
    (f' : Finisher) :
    ((l.set i f').map Finisher.work).sum + f.work = (l.map Finisher.work).sum + f'.work := by
  obtain ⟨rest, hold, hnew⟩ := Lib.set_perm hi
  rw [(hold.map Finisher.work).sum_nat, ((hnew f').map Finisher.work).sum_nat]
  rw [List.map_cons, List.map_cons, List.sum_cons, List.sum_cons]
  omega

/-- Once the log shuts down, every step is one less to go. -/
theorem work_step (h : s.step maxInflightOps a = some s') (ho : s.Orderly a)
    (hdown : s.shutdown = true) (halone : s.queueOpWaiters = []) : s'.work < s.work := by
  obtain ⟨i, f, f', hi, hset, -, -, hcase⟩ := finisher_cases h ho hdown halone
  have hsum := work_set hi f'
  rw [← hset] at hsum
  unfold work
  rcases hcase with ⟨-, rfl, rfl, hp, hp', -⟩ | ⟨op, -, rfl, rfl, hp, -⟩ |
    ⟨op, down, ret, rfl, rfl, hp, -⟩ | ⟨rfl, rfl, hp, -⟩ <;> simp only [Finisher.work] at hsum
  · rw [hp, hp']
    omega
  · rw [hp, List.length_cons]
    omega
  · rw [hp]
    omega
  · rw [hp]
    omega

/-- The counter is positive while an operation is in flight, so a finisher that called back goes
    on. -/
theorem Exact.counted (h : Exact maxInflightOps s) {i : Nat} {f : Finisher}
    (hi : s.finishers[i]? = some f) (hf : f.busy = true) : s.numInflightOps ≠ 0 := by
  have hmem : f ∈ s.finishers := List.mem_of_getElem? hi
  have hpos : 0 < s.finishers.countP Finisher.busy := List.countP_pos_iff.mpr ⟨f, hmem, hf⟩
  rw [h.exact]
  unfold inflight
  omega

/-- A finisher that has not exited can go on. -/
theorem Exact.enabled (h : Exact maxInflightOps s) (hdown : s.shutdown = true) {i : Nat}
    {f : Finisher} (hi : s.finishers[i]? = some f) (hf : f ≠ .exited) :
    ∃ a, s.Orderly a ∧ (s.step maxInflightOps a).isSome = true := by
  cases f with
  | waiting =>
    refine ⟨.take i, trivial, ?_⟩
    simp only [OpQueue.step, hi]
    split
    · rw [if_pos hdown]
      rfl
    · rfl
  | holding op down =>
    refine ⟨.callback i (.ok ()), trivial, ?_⟩
    simp only [OpQueue.step, hi]
    rfl
  | called =>
    refine ⟨.finish i, trivial, ?_⟩
    simp only [OpQueue.step, hi]
    rw [if_neg (h.counted hi rfl)]
    rfl
  | exited => exact absurd rfl hf

/-- Only the join stops the finishers. -/
theorem Serving.stuck_iff (h : Serving maxInflightOps n s) (hdown : s.shutdown = true) :
    (∀ a, s.Orderly a → s.step maxInflightOps a = none) ↔ s.Joined := by
  constructor
  · intro hstuck f hf
    obtain ⟨i, hi⟩ := List.getElem?_of_mem hf
    by_contra hne
    obtain ⟨a, ho, hsome⟩ := h.toExact.enabled hdown hi hne
    rw [hstuck a ho] at hsome
    cases hsome
  · intro hjoined a ho
    cases hstep : s.step maxInflightOps a with
    | none => rfl
    | some t =>
      obtain ⟨i, f, f', hi, -, -, -, hcase⟩ := finisher_cases hstep ho hdown (h.alone hdown)
      have hf := hjoined f (List.mem_of_getElem? hi)
      rcases hcase with ⟨-, rfl, -⟩ | ⟨op, -, rfl, -⟩ | ⟨op, down, ret, rfl, -⟩ | ⟨rfl, -⟩ <;>
        cases hf

/-- When the finishers have exited, every call was called back. -/
theorem Serving.drained (h : Serving maxInflightOps n s) (hn : 1 ≤ n) (hdown : s.shutdown = true)
    (hjoined : s.Joined) : (s.callbacks.map Prod.fst).Perm (List.range s.calls) := by
  have hlength := h.threads
  obtain ⟨f, hf⟩ : ∃ f, f ∈ s.finishers := List.exists_mem_of_length_pos (by omega)
  have hexited : Finisher.exited ∈ s.finishers := hjoined f hf ▸ hf
  have hpending := (h.exited hexited).2
  have hheld : s.held = [] := by
    apply List.filterMap_eq_nil_iff.mpr
    intro f hf
    rw [hjoined f hf]
    rfl
  have hcalled := h.called
  rw [h.alone hdown] at hcalled
  have hkept := h.kept
  rw [hpending, hheld] at hkept
  have hall : s.accepted.Perm (List.range s.calls) := by
    have hperm : (s.accepted ++ []).Perm (List.range s.calls) := hcalled
    rwa [List.append_nil] at hperm
  exact hkept.symm.trans hall

/-- What happens to the operations `ops` that were pending when the flag was found set. -/
structure Refuses (ops : List Nat) (s : OpQueue) : Prop where
  answers : ∀ op ∈ ops, ∀ ret, (op, ret) ∈ s.callbacks → ret = .error .eshutdown
  holds : ∀ op ∈ ops, ∀ down, Finisher.holding op down ∈ s.finishers → down = true

/-- What is pending is nowhere else. -/
theorem Sound.refuses (h : s.Sound) : Refuses s.pendingOps s := by
  have honce : ∀ op ∈ s.pendingOps,
      s.held.count op = 0 ∧ (s.callbacks.map Prod.fst).count op = 0 := by
    intro op hop
    have hcount := h.count_places op
    have hpos : 0 < s.pendingOps.count op := List.count_pos_iff.mpr hop
    split at hcount <;> omega
  refine ⟨?_, ?_⟩
  · intro op hop ret hmem
    have hcb : op ∈ s.callbacks.map Prod.fst := List.mem_map.mpr ⟨_, hmem, rfl⟩
    exact absurd hcb (List.count_eq_zero.mp (honce op hop).2)
  · intro op hop down hmem
    have hheld : op ∈ s.held := List.mem_filterMap.mpr ⟨_, hmem, rfl⟩
    exact absurd hheld (List.count_eq_zero.mp (honce op hop).1)

/-- **Step lemma.** -/
theorem Refuses.step {ops : List Nat} (h : Refuses ops s) (hstep : s.step maxInflightOps a = some s')
    (ho : s.Orderly a) (hdown : s.shutdown = true) (halone : s.queueOpWaiters = []) :
    Refuses ops s' := by
  obtain ⟨i, f, f', hi, hset, -, -, hcase⟩ := finisher_cases hstep ho hdown halone
  -- who holds an operation held it before, or has just taken it with the flag set
  have hkeep : (∀ op down, f' = .holding op down → down = true) →
      ∀ op ∈ ops, ∀ down, Finisher.holding op down ∈ s'.finishers → down = true := by
    intro hf' op hop down hmem
    rw [hset] at hmem
    rcases List.mem_or_eq_of_mem_set hmem with hmem | heq
    · exact h.holds op hop down hmem
    · exact hf' op down heq.symm
  rcases hcase with ⟨-, -, rfl, -, -, hcb⟩ | ⟨op, -, -, rfl, -, hcb⟩ |
    ⟨op, down, ret, rfl, rfl, -, hcb⟩ | ⟨-, rfl, -, hcb⟩
  · exact ⟨by rw [hcb]; exact h.answers, hkeep (by rintro _ _ ⟨⟩)⟩
  · refine ⟨by rw [hcb]; exact h.answers, hkeep ?_⟩
    intro op' down heq
    cases heq
    rfl
  · refine ⟨?_, hkeep (by rintro _ _ ⟨⟩)⟩
    intro op' hop' ret' hmem
    rw [hcb] at hmem
    rcases List.mem_append.mp hmem with hmem | hmem
    · exact h.answers op' hop' ret' hmem
    · cases List.mem_singleton.mp hmem
      rw [if_pos (h.holds op hop' down (List.mem_of_getElem? hi))]
  · exact ⟨by rw [hcb]; exact h.answers, hkeep (by rintro _ _ ⟨⟩)⟩

/-- The steps of an orderly run. -/
def orderlyStep (maxInflightOps : Nat) (s : OpQueue) (a : Action) : Option OpQueue :=
  if s.Orderly a then s.step maxInflightOps a else none

theorem of_orderlyStep (h : s.orderlyStep maxInflightOps a = some s') :
    s.Orderly a ∧ s.step maxInflightOps a = some s' := by
  unfold orderlyStep at h
  split at h
  · next ho => exact ⟨ho, h⟩
  · cases h

/-- What holds once the log shuts down. -/
structure Draining (maxInflightOps n : Nat) (ops : List Nat) (s : OpQueue) : Prop
    extends Serving maxInflightOps n s, Refuses ops s where
  down : s.shutdown = true

theorem Draining.step {ops : List Nat} (h : Draining maxInflightOps n ops s) (hpos : 1 ≤ maxInflightOps)
    (hmax : maxInflightOps + 1 < 2 ^ 32) (ho : s.Orderly a)
    (hstep : s.step maxInflightOps a = some s') : Draining maxInflightOps n ops s' := by
  have halone := h.alone h.down
  obtain ⟨-, -, -, -, -, hdown, -⟩ := finisher_cases hstep ho h.down halone
  exact ⟨h.toServing.step hpos hmax ho hstep, h.toRefuses.step hstep ho h.down halone, hdown⟩

end OpQueue

/-- **The destructor returns.**  From a state of an orderly run where the flag is set, the finishers
    have at most `work` steps left and stop only when they are joined; then every call of
    `queue_op` was called back exactly once, and what was pending was refused. -/
theorem destructor_drains {maxInflightOps : Nat} (hpos : 1 ≤ maxInflightOps)
    (hmax : maxInflightOps + 1 < 2 ^ 32) {finisherThreads : Nat} (hthreads : 1 ≤ finisherThreads)
    {s : OpQueue} (h : Lib.Run (OpQueue.step maxInflightOps) OpQueue.Orderly
      (OpQueue.init finisherThreads) s) (hdown : s.shutdown = true) :
    (∀ as t, Lib.exec (OpQueue.orderlyStep maxInflightOps) s as = some t →
      as.length + t.work ≤ s.work) ∧
    ((∀ a, s.Orderly a → s.step maxInflightOps a = none) ↔ s.Joined) ∧
    (s.Joined → (s.callbacks.map Prod.fst).Perm (List.range s.calls)) ∧
    ∀ t, Lib.Run (OpQueue.step maxInflightOps) OpQueue.Orderly s t → ∀ op ∈ s.pendingOps, ∀ ret,
      (op, ret) ∈ t.callbacks → ret = .error .eshutdown := by
  have hs := OpQueue.Serving.of_run hpos hmax h
  have hdraining : OpQueue.Draining maxInflightOps finisherThreads s.pendingOps s :=
    ⟨hs, hs.toSound.refuses, hdown⟩
  refine ⟨?_, hs.stuck_iff hdown, hs.drained hthreads hdown, ?_⟩
  · intro as t hexec
    apply Lib.exec_length_le _ _ hexec hdraining
    · intro t a u ht hstep
      obtain ⟨ho, hstep⟩ := OpQueue.of_orderlyStep hstep
      exact ht.step hpos hmax ho hstep
    · intro t a u ht hstep
      obtain ⟨ho, hstep⟩ := OpQueue.of_orderlyStep hstep
      exact OpQueue.work_step hstep ho ht.down (ht.alone ht.down)
  · intro t hrun op hop ret hmem
    have ht : OpQueue.Draining maxInflightOps finisherThreads s.pendingOps t := by
      apply hrun.invariant _ hdraining
      intro t a u ht ho hstep
      exact ht.step hpos hmax ho hstep
    exact ht.answers op hop ret hmem

/-- Two operations are queued and one has been taken when the log is destroyed: the other is
    refused. -/
theorem destructor_drains_two :
    ∃ s, Lib.Run (OpQueue.step 2) OpQueue.Orderly (OpQueue.init 1) s ∧ s.pendingOps = [1] ∧
      (∀ as t, Lib.exec (OpQueue.orderlyStep 2) s as = some t → as.length + t.work ≤ 6) ∧
      ∀ t, Lib.Run (OpQueue.step 2) OpQueue.Orderly s t → ∀ ret, (1, ret) ∈ t.callbacks →
        ret = .error .eshutdown := by
  have hrun := @Lib.run_of_exec_guard _ _ (OpQueue.step 2) OpQueue.Orderly _
    (OpQueue.init 1) _ [.call, .call, .take 0, .shutdown] rfl
  have hdrains := destructor_drains (Nat.le_add_left 1 1) (by decide) (le_refl 1) hrun rfl
  refine ⟨_, hrun, rfl, hdrains.1, ?_⟩
  intro t ht ret hmem
  exact hdrains.2.2.2 t ht 1 (List.mem_singleton.mpr rfl) ret hmem

end ZLog
