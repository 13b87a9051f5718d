import ZLog.Storage.Backend
import ZLog.Lib.Transition
import ZLog.Lib.Tickets
import Mathlib.Data.List.Nodup

/-!
# The operation queue

The asynchronous calls of a log go through a bounded queue: `queue_op` takes an operation in, or
blocks its caller while too many are in flight, and the finisher threads run what was taken in.  A
finisher that is done signals the caller that has waited longest.  One step is one critical section
of the lock of the log, or one callback.

The queue is a model of its own beside the one of clients on a log: it knows its operations by
number, and an operation that was called returns.  What happens when a log is destroyed with
operations in flight is covered here only; a client on a log is closed when none is running.

## Main results

- `OpQueue.Sound.step`: what every step keeps.
- `no_caller_stranded`: no caller is left waiting, and no operation is lost or run twice.
- `inflight_bounded`: the bound on the operations in flight, as far as it holds.
-/

namespace ZLog

/-! ## The queue -/

/-- Control states of `finisher_entry_`. -/
inductive Finisher where
  | waiting
  /-- An operation to run, with `do_shutdown`. -/
  | holding (op : Nat) (doShutdown : Bool)
  /-- The callback has been called. -/
  | called
  | exited
  deriving DecidableEq

namespace Finisher

def op? : Finisher → Option Nat
  | .holding op _ => some op
  | _ => none

/-- The finisher has an operation that counts as in flight. -/
def busy : Finisher → Bool
  | .holding _ _ | .called => true
  | _ => false

end Finisher

/-- The queue of a log; the operations are numbered in the order of the calls of `queue_op`. -/
structure OpQueue where
  numInflightOps : Nat
  /-- `queue_op_waiters_`: the newest in front, each with its flag. -/
  queueOpWaiters : List (Bool × Nat)
  pendingOps : List Nat
  finishers : List Finisher
  shutdown : Bool
  /-- The calls of `queue_op` so far; the rest is the history of the log. -/
  calls : Nat
  arrived : List Nat
  signalled : List Nat
  accepted : List Nat
  callbacks : List (Nat × Ret Unit)
  deriving DecidableEq

namespace OpQueue

def init (finisherThreads : Nat) : OpQueue where
  numInflightOps := 0
  queueOpWaiters := []
  pendingOps := []
  finishers := List.replicate finisherThreads .waiting
  shutdown := false
  calls := 0
  arrived := []
  signalled := []
  accepted := []
  callbacks := []

/-- The second half of `queue_op`; the counter is a `uint32_t`. -/
def accept (s : OpQueue) (op : Nat) : OpQueue :=
  { s with numInflightOps := (s.numInflightOps + 1) % 2 ^ 32,
           pendingOps := s.pendingOps ++ [op],
           accepted := s.accepted ++ [op] }

/-- Flags the waiter at the back. -/
def signal (s : OpQueue) : OpQueue :=
  match s.queueOpWaiters.getLast? with
  | none => s
  | some (flag, op) =>
    { s with queueOpWaiters := s.queueOpWaiters.dropLast ++ [(true, op)],
             signalled := if flag then s.signalled else s.signalled ++ [op] }

inductive Action where
  /-- A thread enters `queue_op`. -/
  | call
  /-- A blocked caller re-acquires the lock. -/
  | wake (op : Nat)
  /-- A finisher looks for an operation. -/
  | take (finisher : Nat)
  /-- It has run its operation with the given result. -/
  | callback (finisher : Nat) (ret : Ret Unit)
  | finish (finisher : Nat)
  /-- The log is being destroyed. -/
  | shutdown

def step (maxInflightOps : Nat) (s : OpQueue) : Action → Option OpQueue
  | .call =>
    let op := s.calls
    if maxInflightOps ≤ s.numInflightOps then
      some { s with calls := s.calls + 1,
                    queueOpWaiters := (false, op) :: s.queueOpWaiters,
                    arrived := s.arrived ++ [op] }
    else some ({ s with calls := s.calls + 1 }.accept op)
  | .wake op =>
    match s.queueOpWaiters.find? (fun w => w.2 = op) with
    | none => none
    | some (flag, _) =>
      if flag then
        some ({ s with queueOpWaiters := s.queueOpWaiters.eraseP (fun w => w.2 = op) }.accept op)
      else some s
  | .take i =>
    match s.finishers[i]? with
    | some .waiting =>
      match s.pendingOps with
      | [] => if s.shutdown then some { s with finishers := s.finishers.set i .exited } else none
      | op :: pendingOps =>
        some { s with pendingOps := pendingOps,
                      finishers := s.finishers.set i (.holding op s.shutdown) }
    | _ => none
  | .callback i ret =>
    match s.finishers[i]? with
    | some (.holding op doShutdown) =>
      some { s with finishers := s.finishers.set i .called,
                    callbacks := s.callbacks ++
                      [(op, if doShutdown then .error .eshutdown else ret)] }
    | _ => none
  | .finish i =>
    match s.finishers[i]? with
    | some .called =>
      -- `assert(num_inflight_ops_ > 0)`
      if s.numInflightOps = 0 then none
      else some { s with numInflightOps := s.numInflightOps - 1,
                         finishers := s.finishers.set i .waiting }.signal
    | _ => none
  | .shutdown => some { s with shutdown := true }

/-- The operations that finishers hold. -/
def held (s : OpQueue) : List Nat := s.finishers.filterMap Finisher.op?

/-- The operations in flight. -/
def inflight (s : OpQueue) : Nat := s.pendingOps.length + s.finishers.countP Finisher.busy

/-- The waiters that are not flagged, oldest first. -/
def unflagged (s : OpQueue) : List Nat :=
  ((s.queueOpWaiters.filter (fun w => !w.1)).map Prod.snd).reverse

/-! ## What every step keeps -/

/-- What holds throughout.  Only the oldest waiter may be flagged, and it is, unless an operation
    is in flight whose finisher will flag it.  Every call is accepted or waiting, and every accepted
    operation is pending, held or called back. -/
structure Sound (s : OpQueue) : Prop where
  counter : s.numInflightOps = s.inflight % 2 ^ 32
  oldest : ∀ w ∈ s.queueOpWaiters.dropLast, w.1 = false
  served : ∀ w, s.queueOpWaiters.getLast? = some w → w.1 = true ∨ 0 < s.inflight
  order : s.arrived = s.signalled ++ s.unflagged
  called : Lib.Tickets (s.queueOpWaiters.map Prod.snd) s.accepted s.calls
  kept : s.accepted.Perm (s.pendingOps ++ s.held ++ s.callbacks.map Prod.fst)

namespace Sound

variable {s : OpQueue} {op i maxInflightOps : Nat}

theorem init (n : Nat) : (OpQueue.init n).Sound := by
  have hheld : (OpQueue.init n).held = [] := by
    unfold held OpQueue.init
    simp [Finisher.op?]
  have hinflight : (OpQueue.init n).inflight = 0 := by
    unfold inflight OpQueue.init
    simp [List.countP_replicate, Finisher.busy]
  refine ⟨?_, ?_, ?_, rfl, .none_drawn, ?_⟩
  · rw [hinflight]
    rfl
  · intro w hw
    cases hw
  · intro w hw
    cases hw
  · rw [hheld]
    exact List.Perm.refl _

/-- An operation whose call is out is accepted. -/
theorem accept (hcounter : s.numInflightOps = s.inflight % 2 ^ 32)
    (holdest : ∀ w ∈ s.queueOpWaiters.dropLast, w.1 = false)
    (horder : s.arrived = s.signalled ++ s.unflagged)
    (hcalled : Lib.Tickets (op :: s.queueOpWaiters.map Prod.snd) s.accepted s.calls)
    (hkept : s.accepted.Perm (s.pendingOps ++ s.held ++ s.callbacks.map Prod.fst)) :
    (s.accept op).Sound := by
  have hinflight : (s.accept op).inflight = s.inflight + 1 := by
    show (s.pendingOps ++ [op]).length + s.finishers.countP Finisher.busy = s.inflight + 1
    unfold inflight
    rw [List.length_append, List.length_singleton]
    omega
  refine ⟨?_, holdest, ?_, horder, ?_, ?_⟩
  · show (s.numInflightOps + 1) % 2 ^ 32 = _
    rw [hinflight, hcounter]
    omega
  · intro w _
    rw [hinflight]
    exact Or.inr (Nat.succ_pos _)
  · exact hcalled.use.congr (.refl _) (List.perm_append_singleton op s.accepted)
  · -- the operation joins the pending ones
    have hnew : (s.accepted ++ [op]).Perm (op :: (s.pendingOps ++ s.held ++
        s.callbacks.map Prod.fst)) :=
      (List.perm_append_singleton op s.accepted).trans (hkept.cons op)
    apply hnew.trans
    show (op :: (s.pendingOps ++ s.held ++ s.callbacks.map Prod.fst)).Perm
      ((s.pendingOps ++ [op]) ++ s.held ++ s.callbacks.map Prod.fst)
    rw [List.append_assoc, List.append_assoc, List.append_assoc]
    exact List.perm_middle.symm

/-- A flagged waiter is the oldest one. -/
theorem flagged_last (h : s.Sound)
    (hfind : s.queueOpWaiters.find? (fun w => w.2 = op) = some (true, op)) :
    ∃ l, s.queueOpWaiters = l ++ [(true, op)] ∧
      s.queueOpWaiters.eraseP (fun w => w.2 = op) = l := by
  have hmem := List.mem_of_find?_eq_some hfind
  rcases List.eq_nil_or_concat s.queueOpWaiters with hnil | ⟨l, x, hl⟩
  · rw [hnil] at hmem
    cases hmem
  · rw [List.concat_eq_append] at hl
    have holdest := h.oldest
    rw [hl, List.dropLast_concat] at holdest
    rw [hl] at hmem
    rcases List.mem_append.mp hmem with hin | hin
    · cases holdest _ hin
    · have hx : (true, op) = x := List.mem_singleton.mp hin
      rw [← hx] at hl
      refine ⟨l, hl, ?_⟩
      -- the operations of the waiters are distinct, so the search passes the others
      have hnodup := h.called.nodup
      rw [hl, List.map_append] at hnodup
      have hnot : ∀ w ∈ l, ¬ decide (w.2 = op) = true := by
        intro w hw heq
        have hdisj := (List.nodup_append.mp (List.nodup_append.mp hnodup).2.1).2.2
        exact hdisj w.2 (List.mem_map_of_mem hw) op (List.mem_singleton.mpr rfl)
          (of_decide_eq_true heq)
      rw [hl, List.eraseP_append_right _ hnot]
      simp

/-- A finisher that changes its state: what it holds, and whether it counts as busy. -/
theorem set_finisher {l : List Finisher} {x : Finisher} (hx : l[i]? = some x) :
    ∃ ops n, (l.filterMap Finisher.op?).Perm (x.op?.toList ++ ops) ∧
      l.countP Finisher.busy = n + x.busy.toNat ∧
      ∀ y : Finisher, ((l.set i y).filterMap Finisher.op?).Perm (y.op?.toList ++ ops) ∧
        (l.set i y).countP Finisher.busy = n + y.busy.toNat := by
  -- the finisher, and the rest of the list
  obtain ⟨rest, hold, hnew⟩ := Lib.set_perm hx
  have hops : ∀ y : Finisher, (y :: rest).filterMap Finisher.op? =
      y.op?.toList ++ rest.filterMap Finisher.op? := by
    intro y
    rw [List.filterMap_cons]
    cases y.op? <;> rfl
  have hbusy : ∀ y : Finisher, (y :: rest).countP Finisher.busy =
      rest.countP Finisher.busy + y.busy.toNat := by
    intro y
    rw [List.countP_cons]
    cases y.busy <;> rfl
  refine ⟨rest.filterMap Finisher.op?, rest.countP Finisher.busy, ?_, ?_, ?_⟩
  · rw [← hops]
    exact hold.filterMap _
  · rw [← hbusy]
    exact hold.countP_eq _
  · intro y
    rw [← hops, ← hbusy]
    exact ⟨(hnew y).filterMap _, (hnew y).countP_eq _⟩

/-- The finisher flags the oldest waiter, which may be flagged already. -/
theorem signal (hcounter : s.numInflightOps = s.inflight % 2 ^ 32)
    (holdest : ∀ w ∈ s.queueOpWaiters.dropLast, w.1 = false)
    (horder : s.arrived = s.signalled ++ s.unflagged)
    (hcalled : Lib.Tickets (s.queueOpWaiters.map Prod.snd) s.accepted s.calls)
    (hkept : s.accepted.Perm (s.pendingOps ++ s.held ++ s.callbacks.map Prod.fst)) :
    s.signal.Sound := by
  -- without a waiter there is nobody to flag
  rcases List.eq_nil_or_concat s.queueOpWaiters with hnil | ⟨l, ⟨flag, op⟩, hl⟩
  · have hsame : s.signal = s := by
      unfold OpQueue.signal
      rw [hnil]
      rfl
    rw [hsame]
    refine ⟨hcounter, holdest, ?_, horder, hcalled, hkept⟩
    intro w hw
    rw [hnil] at hw
    cases hw
  · rw [List.concat_eq_append] at hl
    have hsignal : s.signal = { s with
        queueOpWaiters := l ++ [(true, op)],
        signalled := if flag then s.signalled else s.signalled ++ [op] } := by
      unfold OpQueue.signal
      rw [hl, List.getLast?_concat, List.dropLast_concat]
    rw [hl, List.dropLast_concat] at holdest
    rw [hsignal]
    refine ⟨hcounter, ?_, ?_, ?_, ?_, hkept⟩
    · -- only the last waiter has a flag
      show ∀ w ∈ (l ++ [(true, op)]).dropLast, w.1 = false
      rw [List.dropLast_concat]
      exact holdest
    · intro w hw
      change (l ++ [(true, op)]).getLast? = some w at hw
      rw [List.getLast?_concat] at hw
      cases hw
      exact Or.inl rfl
    · -- a waiter that had its flag is not flagged again
      rw [horder]
      unfold unflagged
      rw [hl]
      cases flag with
      | true => simp
      | false => simp
    · rw [hl, List.map_append] at hcalled
      show Lib.Tickets ((l ++ [(true, op)]).map Prod.snd) s.accepted s.calls
      rw [List.map_append]
      exact hcalled

/-! ## The steps -/

theorem call (h : s.Sound) (hmax : 1 ≤ maxInflightOps) {s' : OpQueue}
    (hstep : s.step maxInflightOps .call = some s') : s'.Sound := by
  simp only [step] at hstep
  split at hstep
  · next hfull =>
    cases hstep
    -- the queue is full, so an operation is in flight
    have hinflight : 0 < s.inflight := by
      rw [h.counter] at hfull
      omega
    refine ⟨h.counter, ?_, fun _ _ => Or.inr hinflight, ?_, h.called.draw, h.kept⟩
    · show ∀ w ∈ ((false, s.calls) :: s.queueOpWaiters).dropLast, w.1 = false
      intro w hw
      rcases List.eq_nil_or_concat s.queueOpWaiters with hnil | ⟨l, x, hl⟩
      · rw [hnil] at hw
        cases hw
      · have holdest := h.oldest
        rw [List.concat_eq_append] at hl
        rw [hl, List.dropLast_concat] at holdest
        rw [hl, ← List.cons_append, List.dropLast_concat] at hw
        rcases List.mem_cons.mp hw with heq | hw
        · rw [heq]
        · exact holdest w hw
    · show s.arrived ++ [s.calls] = s.signalled ++ _
      rw [h.order, List.append_assoc]
      congr 1
      unfold unflagged
      simp
  · cases hstep
    apply accept
    · exact h.counter
    · exact h.oldest
    · exact h.order
    · exact h.called.draw
    · exact h.kept

/-- A waiter that wakes up goes on only with its flag. -/
theorem wake (h : s.Sound) {s' : OpQueue} (hstep : s.step maxInflightOps (.wake op) = some s') :
    s'.Sound := by
  simp only [step] at hstep
  split at hstep
  · cases hstep
  · next flag op' hfind =>
    have hop : op' = op := by simpa using List.find?_some hfind
    rw [hop] at hfind
    -- without it, it waits again
    cases flag with
    | false =>
      cases hstep
      exact h
    | true =>
      cases hstep
      -- the flagged waiter is the last one, so the others keep their order
      obtain ⟨l, hl, herase⟩ := h.flagged_last hfind
      have holdest := h.oldest
      rw [hl, List.dropLast_concat] at holdest
      apply accept
      · exact h.counter
      · show ∀ w ∈ (s.queueOpWaiters.eraseP _).dropLast, w.1 = false
        rw [herase]
        exact fun w hw => holdest w ((List.dropLast_sublist l).subset hw)
      · show s.arrived = s.signalled ++ _
        rw [h.order]
        unfold unflagged
        rw [herase, hl]
        simp
      · -- its ticket moves from the waiters to the accepted operations
        show Lib.Tickets (op :: (s.queueOpWaiters.eraseP _).map Prod.snd) s.accepted s.calls
        rw [herase]
        apply h.called.congr _ (.refl _)
        rw [hl, List.map_append]
        exact (List.perm_append_singleton op _).symm
      · exact h.kept

/-- What the finishers pass on among themselves stays in flight. -/
theorem passed (h : s.Sound) {pendingOps : List Nat} {finishers : List Finisher} {shutdown : Bool}
    {callbacks : List (Nat × Ret Unit)}
    (hinflight : pendingOps.length + finishers.countP Finisher.busy = s.inflight)
    (hkept : (s.pendingOps ++ s.held ++ s.callbacks.map Prod.fst).Perm
      (pendingOps ++ finishers.filterMap Finisher.op? ++ callbacks.map Prod.fst)) :
    { s with pendingOps := pendingOps, finishers := finishers, shutdown := shutdown,
             callbacks := callbacks }.Sound := by
  refine ⟨?_, h.oldest, ?_, h.order, h.called, h.kept.trans hkept⟩
  · show s.numInflightOps = (pendingOps.length + finishers.countP Finisher.busy) % 2 ^ 32
    rw [hinflight]
    exact h.counter
  · intro w hw
    show w.1 = true ∨ 0 < pendingOps.length + finishers.countP Finisher.busy
    rw [hinflight]
    exact h.served w hw

/-- A finisher takes an operation, or ends. -/
theorem take (h : s.Sound) {s' : OpQueue} (hstep : s.step maxInflightOps (.take i) = some s') :
    s'.Sound := by
  simp only [step] at hstep
  split at hstep
  · next hi =>
    obtain ⟨ops, n, hops, hbusy, hset⟩ := set_finisher hi
    have hheld : s.held.Perm ops := hops
    split at hstep
    · next hpending =>
      -- nothing is pending: it ends only after a shutdown
      split at hstep
      · cases hstep
        obtain ⟨hops', hbusy'⟩ := hset .exited
        apply h.passed
        · rw [hbusy']
          unfold inflight
          rw [hbusy]
          rfl
        · exact ((hheld.trans hops'.symm).append_left _).append_right _
      · cases hstep
    · next op pendingOps hpending =>
      cases hstep
      -- the operation moves from the queue to the finisher
      obtain ⟨hops', hbusy'⟩ := hset (.holding op s.shutdown)
      apply h.passed
      · rw [hbusy']
        unfold inflight
        rw [hbusy, hpending, List.length_cons]
        show pendingOps.length + (n + 1) = pendingOps.length + 1 + (n + 0)
        omega
      · rw [hpending]
        apply List.Perm.append_right
        have hmove : (pendingOps ++ op :: ops).Perm (op :: pendingOps ++ ops) := List.perm_middle
        exact (hheld.append_left _).trans (hmove.symm.trans (hops'.symm.append_left _))
  · cases hstep

theorem callback (h : s.Sound) {ret : Ret Unit} {s' : OpQueue}
    (hstep : s.step maxInflightOps (.callback i ret) = some s') : s'.Sound := by
  simp only [step] at hstep
  split at hstep
  · next op doShutdown hi =>
    cases hstep
    obtain ⟨ops, n, hops, hbusy, hset⟩ := set_finisher hi
    obtain ⟨hops', hbusy'⟩ := hset .called
    apply h.passed
    · rw [hbusy']
      unfold inflight
      rw [hbusy]
      rfl
    · -- the operation moves from the finisher to the callbacks
      rw [List.map_append, List.append_assoc, List.append_assoc]
      apply List.Perm.append_left
      have hheld : (s.held ++ s.callbacks.map Prod.fst).Perm
          (op :: (ops ++ s.callbacks.map Prod.fst)) := hops.append_right _
      apply hheld.trans
      have hlast : (ops ++ (s.callbacks.map Prod.fst ++ [op])).Perm
          (op :: (ops ++ s.callbacks.map Prod.fst)) := by
        rw [← List.append_assoc]
        exact List.perm_append_singleton op _
      exact hlast.symm.trans (hops'.symm.append_right _)
  · cases hstep

/-- A finisher that is done gives its slot back and flags a waiter. -/
theorem finish (h : s.Sound) {s' : OpQueue}
    (hstep : s.step maxInflightOps (.finish i) = some s') : s'.Sound := by
  simp only [step] at hstep
  split at hstep
  · next hi =>
    split at hstep
    · cases hstep
    · next hpos =>
      cases hstep
      obtain ⟨ops, n, hops, hbusy, hset⟩ := set_finisher hi
      obtain ⟨hops', hbusy'⟩ := hset .waiting
      -- the operation was counted until now
      have hinflight : s.inflight = s.pendingOps.length + (n + 1) := by
        unfold inflight
        rw [hbusy]
        rfl
      apply signal
      · -- the counter was above 0, so it does not wrap
        show s.numInflightOps - 1 =
          (s.pendingOps.length + (s.finishers.set i .waiting).countP Finisher.busy) % 2 ^ 32
        have hcounter := h.counter
        rw [hbusy']
        show s.numInflightOps - 1 = (s.pendingOps.length + (n + 0)) % 2 ^ 32
        omega
      · exact h.oldest
      · exact h.order
      · exact h.called
      · -- a finisher that waits holds nothing, as before
        have hheld : s.held.Perm ((s.finishers.set i .waiting).filterMap Finisher.op?) :=
          hops.trans hops'.symm
        exact h.kept.trans ((hheld.append_left _).append_right _)
  · cases hstep

/-- **Step lemma.** -/
theorem step (h : s.Sound) (hmax : 1 ≤ maxInflightOps) {a : Action} {s' : OpQueue}
    (hstep : s.step maxInflightOps a = some s') : s'.Sound := by
  cases a with
  | call => exact h.call hmax hstep
  | wake op => exact h.wake hstep
  | take i => exact h.take hstep
  | callback i ret => exact h.callback hstep
  | finish i => exact h.finish hstep
  | shutdown =>
    cases hstep
    exact h.passed rfl (.refl _)

/-- **Run lemma.** -/
theorem reaches (hmax : 1 ≤ maxInflightOps) {n : Nat}
    (h : Lib.Reaches (OpQueue.step maxInflightOps) (OpQueue.init n) s) : s.Sound := by
  apply h.invariant _ (Sound.init n)
  intro t a u ht _ hstep
  exact ht.step hmax hstep

/-- One waiter at most is flagged. -/
theorem flagged_le_one (h : s.Sound) : (s.queueOpWaiters.filter Prod.fst).length ≤ 1 := by
  rcases List.eq_nil_or_concat s.queueOpWaiters with hnil | ⟨l, x, hl⟩
  · rw [hnil]
    exact Nat.zero_le _
  · rw [List.concat_eq_append] at hl
    have holdest := h.oldest
    rw [hl, List.dropLast_concat] at holdest
    have hnone : l.filter Prod.fst = [] := by
      apply List.filter_eq_nil_iff.mpr
      intro w hw
      rw [holdest w hw]
      exact Bool.false_ne_true
    rw [hl, List.filter_append, hnone, List.nil_append]
    exact List.length_filter_le _ _

/-- Every accepted operation is in one place, and nothing else is in any. -/
theorem count_places (h : s.Sound) (op : Nat) :
    s.pendingOps.count op + s.held.count op + (s.callbacks.map Prod.fst).count op =
      if op ∈ s.accepted then 1 else 0 := by
  have hnodup : s.accepted.Nodup := (List.nodup_append.mp h.called.nodup).1
  rw [← List.Nodup.count hnodup, h.kept.count_eq, List.count_append, List.count_append]

end Sound

end OpQueue

/-- **No caller is left waiting**: when a caller is blocked, the oldest one is flagged or an
    operation is in flight; one waiter at most is flagged, and the waiters are flagged in the order
    in which they came.  Every call is accepted or blocked, and an accepted operation is pending,
    held by one finisher or called back once. -/
theorem no_caller_stranded {maxInflightOps : Nat} (hmax : 1 ≤ maxInflightOps)
    (finisherThreads : Nat) {s : OpQueue}
    (h : Lib.Reaches (OpQueue.step maxInflightOps) (OpQueue.init finisherThreads) s) :
    (∀ flag op, s.queueOpWaiters.getLast? = some (flag, op) → flag = true ∨ 0 < s.inflight) ∧
    s.numInflightOps = s.inflight % 2 ^ 32 ∧
    (s.queueOpWaiters.filter Prod.fst).length ≤ 1 ∧
    s.arrived = s.signalled ++ s.unflagged ∧
    (s.accepted ++ s.queueOpWaiters.map Prod.snd).Perm (List.range s.calls) ∧
    ∀ op, s.pendingOps.count op + s.held.count op + (s.callbacks.map Prod.fst).count op =
      if op ∈ s.accepted then 1 else 0 := by
  have hs : s.Sound := .reaches hmax h
  refine ⟨?_, hs.counter, hs.flagged_le_one, hs.order, hs.called, hs.count_places⟩
  intro flag op hlast
  exact hs.served (flag, op) hlast

/-- Two callers of a queue for one operation: the second is blocked, and flagged when the first
    operation is done. -/
theorem no_caller_stranded_two :
    (∃ s, Lib.Reaches (OpQueue.step 1) (OpQueue.init 1) s ∧
      s.queueOpWaiters.getLast? = some (true, 1) ∧ s.inflight = 0) ∧
    ∀ s, Lib.Reaches (OpQueue.step 1) (OpQueue.init 1) s →
      (s.queueOpWaiters.filter Prod.fst).length ≤ 1 := by
  constructor
  · exact ⟨_, Lib.run_of_exec [.call, .call, .take 0, .callback 0 (.ok ()), .finish 0] rfl, rfl, rfl⟩
  · intro s h
    exact (no_caller_stranded (le_refl 1) 1 h).2.2.1

namespace OpQueue

/-! ## The bound -/

/-- A signalled waiter that resumes finds a free slot.  The bound is void when it is the greatest
    value of the counter. -/
def FindsSlot (maxInflightOps : Nat) (s : OpQueue) : Action → Prop
  | .wake op => (true, op) ∈ s.queueOpWaiters →
      s.numInflightOps < maxInflightOps ∨ maxInflightOps = 2 ^ 32 - 1
  | _ => True

instance (maxInflightOps : Nat) (s : OpQueue) (a : Action) :
    Decidable (s.FindsSlot maxInflightOps a) := by
  cases a <;> unfold FindsSlot <;> infer_instance

variable {s s' : OpQueue} {maxInflightOps : Nat}

/-- A waiter has one flag. -/
theorem Sound.flag_unique (h : s.Sound) {op : Nat} {flag flag' : Bool}
    (hw : (flag, op) ∈ s.queueOpWaiters) (hw' : (flag', op) ∈ s.queueOpWaiters) : flag = flag' := by
  have hnodup : (s.queueOpWaiters.map Prod.snd).Nodup := (List.nodup_append.mp h.called.nodup).2.1
  exact congrArg Prod.fst (List.inj_on_of_nodup_map hnodup hw hw' rfl)

/-- A blocked caller that re-acquires the lock goes on waiting, or it was flagged and enters. -/
theorem Sound.wake_cases (h : s.Sound) {op : Nat}
    (hstep : s.step maxInflightOps (.wake op) = some s') :
    ((true, op) ∉ s.queueOpWaiters ∧ s' = s) ∨
    ((true, op) ∈ s.queueOpWaiters ∧ s'.numInflightOps = (s.numInflightOps + 1) % 2 ^ 32 ∧
      s.queueOpWaiters = s'.queueOpWaiters ++ [(true, op)]) := by
  simp only [OpQueue.step] at hstep
  split at hstep
  · cases hstep
  · next flag op' hfind =>
    have hop : op' = op := by simpa using List.find?_some hfind
    rw [hop] at hfind
    have hmem := List.mem_of_find?_eq_some hfind
    -- a waiter in the list has one flag
    cases flag with
    | false =>
      cases hstep
      refine Or.inl ⟨?_, rfl⟩
      intro hw
      cases h.flag_unique hmem hw
    | true =>
      cases hstep
      obtain ⟨l, hl, herase⟩ := h.flagged_last hfind
      refine Or.inr ⟨hmem, rfl, ?_⟩
      show s.queueOpWaiters = s.queueOpWaiters.eraseP _ ++ [(true, op)]
      rw [herase]
      exact hl

theorem signal_numInflightOps (s : OpQueue) : s.signal.numInflightOps = s.numInflightOps := by
  unfold signal
  split <;> rfl

/-- The other steps: a caller may take a free slot or join the waiters, and a finisher may free its
    slot and signal. -/
theorem step_cases {a : Action} (hstep : s.step maxInflightOps a = some s') :
    (∃ op, a = .wake op) ∨
    (a = .call ∧ s.numInflightOps < maxInflightOps ∧
      s'.numInflightOps = (s.numInflightOps + 1) % 2 ^ 32 ∧
      s'.queueOpWaiters = s.queueOpWaiters) ∨
    (∃ op, a = .call ∧ maxInflightOps ≤ s.numInflightOps ∧
      s'.numInflightOps = s.numInflightOps ∧
      s'.queueOpWaiters = (false, op) :: s.queueOpWaiters) ∨
    (∃ (i : Nat) (t : OpQueue), a = .finish i ∧ 0 < s.numInflightOps ∧ t.numInflightOps = s.numInflightOps - 1 ∧
      t.queueOpWaiters = s.queueOpWaiters ∧ s' = t.signal) ∨
    ((∀ op, a ≠ .wake op) ∧ a ≠ .call ∧ s'.numInflightOps = s.numInflightOps ∧
      s'.queueOpWaiters = s.queueOpWaiters) := by
  cases a with
  | wake op => exact Or.inl ⟨op, rfl⟩
  -- a call takes a slot or waits, by the test on the counter
  | call =>
    simp only [OpQueue.step] at hstep
    split at hstep
    · next hfull =>
      cases hstep
      exact Or.inr (Or.inr (Or.inl ⟨s.calls, rfl, hfull, rfl, rfl⟩))
    · next hfree =>
      cases hstep
      exact Or.inr (Or.inl ⟨rfl, Nat.lt_of_not_le hfree, rfl, rfl⟩)
  | take i =>
    simp only [OpQueue.step] at hstep
    split at hstep
    · split at hstep
      · split at hstep
        · cases hstep
          simp
        · cases hstep
      · cases hstep
        simp
    · cases hstep
  | callback i ret =>
    simp only [OpQueue.step] at hstep
    split at hstep
    · cases hstep
      simp
    · cases hstep
  | finish i =>
    simp only [OpQueue.step] at hstep
    split at hstep
    · split at hstep
      · cases hstep
      · -- a finisher gives a slot back
        next hpos =>
        cases hstep
        let t : OpQueue := { s with numInflightOps := s.numInflightOps - 1,
                                    finishers := s.finishers.set i .waiting }
        exact Or.inr (Or.inr (Or.inr (Or.inl ⟨i, t, rfl, Nat.pos_of_ne_zero hpos, rfl, rfl, rfl⟩)))
    · cases hstep
  | shutdown =>
    cases hstep
    simp

/-- A step keeps the bound exactly when a signalled waiter that resumes finds a slot. -/
theorem Sound.bounded_iff (h : s.Sound) (hmax : maxInflightOps < 2 ^ 32)
    (hle : s.numInflightOps ≤ maxInflightOps) {a : Action}
    (hstep : s.step maxInflightOps a = some s') :
    s'.numInflightOps ≤ maxInflightOps ↔ s.FindsSlot maxInflightOps a := by
  rcases step_cases hstep with ⟨op, rfl⟩ | ⟨rfl, hlt, hnum, -⟩ | ⟨op, rfl, -, hnum, -⟩ |
    ⟨i, t, rfl, hpos, hnum, -, rfl⟩ | ⟨hwake, -, hnum, -⟩
  · rcases h.wake_cases hstep with ⟨hnot, rfl⟩ | ⟨hmem, hnum, -⟩
    · exact ⟨fun _ hmem => absurd hmem hnot, fun _ => hle⟩
    · rw [hnum]
      constructor
      · intro hle' _
        -- at the bound the counter passes it, or wraps
        by_cases hlt : s.numInflightOps < maxInflightOps
        · exact Or.inl hlt
        · right
          omega
      · intro hslot
        rcases hslot hmem with hlt | heq
        · omega
        · omega
  · rw [hnum]
    exact ⟨fun _ => trivial, fun _ => by omega⟩
  · rw [hnum]
    exact ⟨fun _ => trivial, fun _ => hle⟩
  · rw [signal_numInflightOps, hnum]
    exact ⟨fun _ => trivial, fun _ => by omega⟩
  · rw [hnum]
    refine ⟨fun _ => ?_, fun _ => hle⟩
    cases a with
    | wake op => exact absurd rfl (hwake op)
    | _ => trivial

end OpQueue

/-- **The bound on the operations in flight** holds in every run in which the signalled waiters find
    a free slot when they resume, and the first step without one breaks it. -/
theorem inflight_bounded {maxInflightOps : Nat} (hpos : 1 ≤ maxInflightOps)
    (hmax : maxInflightOps < 2 ^ 32) (finisherThreads : Nat) :
    (∀ s, Lib.Run (OpQueue.step maxInflightOps) (OpQueue.FindsSlot maxInflightOps)
        (OpQueue.init finisherThreads) s → s.numInflightOps ≤ maxInflightOps) ∧
    ∀ s a s', Lib.Run (OpQueue.step maxInflightOps) (OpQueue.FindsSlot maxInflightOps)
        (OpQueue.init finisherThreads) s → s.step maxInflightOps a = some s' →
      (s'.numInflightOps ≤ maxInflightOps ↔ s.FindsSlot maxInflightOps a) := by
  -- a run under the condition is a run, so the invariant holds
  have hsound : ∀ s, Lib.Run (OpQueue.step maxInflightOps) (OpQueue.FindsSlot maxInflightOps)
      (OpQueue.init finisherThreads) s → s.Sound := by
    intro s h
    exact .reaches hpos (h.mono fun _ _ _ => trivial)
  have hbound : ∀ s, Lib.Run (OpQueue.step maxInflightOps) (OpQueue.FindsSlot maxInflightOps)
      (OpQueue.init finisherThreads) s → s.numInflightOps ≤ maxInflightOps := by
    intro s h
    -- the bound holds before the step, and the condition keeps it
    apply h.invariant_reaches _ (Nat.zero_le _)
    intro t a u hrun hle hok hstep
    exact ((hsound t hrun).bounded_iff hmax hle hstep).mpr hok
  refine ⟨hbound, ?_⟩
  intro s a s' h hstep
  exact (hsound s h).bounded_iff hmax (hbound s h) hstep

/-- A run of a queue for one operation in which the waiter finds its slot. -/
theorem inflight_bounded_one :
    ∃ s, Lib.Run (OpQueue.step 1) (OpQueue.FindsSlot 1) (OpQueue.init 1) s ∧
      s.accepted = [0, 1] ∧ s.numInflightOps ≤ 1 := by
  have hrun := @Lib.run_of_exec_guard _ _ (OpQueue.step 1) (OpQueue.FindsSlot 1) _
    (OpQueue.init 1) _ [.call, .call, .take 0, .callback 0 (.ok ()), .finish 0, .wake 1] rfl
  exact ⟨_, hrun, rfl, (inflight_bounded (le_refl 1) (by decide) 1).1 _ hrun⟩

/-- A caller that comes between the signal and the waiter takes its slot: two operations are in
    flight in a queue for one. -/
theorem inflight_exceeded :
    ∃ s, Lib.Reaches (OpQueue.step 1) (OpQueue.init 1) s ∧ ¬ s.numInflightOps ≤ 1 :=
  ⟨_, Lib.run_of_exec [.call, .call, .take 0, .callback 0 (.ok ()), .finish 0, .call, .wake 1] rfl,
    by decide⟩

end ZLog
