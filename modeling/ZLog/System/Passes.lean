import ZLog.System.Solo
import ZLog.System.Pending
import ZLog.System.TrimToEnds
import ZLog.Mapping.Convergence

/-!
# Waiting for a pass of the refresh thread

An operation on its own waits only for a view that is stored already: while no object is sealed
ahead of the views, an object that refuses an epoch knows of a later view.  One pass of the refresh
thread installs the latest view and wakes every waiter behind it.

## Main results

- `Solo.Live.rests`: the refresh thread ends the pass that it is in.
- `Solo.Ready.pass`: a pass installs the latest view.
- `Solo.Ready.waited`: the operation stops waiting.
-/

namespace ZLog

/-! ## The moves that operations share -/

section

variable {r : Request} {options : Options} {lb : LogBackend} {sh : Shared}

/-- Where `try_expand_view` takes its operation. -/
def OpPc.afterExpand (p : Nat) (pe : Option Nat) : Ret Unit → OpPc
  | .ok () => .start p pe
  | .error e => .done (.error e)

/-- Where `advance_min_valid_position` takes its operation. -/
def OpPc.afterAdvance (p : Nat) : Ret Unit → OpPc
  | .ok () => .start p none
  | .error e => .done (.error e)

/-- While an operation expands, it runs `try_expand_view`. -/
theorem Request.run_expand (hr : r ≠ .checkTail) (p : Nat) (pe : Option Nat) (pc : ExpandPc) :
    r.run options lb sh (.expand p pe pc) =
      Move.inside (.expand p pe) (OpPc.afterExpand p pe) (tryExpandView options lb p sh pc) := by
  have hafter : (fun x : Ret Unit => match x with
      | .ok () => OpPc.start p pe
      | .error e => .done (.error e)) = OpPc.afterExpand p pe := by
    funext x
    rcases x with e | x <;> rfl
  rw [← hafter]
  cases r with
  | checkTail => exact absurd rfl hr
  | _ => rfl

/-- While it waits, it runs `wait_for_newer_view`. -/
theorem Request.run_wait (hr : r ≠ .checkTail) (p : Nat) (pe : Option Nat) (wait : WaitPc) :
    r.run options lb sh (.wait p pe wait) =
      Move.inside (.wait p pe) (fun _ => .start p pe) (waitForNewerView sh wait) := by
  cases r with
  | checkTail => exact absurd rfl hr
  | _ => rfl

/-- While a `trimTo` advances the minimum, it runs `advance_min_valid_position`. -/
theorem Request.run_advance (q p : Nat) (pc : AdvancePc) :
    (Request.trimTo q).run options lb sh (.advance p pc) =
      Move.inside (.advance p) (OpPc.afterAdvance p)
        (advanceMinValidPosition lb (nextPosition p) sh pc) := by
  have hafter : (fun x : Ret Unit => match x with
      | .ok () => OpPc.start p none
      | .error e => .done (.error e)) = OpPc.afterAdvance p := by
    funext x
    rcases x with e | x <;> rfl
  rw [← hafter]
  rfl

end

/-- The operation has returned. -/
def Scene.Done (d : Scene OpPc) : Prop := ∃ result, d.pc = .done result

/-- The memory has the sequencers that it had, with the same counters. -/
def Shared.Sequels (sh sh' : Shared) : Prop :=
  ∀ (i : Nat) (q : Sequencer), sh.seqs[i]? = some q → sh'.seqs[i]? = some q

/-- Nothing has changed. -/
theorem Shared.Sequels.refl (sh : Shared) : sh.Sequels sh := fun _ _ hq => hq

/-- The list of sequencers is the same. -/
theorem Shared.Sequels.of_eq {sh sh' : Shared} (h : sh'.seqs = sh.seqs) : sh.Sequels sh' :=
  fun _ _ hq => h ▸ hq

/-- The sequencers stay over several steps. -/
theorem Shared.Sequels.trans {sh₁ sh₂ sh₃ : Shared} (h : sh₁.Sequels sh₂) (h' : sh₂.Sequels sh₃) :
    sh₁.Sequels sh₃ := fun i q hq => h' i q (h i q hq)

/-- The operation is not about to propose a map that ends past the last 64-bit position. -/
def OpPc.InRange : OpPc → Prop
  | .expand _ _ (.propose _ _ newView) => newView.objectMap.limit ≤ 2 ^ 64
  | _ => True

/-- The objects of a stripe are trimmed one after the other. -/
theorem OpPc.trimAll_inRange (v : VersionedView) (p k : Nat) (objects : List (String × Bool)) :
    (OpPc.trimAll v p k objects).InRange := by
  cases objects <;> trivial

namespace Solo

/-- A scene that an orderly world shows. -/
def Live (s : Solo) (u : Uuid) (name : String) (d : Scene OpPc) : Prop :=
  ∃ w cid tid, Orderly u name w ∧ s.caller.Shows cid tid w d

/-- What a live scene is like. -/
structure Facts (s : Solo) (u : Uuid) (name : String) (d : Scene OpPc) : Prop
    extends s.caller.Knows u name d where
  small : ∀ v ∈ viewsOf u d.backend, v.objectMap.Small
  view : ∃ v, d.shared.view = some v
  fits : s.options.Fits
  op : OpOk u d.backend s.request d.pc
  backed : d.pc.Backed d.shared
  visits : s.request.Visits d.pc
  exited : d.refresh = .exited → d.shared.readerShutdown = true
  running : ¬ d.Done → d.shared.managerShutdown = false ∧ d.shared.readerShutdown = false

/-- A step that computes no map past the last 64-bit position. -/
def InRange (s : Solo) (d : Scene OpPc) (turn : Turn) : Prop :=
  turn = .caller → ∀ p pe n, d.pc = .expand p pe (.start n) → ∀ v, d.shared.view = some v →
    v.view.ExpandsInRange p s.options

/-- Such a step that draws no position either. -/
def Undrawn (s : Solo) (d : Scene OpPc) (turn : Turn) : Prop :=
  s.InRange d turn ∧ ∀ d', s.caller.step d turn = some d' → d.shared.Sequels d'.shared

/-- Some steps of the two threads, with no draw, reach a scene with the property. -/
def Can (s : Solo) (P : Scene OpPc → Prop) (d : Scene OpPc) : Prop :=
  Lib.Can s.caller.step s.Undrawn P d

section

variable {s : Solo} {u : Uuid} {name : String} {d d' : Scene OpPc} {turn : Turn}
  {P Q : Scene OpPc → Prop}

/-! ## Steps -/

/-- A step of the operation or of the refresh thread keeps the scene alive. -/
theorem Live.step (h : s.Live u name d) (hs : s.caller.step d turn = some d') :
    s.Live u name d' := by
  obtain ⟨w, cid, tid, horderly, hshows⟩ := h
  obtain ⟨w', hstep, hshows'⟩ := hshows.step hs
  exact ⟨w', cid, tid, horderly.step (a := .run cid (turn.thread tid)) trivial hstep, hshows'⟩

/-- So does a run. -/
theorem Live.run {ok : Scene OpPc → Turn → Prop} (h : s.Live u name d)
    (hrun : Lib.Run s.caller.step ok d d') : s.Live u name d' :=
  hrun.invariant (fun _ _ _ hlive _ hs => hlive.step hs) h

/-- What is known in a live scene. -/
theorem Live.facts (h : s.Live u name d) : s.Facts u name d := by
  obtain ⟨w, cid, tid, horderly, -, hb, c, hc, hshown⟩ := h
  obtain ⟨t, ht, hpc⟩ := hshown.caller
  obtain ⟨t', ht', hpc'⟩ := hshown.refresh
  have hpc : t.pc = .op s.request d.pc := hpc
  have hcmem := List.mem_of_getElem? hc
  have htmem := List.mem_of_getElem? ht
  have htmem' := List.mem_of_getElem? ht'
  have hclient := horderly.clients c hcmem
  have hsane := horderly.unfailing.clients c hcmem
  have htended := horderly.tended c hcmem
  have hshared := hshown.shared
  have hop := hclient.threads t htmem
  have hrefresh := hclient.threads t' htmem'
  have hbacked := hsane.backed t htmem
  rw [hpc] at hop hbacked
  rw [hpc'] at hrefresh
  have hoptions : c.options = s.options := congrArg Setting.options hshown.setting
  refine ⟨⟨?_, ?_, ?_, hshown.handle, ?_, hb ▸ hrefresh⟩, hb ▸ horderly.unfailing.views, ?_, ?_,
    hb ▸ hop, hshared ▸ hbacked.2, htended.visits t htmem _ _ hpc, ?_, ?_⟩
  · exact hb ▸ horderly.log
  · exact hb ▸ hshared ▸ hclient.shared
  · exact hb ▸ hshared ▸ horderly.sequencers.seqs c hcmem
  · refine hshared ▸ htended.started ?_
    rw [hshared, hshown.handle]
    simp
  · exact Option.ne_none_iff_exists'.mp (hshared ▸ hsane.viewed hbacked.1)
  · exact hoptions ▸ hsane.fits
  · intro hexited
    exact hshared ▸ htended.exited t' htmem' (hexited ▸ hpc')
  · intro hrun
    have hrunning : t.Running := ⟨_, _, hpc, fun result heq => hrun ⟨result, heq⟩⟩
    have hlife := horderly.life c hcmem
    refine ⟨hshared ▸ hlife.shutdown_false htmem hrunning, ?_⟩
    -- the reader is shut down by an opening thread that is past the operations
    obtain ⟨t₀, pc₀, ht₀, hpc₀, hopened, -⟩ := hlife.opener
    have hdown := horderly.reader c hcmem t₀ (List.mem_of_getElem? ht₀) pc₀ hpc₀
    rw [hopened ⟨t, htmem, hrunning⟩] at hdown
    exact hshared ▸ Bool.eq_false_iff.mpr hdown

/-- The client holds a stored view. -/
theorem Facts.held (h : s.Facts u name d) {v : VersionedView} (hv : d.shared.view = some v) :
    Held u d.backend v := h.shared.view v hv

/-- The handle is one of this log. -/
theorem Facts.handleOk (h : s.Facts u name d) : HandleOk u s.lb := h.shared.backend s.lb h.handle

/-- Neither of the two threads opens the log. -/
theorem not_opener {w : World} {cid tid : Nat} {c : Client} {t : Thread}
    (h : s.caller.Shows cid tid w d) (hc : w.clients[cid]? = some c)
    (ht : c.threads[turn.thread tid]? = some t) (pc : OpenPc) : t.pc ≠ .opener pc := by
  obtain ⟨-, -, c', hc', hshown⟩ := h
  rw [hc] at hc'
  cases hc'
  intro hpc
  -- both threads are known by their place in the client
  cases turn with
  | caller =>
    obtain ⟨t₁, ht₁, hpc₁⟩ := hshown.caller
    rw [show c.threads[tid]? = some t from ht] at ht₁
    cases ht₁
    cases hpc.symm.trans hpc₁
  | refresh =>
    obtain ⟨t₁, ht₁, hpc₁⟩ := hshown.refresh
    rw [show c.threads[1]? = some t from ht] at ht₁
    cases ht₁
    cases hpc.symm.trans hpc₁

/-- **Step lemma.**  The two threads seal objects only for epochs that are stored. -/
theorem Live.calm_step (h : s.Live u name d) (hcalm : Calm u d.backend)
    (hs : s.caller.step d turn = some d') : Calm u d'.backend := by
  obtain ⟨w, cid, tid, horderly, hshows⟩ := h
  obtain ⟨w', hstep, hshows'⟩ := hshows.step hs
  have hgrows := (horderly.toInv.step hstep).2.grows
  -- the backend has not changed, or one of the two threads has called it
  rw [← hshows.backend] at hcalm
  rw [← hshows'.backend]
  rcases horderly.toInv.backend_step hstep with heq | ⟨_, _, c, t, α, call, next, ha, hc, ht, hm,
    hcall, hpcok, heq⟩
  · rw [heq]
    exact hcalm
  · cases ha
    intro k i
    have hle := hcall.objectEpoch_le horderly.log k i
    rw [← heq] at hle
    -- no sealing for a newer epoch: only an opener does that
    have hseal : call.sealEpoch ≤ latestEpoch u w.backend := by
      rcases Pc.move_sealEpoch hpcok _ call next hm with hle' | ⟨ppc, hpc, -⟩
      · exact hle'
      · exact absurd hpc (not_opener hshows hc ht _)
    have hlatest := hgrows.latest_le
    have hold := hcalm k i
    omega

/-- A step of the operation is one of those that `OpStep` lists. -/
theorem Facts.op_step (h : s.Facts u name d) (hs : s.caller.step d .caller = some d') :
    OpStep u d.backend d.shared s.request d'.backend d'.pc := by
  have hsafe : Safe u name d.backend (OpStep u d.backend d.shared s.request)
      (s.request.run s.options s.lb d.shared d.pc) :=
    Request.run_safe h.log h.shared h.handleOk h.op
  simp only [Caller.step, caller_run] at hs
  split at hs
  · next hm =>
    cases hs
    rw [hm] at hsafe
    exact hsafe.2
  · next hm =>
    cases hs
    rw [hm] at hsafe
    exact hsafe.2
  · cases hs

/-- **Step lemma.**  Only `trimTo` changes the log before its last step. -/
theorem Live.still_step (h : s.Live u name d) (hr : ∀ p, s.request ≠ .trimTo p)
    (hs : s.caller.step d turn = some d') (hrun : ¬ d'.Done) : SameContent d.backend d'.backend := by
  cases turn with
  | caller => exact (h.facts.op_step hs).still hr fun result heq => hrun ⟨result, heq⟩
  | refresh =>
    rw [(Caller.step_refresh hs).1]
    exact .refl _

/-! ## Runs without draws -/

/-- The refresh thread draws nothing. -/
theorem sequels_refresh (hs : s.caller.step d .refresh = some d') :
    d.shared.Sequels d'.shared := by
  simp only [Caller.step] at hs
  split at hs
  · cases hs
    exact .refl _
  · next sh pc hm =>
    cases hs
    rcases refreshEntry_memory hm with hquiet | ⟨epoch, blob, -, hi⟩
    · exact .of_eq hquiet.seqs
    · obtain ⟨view, seqs, seq, -, hat, rfl⟩ := hi.view
      rcases attachSequencer_cases hat with ⟨rfl, -⟩ | ⟨_, _, _, _, -, -, -, -, -, -, rfl, -⟩ |
        ⟨_, -, -, rfl, -⟩
      · exact .refl _
      · exact .refl _
      · -- a new sequencer goes behind the ones that are there
        exact fun j q hq => (List.getElem?_append_left (lt_of_getElem?_eq_some hq)).trans hq
  · cases hs

/-- The refresh thread draws nothing. -/
theorem undrawn_refresh (s : Solo) (d : Scene OpPc) : s.Undrawn d .refresh :=
  ⟨by rintro ⟨⟩, fun _ hs => sequels_refresh hs⟩

/-- A backend call computes no map. -/
theorem inRange_call {α : Type} {call : Call Fbs.View α} {next : α → OpPc}
    (hm : s.request.run s.options s.lb d.shared d.pc = some (.backend call next)) :
    s.InRange d .caller := by
  rintro - p pe n hpc v hv
  rw [hpc] at hm
  by_cases hr : s.request = .checkTail
  · rw [hr] at hm
    cases hm
  · rw [Request.run_expand hr] at hm
    simp only [tryExpandView, Shared.withView, hv] at hm
    split at hm <;> cases hm

/-- An access computes the map that it is about to propose. -/
theorem inRange_access {sh : Shared} {pc : OpPc}
    (hm : s.request.run s.options s.lb d.shared d.pc = some (.memory sh pc)) (hpc : pc.InRange) :
    s.InRange d .caller := by
  -- only `try_expand_view` asks for an expansion
  rintro - p pe n hop v hv newView hnew
  rw [hop] at hm
  by_cases hr : s.request = .checkTail
  · rw [hr] at hm
    cases hm
  · rw [Request.run_expand hr] at hm
    simp only [tryExpandView, Shared.withView, hv] at hm
    cases hexp : v.view.expandMapping p s.options with
    | error f =>
      rw [hexp] at hm
      cases hm
    | ok proposal =>
      rw [hexp] at hm hnew
      cases proposal with
      | none => cases hnew
      | some view =>
        cases hnew
        cases hm
        exact hpc

/-- Already there. -/
theorem Can.here (h : P d) : s.Can P d := Lib.Can.here h

/-- Going on from there. -/
theorem Can.bind (h : s.Can P d) (hQ : ∀ d', P d' → s.Can Q d') : s.Can Q d := Lib.Can.bind h hQ

/-- Going there, seen as less. -/
theorem Can.imp (h : s.Can P d) (himp : ∀ d', P d' → Q d') : s.Can Q d := Lib.Can.imp h himp

/-- The refresh thread takes the scene there. -/
theorem Can.of_refreshes (hrun : s.caller.Refreshes d d') (hP : P d') : s.Can P d := by
  refine ⟨d', hrun.mono ?_, hP⟩
  rintro d turn rfl
  exact s.undrawn_refresh d

/-- What a run without draws keeps. -/
theorem Can.sequels (h : s.Can P d) : s.Can (fun d' => P d' ∧ d.shared.Sequels d'.shared) d := by
  obtain ⟨d', hrun, hP⟩ := h
  have hseqs : d.shared.Sequels d'.shared := by
    clear hP
    induction hrun with
    | refl => exact .refl _
    | tail _ hok hs ih => exact ih.trans (hok.2 _ hs)
  exact ⟨d', hrun, hP, hseqs⟩

/-! ## The refresh thread -/

/-- The refresh thread is between two passes, and no object is sealed ahead of the views. -/
structure Ready (s : Solo) (u : Uuid) (name : String) (d : Scene OpPc) : Prop where
  live : s.Live u name d
  calm : Calm u d.backend
  idle : d.refresh = .idle

/-- One access of the operation to the memory, which is no draw. -/
theorem Ready.access (h : s.Ready u name d) {sh : Shared} {pc : OpPc}
    (hm : s.request.run s.options s.lb d.shared d.pc = some (.memory sh pc))
    (hP : s.Ready u name { d with shared := sh, pc := pc } →
      s.Can P { d with shared := sh, pc := pc })
    (hseqs : sh.seqs = d.shared.seqs := by rfl) (hpc : pc.InRange := by trivial) : s.Can P d := by
  have hs : s.caller.step d .caller = some { d with shared := sh, pc := pc } := by
    simp only [Caller.step, caller_run, hm]
  refine .next ⟨inRange_access hm hpc, fun d' hs' => ?_⟩ hs (hP ⟨h.live.step hs, h.calm, h.idle⟩)
  rw [hs] at hs'
  cases hs'
  exact .of_eq hseqs

/-- One backend call of the operation. -/
theorem Ready.call (h : s.Ready u name d) {α : Type} {call : Call Fbs.View α} {next : α → OpPc}
    {r : α} {b : Store} (hm : s.request.run s.options s.lb d.shared d.pc = some (.backend call next))
    (hexec : d.backend.exec call = (r, b))
    (hP : s.Ready u name { d with backend := b, pc := next r } →
      s.Can P { d with backend := b, pc := next r }) : s.Can P d := by
  have hs : s.caller.step d .caller = some { d with backend := b, pc := next r } := by
    simp only [Caller.step, caller_run, hm, hexec]
  refine .next ⟨inRange_call hm, fun d' hs' => ?_⟩ hs
    (hP ⟨h.live.step hs, h.live.calm_step h.calm hs, h.idle⟩)
  rw [hs] at hs'
  cases hs'
  exact .refl _

/-- The refresh thread ends the pass that it is in. -/
theorem Live.rests (h : s.Live u name d) (hrun : ¬ d.Done)
    (hlive : ¬ Dies d.shared (.refresh d.refresh)) :
    s.Can (fun d' => s.Live u name d' ∧ d'.refresh = .idle ∧ d'.pc = d.pc ∧
      d'.backend = d.backend) d := by
  have hopen : d.refresh ≠ .exited := by
    intro hpc
    -- only a closed log has no refresh thread
    have hdown := h.facts.exited hpc
    rw [(h.facts.running hrun).2] at hdown
    cases hdown
  obtain ⟨d', hrun', hidle, hpc, hb⟩ := h.facts.rests hopen hlive
  exact .of_refreshes hrun' ⟨h.run hrun', hidle, hpc, hb⟩

/-- A pass installs the latest view and wakes every waiter behind it. -/
theorem Ready.pass (h : s.Ready u name d) (hrun : ¬ d.Done) :
    s.Can (fun d' => s.Ready u name d' ∧ d'.pc = d.pc ∧ d'.backend = d.backend ∧ d'.Fresh u ∧
      ∀ waiter ∈ d'.shared.refreshWaiters, latestEpoch u d'.backend ≤ waiter.epoch) d := by
  obtain ⟨d', hrun', hidle, hpc, hb, hfresh, hwaiters⟩ :=
    h.live.facts.pass h.idle (h.live.facts.running hrun).2
  refine .of_refreshes hrun' ⟨⟨h.live.run hrun', ?_, hidle⟩, hpc, hb, hfresh, hwaiters⟩
  rw [hb]
  exact h.calm

/-! ## Waiting -/

/-- The operation waits for a newer view in the control states `K`, and goes on at `next`. -/
structure Waits (s : Solo) (K : WaitPc → OpPc) (next : OpPc) : Prop where
  wait : ∀ pc, (K pc).wait? = some pc
  run : s.caller.Waits K next

variable {K : WaitPc → OpPc} {next : OpPc} {pc : WaitPc}

/-- A wait is not the end. -/
theorem Waits.not_done (hK : s.Waits K next) (hop : d.pc = K pc) : ¬ d.Done := by
  rintro ⟨result, hdone⟩
  have hwait := hK.wait pc
  rw [← hop, hdone] at hwait
  cases hwait

/-- An operation that waits draws nothing and expands nothing. -/
theorem Waits.undrawn (hK : s.Waits K next) (hop : d.pc = K pc) (turn : Turn) :
    s.Undrawn d turn := by
  have hwait := hK.wait pc
  rw [← hop] at hwait
  cases turn with
  | refresh => exact s.undrawn_refresh d
  | caller =>
    -- the wait itself is no state that draws
    refine ⟨?_, fun d' hs => ?_⟩
    · rintro - p pe n hpc
      rw [hpc] at hwait
      cases hwait
    · -- its steps leave the sequencers alone
      simp only [Caller.step, caller_run] at hs
      split at hs
      · cases hs
        exact .refl _
      · next hm =>
        cases hs
        rcases Request.run_memory hm with hquiet | ⟨_, v, i, _, -, hpc, -⟩
        · exact .of_eq hquiet.seqs
        · rw [hpc] at hwait
          cases hwait
      · cases hs

/-- The newer view is stored already. -/
theorem Ready.behind (h : s.Ready u name d) (hK : s.Waits K next) (hop : d.pc = K pc) :
    pc.epoch < latestEpoch u d.backend := by
  have hwait := hK.wait pc
  rw [← hop] at hwait
  rcases h.live.facts.op.behind hwait with hlt | ⟨k, i, hlt⟩
  · exact hlt
  · exact Nat.lt_of_lt_of_le hlt (h.calm k i)

/-- Steps that draw nothing keep a scene live, and its backend without an object that is ahead. -/
theorem sustains (s : Solo) (u : Uuid) (name : String) : s.caller.Sustains u name s.Undrawn
    (fun d => s.Live u name d ∧ Calm u d.backend) where
  step h _ hs := ⟨h.1.step hs, h.1.calm_step h.2 hs⟩
  knows h := h.1.facts.toKnows

/-- **Waiting ends**, with the latest view in the memory. -/
theorem Ready.waited (h : s.Ready u name d) (hK : s.Waits K next) (hop : d.pc = K pc) :
    s.Can (fun d' => s.Ready u name d' ∧ d'.pc = next ∧ d'.backend = d.backend ∧ d'.Fresh u) d := by
  have hends := hK.run.ends (s.sustains u name) ⟨h.live, h.calm⟩ h.idle hop (h.behind hK hop)
    (fun d pc h₁ hop₁ => (h₁.1.facts.running (hK.not_done hop₁)).2)
    (fun d pc turn _ hop₁ => hK.undrawn hop₁ turn)
  refine hends.imp ?_
  rintro d' ⟨⟨hlive, hcalm⟩, hidle, hop', hb', hfresh⟩
  exact ⟨⟨hlive, hcalm, hidle⟩, hop', hb', hfresh⟩

end

end Solo

end ZLog
