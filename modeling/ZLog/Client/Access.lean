import ZLog.Client.Waits

/-!
# Accesses to the shared memory

A thread accesses the memory of its client in a handful of ways (`Access`).  The flags that say
what was started, shut down and joined are set by a few of them only and are never reset.

## Main results

- `Pc.move_access`: every access of every thread is one of these.
- `Access.keeps`: flags stay set, and after its shutdown the view reader has no new waiters.
-/

namespace ZLog

/-- A caller of `wait_for_newer_view` joins the waiters, or nothing happens. -/
inductive Waited (sh : Shared) : Shared → Prop where
  | same : Waited sh sh
  | joined (epoch : Nat) : sh.readerShutdown = false →
      Waited sh { sh with refreshWaiters := sh.refreshWaiters ++ [⟨sh.nextWaiter, epoch⟩],
                          nextWaiter := sh.nextWaiter + 1 }

/-- What one access does to the memory while the log is open. -/
inductive Work (sh : Shared) : Shared → Prop where
  | wait {sh' : Shared} : Waited sh sh' → Work sh sh'
  | expand (position : Option Nat) : Work sh { sh with expandPos := position }
  | stripeInit (positions : List Nat) : Work sh { sh with stripeInitPos := positions }
  | draw (seqs : List Sequencer) : Work sh { sh with seqs := seqs }
  | install (seqs : List Sequencer) (v : VersionedView) :
      Work sh { sh with seqs := seqs, view := some v }
  | release (p : RefreshWaiter → Bool) :
      Work sh { sh with refreshWaiters := sh.refreshWaiters.filter p }
  | exitRefresh : sh.readerShutdown = true →
      Work sh { sh with refreshWaiters := [], refreshExited := true }
  | exitExpander : Work sh { sh with expanderExited := true }
  | exitStripeInit : Work sh { sh with stripeInitExited := true }

/-- What one access does to the memory; the last four are for the thread that opens the log. -/
inductive Access (sh : Shared) : Shared → Prop where
  | work {sh' : Shared} : Work sh sh' → Access sh sh'
  | build (lb : LogBackend) : Access sh { sh with backend := some lb, readerStarted := true }
  | startManager : Access sh { sh with managerStarted := true }
  | shutdownManager : Access sh { sh with managerShutdown := true }
  | shutdownReader : Access sh { sh with readerShutdown := true }

section

variable {σ τ ρ : Type} {sh sh' : Shared} {options : Options} {lb : LogBackend}

/-- Most accesses read only. -/
theorem Work.same : Work sh sh := .wait .same

/-- Reading is an access as well. -/
theorem Access.same : Access sh sh := .work .same

/-! ## Flags -/

/-- Flags stay set; the refresh thread exits after the shutdown, and leaves no waiter behind. -/
structure Keeps (sh sh' : Shared) : Prop where
  managerShutdown : sh.managerShutdown = true → sh'.managerShutdown = true
  readerShutdown : sh.readerShutdown = true → sh'.readerShutdown = true
  expanderExited : sh.expanderExited = true → sh'.expanderExited = true
  stripeInitExited : sh.stripeInitExited = true → sh'.stripeInitExited = true
  refreshExited : sh.refreshExited = true → sh'.refreshExited = true
  waiters : (sh.refreshExited = true → sh.readerShutdown = true ∧ sh.refreshWaiters = []) →
    sh'.refreshExited = true → sh'.readerShutdown = true ∧ sh'.refreshWaiters = []

/-- Working threads set the flags of their own exits and no others. -/
theorem Work.keeps (h : Work sh sh') : Keeps sh sh' := by
  cases h with
  | wait hw =>
    cases hw with
    | same => exact ⟨id, id, id, id, id, id⟩
    | joined epoch hs =>
      refine ⟨id, id, id, id, id, fun hold hx => ?_⟩
      rw [(hold hx).1] at hs
      cases hs
  -- a list without waiters stays one when some are released
  | release p =>
    refine ⟨id, id, id, id, id, fun hold hx => ⟨(hold hx).1, ?_⟩⟩
    show List.filter p _ = []
    rw [(hold hx).2]
    rfl
  | exitRefresh hs => exact ⟨id, id, id, id, fun _ => rfl, fun _ _ => ⟨hs, rfl⟩⟩
  | exitExpander => exact ⟨id, id, fun _ => rfl, id, id, id⟩
  | exitStripeInit => exact ⟨id, id, id, fun _ => rfl, id, id⟩
  | expand => exact ⟨id, id, id, id, id, id⟩
  | stripeInit => exact ⟨id, id, id, id, id, id⟩
  | draw => exact ⟨id, id, id, id, id, id⟩
  | install => exact ⟨id, id, id, id, id, id⟩

/-- No access resets a flag. -/
theorem Access.keeps (h : Access sh sh') : Keeps sh sh' := by
  cases h with
  | work hw => exact hw.keeps
  | shutdownManager => exact ⟨fun _ => rfl, id, id, id, id, id⟩
  -- the waiters of a thread that exited were released before
  | shutdownReader => exact ⟨id, fun _ => rfl, id, id, id, fun hold hx => ⟨rfl, (hold hx).2⟩⟩
  | build => exact ⟨id, id, id, id, id, id⟩
  | startManager => exact ⟨id, id, id, id, id, id⟩

/-- Only the thread that opened the log shuts the view reader down. -/
theorem Work.readerShutdown (h : Work sh sh') : sh'.readerShutdown = sh.readerShutdown := by
  cases h with
  | wait hw => cases hw <;> rfl
  | _ => rfl

/-! ## The functions of the view manager -/

/-- `wait_for_newer_view` joins the waiters unless the view reader was shut down. -/
theorem waitForNewerView_access (pc : WaitPc) :
    Lands sh (fun sh' _ => Waited sh sh') (waitForNewerView sh pc) := by
  cases pc with
  | enter epoch =>
    simp only [waitForNewerView]
    split
    · exact .same
    · next hs => exact .joined epoch (by simpa using hs)
  -- a waiter that was released returns; the others have no step
  | blocked waiter =>
    simp only [waitForNewerView]
    split
    · trivial
    · exact .same

/-- A called function accesses the memory for its caller. -/
theorem Lands.called {P : Shared → Prop} {goto : σ → τ} {ret : ρ → τ}
    {m : Option (Move (Next σ ρ))} (h : Lands sh (fun sh' _ => P sh') m) :
    Lands sh (fun sh' _ => P sh') (Move.inside goto ret m) := Lands.inside h

/-- Waiting is part of the work. -/
theorem Lands.waiting {m : Option (Move σ)} (h : Lands sh (fun sh' _ => Waited sh sh') m) :
    Lands sh (fun sh' _ => Work sh sh') m := h.imp fun _ _ => .wait

/-- `propose_sequencer` reads the view, and waits. -/
theorem proposeSequencer_access (pc : ProposePc) :
    Lands sh (fun sh' _ => Waited sh sh') (proposeSequencer lb sh pc) := by
  cases pc with
  | start retries => exact Lands.withView fun curr _ => .same
  | waitNew wait => exact (waitForNewerView_access wait).called
  | waitStale retries curr wait => exact (waitForNewerView_access wait).called
  | check retries curr => exact Lands.withView fun updated _ => .same
  | crash => trivial
  -- the backend calls
  | _ => exact fun r => .same

/-- `try_expand_view` waits, and queues the new stripe for its initialization. -/
theorem tryExpandView_access {position : Nat} (pc : ExpandPc) :
    Lands sh (fun sh' _ => Work sh sh') (tryExpandView options lb position sh pc) := by
  cases pc with
  | start retries =>
    refine Lands.withView fun curr _ => ?_
    split
    · trivial
    · exact .same
    · exact .same
  | propose retries curr newView => exact fun r => .same
  | waitNew wait => exact (waitForNewerView_access wait).called.waiting
  | initStripe => exact .stripeInit _
  | waitStale retries wait => exact (waitForNewerView_access wait).called.waiting
  | checkShutdown retries => exact .same

theorem advanceMinValidPosition_access {position : Nat} (pc : AdvancePc) :
    Lands sh (fun sh' _ => Work sh sh') (advanceMinValidPosition lb position sh pc) := by
  cases pc with
  | start =>
    refine Lands.withView fun curr _ => ?_
    split
    · exact .same
    · exact .same
  | propose curr newView => exact fun r => .same
  | wait wait => exact (waitForNewerView_access wait).called.waiting

/-- The expander resets the position it served, and may exit. -/
theorem expanderEntry_access (pc : ExpanderPc) :
    Lands sh (fun sh' _ => Work sh sh') (expanderEntry options lb sh pc) := by
  cases pc with
  | idle =>
    simp only [expanderEntry]
    split
    · trivial
    · split
      · exact .exitExpander
      · split
        · trivial
        · exact .same
  | check position =>
    refine Lands.withView fun v _ => ?_
    split
    · trivial
    · exact .same
    · exact .same
  | expand position pc => exact (tryExpandView_access pc).called
  | clear position =>
    simp only [expanderEntry]
    split
    · trivial
    · split
      · exact .same
      · exact .expand none
  | exited => trivial

/-- The stripe initializer takes positions from its queue, and may exit. -/
theorem stripeInitEntry_access (pc : StripeInitPc) :
    Lands sh (fun sh' _ => Work sh sh') (stripeInitEntry lb sh pc) := by
  cases pc with
  | idle =>
    simp only [stripeInitEntry]
    split
    · trivial
    · split
      · exact .exitStripeInit
      · split
        · trivial
        · exact .stripeInit _
  | view position =>
    refine Lands.withView fun v _ => ?_
    split
    · trivial
    · exact .same
    · exact .same
  | «seal» epoch oid rest => exact fun r => .same
  | exited => trivial

/-! ## Reading views, opening and closing -/

/-- A view is installed, or the current one stays. -/
theorem installMove_access {epoch : Nat} {blob : Fbs.View} {next : σ} :
    Lands sh (fun sh' s => s = next ∧ (sh' = sh ∧ sh.view ≠ none ∨
      ∃ seqs v, sh' = { sh with seqs := seqs, view := some v }))
      (some (installMove lb sh epoch blob next)) := by
  cases hm : installMove lb sh epoch blob next with
  -- installing a view makes no call
  | backend call k =>
    unfold installMove at hm
    split at hm
    · cases hm
    · split at hm <;> cases hm
  | memory sh' s =>
    obtain ⟨rfl, hcases⟩ := installMove_cases hm
    refine ⟨rfl, ?_⟩
    rcases hcases with rfl | hi
    · left
      refine ⟨rfl, fun hnone => ?_⟩
      -- without a view, the one that was read would have been installed
      unfold installMove at hm
      split at hm
      · cases hm
      · next view _ =>
        simp only [installView, hnone] at hm
        split at hm
        · cases hm
        · next seqs seq hat =>
          split at hat
          · cases hat
          · cases hat
            have hview := congrArg Shared.view (Move.memory.inj hm).1
            simp only [hnone] at hview
            cases hview
    · obtain ⟨_, _, _, -, -, rfl⟩ := hi.view
      exact Or.inr ⟨_, _, rfl⟩
  | abort => trivial

/-- The refresh thread installs views and releases waiters, and may exit after the shutdown. -/
theorem refreshEntry_access (pc : RefreshPc) :
    Lands sh (fun sh' _ => Work sh sh') (refreshEntry lb sh pc) := by
  cases pc with
  | idle =>
    simp only [refreshEntry]
    split
    · trivial
    · split
      · next hs => exact .exitRefresh hs
      · exact .same
  | fetch => exact fun r => .same
  | install epoch blob =>
    refine installMove_access.imp ?_
    rintro sh' s ⟨-, ⟨rfl, -⟩ | ⟨seqs, v, rfl⟩⟩
    · exact .same
    · exact .install seqs v
  | readView =>
    simp only [refreshEntry]
    split
    · exact .same
    · exact .same
  | mark epoch => exact .release _
  | exited => trivial

/-- The opening thread does all the rest: it builds the client, opens it for work and shuts it down.
    -/
theorem openEntry_access {name host : String} {created : Bool} (pc : OpenPc) :
    Lands sh (fun sh' _ => Access sh sh') (openEntry name host options created sh pc) := by
  cases pc with
  | openLog => exact fun r => .same
  | uniqueId hoid pfx => exact fun r => .same
  | construct hoid pfx id => exact .build _
  | fetch =>
    simp only [openEntry]
    split
    · trivial
    · exact fun r => .same
  | install epoch blob =>
    simp only [openEntry]
    split
    · trivial
    · refine installMove_access.imp ?_
      rintro sh' s ⟨-, ⟨rfl, -⟩ | ⟨seqs, v, rfl⟩⟩
      · exact .same
      · exact .work (.install seqs v)
  | checkView =>
    simp only [openEntry]
    split
    · exact .shutdownReader
    · exact .startManager
  | propose pc =>
    simp only [openEntry]
    split
    · trivial
    · exact (proposeSequencer_access pc).called.waiting.imp fun _ _ => .work
  | checkStripes => exact Lands.withView fun v _ => .same
  | initStripe => exact .work (.stripeInit _)
  | shutdownManager => exact .shutdownManager
  | shutdownReader => exact .shutdownReader
  | join =>
    simp only [openEntry]
    split
    · exact .same
    · trivial
  | _ => trivial

/-- The view reader may be shut down. -/
def OpenPc.ReaderDown : OpenPc → Prop
  | .join => True
  | .closed => True
  | .failed _ => True
  | _ => False

/-- The view reader is shut down when the log is being closed, or could not be opened. -/
theorem openEntry_reader {name host : String} {created : Bool} (pc : OpenPc)
    (h : sh.readerShutdown = true → pc.ReaderDown) :
    Lands sh (fun sh' pc' => sh'.readerShutdown = true → pc'.ReaderDown)
      (openEntry name host options created sh pc) := by
  cases pc with
  | openLog => exact fun r hs => (h hs).elim
  | uniqueId hoid pfx => exact fun r hs => (h hs).elim
  | construct hoid pfx id => exact fun hs => (h hs).elim
  | fetch =>
    simp only [openEntry]
    split
    · trivial
    · exact fun r hs => (h hs).elim
  -- a view reader that is not down yet: only the failure branch of `checkView` shuts it down
  | install epoch blob =>
    simp only [openEntry]
    split
    · trivial
    · refine installMove_access.imp ?_
      rintro sh' s ⟨-, ⟨rfl, -⟩ | ⟨seqs, v, rfl⟩⟩
      · exact fun hs => (h hs).elim
      · exact fun hs => (h hs).elim
  | checkView =>
    simp only [openEntry]
    split
    · exact fun _ => trivial
    · exact fun hs => (h hs).elim
  | propose pc =>
    simp only [openEntry]
    split
    · trivial
    · -- waiting leaves the flag alone
      refine ((proposeSequencer_access pc).called).imp fun sh' s hw hs => ?_
      rw [(Work.wait hw).readerShutdown] at hs
      exact (h hs).elim
  | checkStripes => exact Lands.withView fun v _ hs => (h hs).elim
  | initStripe => exact fun hs => (h hs).elim
  | shutdownManager => exact fun hs => (h hs).elim
  | shutdownReader => exact fun _ => trivial
  | join =>
    simp only [openEntry]
    split
    · exact fun _ => trivial
    · trivial
  | _ => trivial

/-! ## Operations -/

/-- The mapping of a position adds nothing to the access before it. -/
theorem mapPosition_access {v : VersionedView} {p : Nat} {pe : Option Nat} (h : Work sh sh') :
    Lands sh (fun sh' _ => Work sh sh') (some (mapPosition sh' v p pe)) :=
  lands_mapPosition h (fun _ => h) (fun _ => h)

/-- The common moves of the operations. -/
theorem commonMove_access (pc : OpPc) :
    Lands sh (fun sh' _ => Work sh sh') (commonMove options lb sh pc) := by
  cases pc with
  | scheduleExpand v oid p pe =>
    -- the expander's position is set or raised
    show Work sh (asyncExpandView sh _)
    unfold asyncExpandView
    split
    · exact .expand _
    · split
      · exact .expand _
      · exact .same
  | expand p pe pc => exact (tryExpandView_access pc).called
  | wait p pe wait => exact (waitForNewerView_access wait).called.waiting
  | _ => trivial

theorem positionOp_access {α : Type} {call : String → Nat → Nat → Call Fbs.View (Ret α)}
    {finish : Ret α → Ret Reply} (pc : OpPc) :
    Lands sh (fun sh' _ => Work sh sh') (positionOp call finish options lb sh pc) := by
  unfold positionOp
  split
  · exact Lands.withView fun v _ => mapPosition_access .same
  · exact fun r => .same
  · exact fun r => .same
  · exact commonMove_access _

/-- An append draws positions from its sequencer. -/
theorem appendOp_access {data : String} (pc : OpPc) :
    Lands sh (fun sh' _ => Work sh sh') (appendOp data options lb sh pc) := by
  unfold appendOp
  split
  · refine Lands.withView fun v _ => ?_
    split
    · exact .same
    · split
      · trivial
      · split
        · exact mapPosition_access .same
        · exact .same
  · split
    · trivial
    · -- the draw and the mapping of the drawn position are one access
      exact mapPosition_access (.draw _)
  · exact fun r => .same
  · exact fun r => .same
  · exact commonMove_access _

/-- `trimTo` reads the view, and does what the common moves do. -/
theorem trimToOp_access (pc : OpPc) :
    Lands sh (fun sh' _ => Work sh sh') (trimToOp options lb sh pc) := by
  unfold trimToOp
  split
  · refine Lands.withView fun v _ => ?_
    split
    · exact .same
    · exact .same
  · exact (advanceMinValidPosition_access _).called
  · split
    · trivial
    · exact .same
    · exact .same
    · exact .same
  · exact fun r => .same
  · exact fun r => .same
  · exact commonMove_access _

/-- An operation of any request does work. -/
theorem Request.run_access (r : Request) (pc : OpPc) :
    Lands sh (fun sh' _ => Work sh sh') (r.run options lb sh pc) := by
  cases r with
  | append data => exact appendOp_access pc
  | read p => exact positionOp_access pc
  | fill p => exact positionOp_access pc
  | trim p =>
    show Lands sh _ (trimOp options lb sh pc)
    unfold trimOp
    exact positionOp_access pc
  | trimTo p => exact trimToOp_access pc
  | checkTail =>
    show Lands sh _ (tailOp sh pc)
    unfold tailOp
    split
    · refine Lands.withView fun v _ => ?_
      split
      · exact .same
      · exact .same
    · split
      · trivial
      · exact .same
    · trivial

end

/-- **Accesses**: one step of a thread. -/
theorem Pc.move_access {name : String} {c : Client} (pc : Pc) :
    Lands c.shared (fun sh' _ => Access c.shared sh') (pc.move name c) := by
  cases pc with
  | opener pc => exact Lands.map (openEntry_access pc)
  | refresh pc =>
    simp only [Pc.move]
    split
    · trivial
    · exact Lands.map ((refreshEntry_access pc).imp fun _ _ => .work)
  | expander pc =>
    simp only [Pc.move]
    split
    · trivial
    · exact Lands.map ((expanderEntry_access pc).imp fun _ _ => .work)
  | stripeInit pc =>
    simp only [Pc.move]
    split
    · trivial
    · exact Lands.map ((stripeInitEntry_access pc).imp fun _ _ => .work)
  | op r pc =>
    simp only [Pc.move]
    split
    · trivial
    · exact Lands.map ((r.run_access pc).imp fun _ _ => .work)

/-- A thread that did not open the log leaves the view reader running. -/
theorem Pc.move_reader {name : String} {c : Client} {pc : Pc} (h : ∀ opc, pc ≠ .opener opc) :
    Lands c.shared (fun sh' _ => sh'.readerShutdown = c.shared.readerShutdown)
      (pc.move name c) := by
  cases pc with
  | opener pc => exact absurd rfl (h pc)
  | refresh pc =>
    simp only [Pc.move]
    split
    · trivial
    · exact Lands.map ((refreshEntry_access pc).imp fun _ _ => Work.readerShutdown)
  | expander pc =>
    simp only [Pc.move]
    split
    · trivial
    · exact Lands.map ((expanderEntry_access pc).imp fun _ _ => Work.readerShutdown)
  | stripeInit pc =>
    simp only [Pc.move]
    split
    · trivial
    · exact Lands.map ((stripeInitEntry_access pc).imp fun _ _ => Work.readerShutdown)
  | op r pc =>
    simp only [Pc.move]
    split
    · trivial
    · exact Lands.map ((r.run_access pc).imp fun _ _ => Work.readerShutdown)

end ZLog
