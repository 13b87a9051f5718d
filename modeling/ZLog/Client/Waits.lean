import ZLog.Client.Control

/-!
# Fetching views and waiting for them

`refresh_view` reads the latest view in one step and installs it in another.  A thread in
`wait_for_newer_view` is on the list of waiters until the refresh thread has seen a newer view.

## Main results

- `Pc.move_waits`: how the list of waiters and the waits change in one step.
- `Pc.move_fetched`: what a thread that is about to install a view has done.
-/

namespace ZLog

/-- The epoch for which a thread waits. -/
def WaitPc.epoch : WaitPc → Nat
  | .enter epoch => epoch
  | .blocked waiter => waiter.epoch

/-- The wait of `try_expand_view`, behind a proposal of its own or behind another client's. -/
def ExpandPc.wait? : ExpandPc → Option WaitPc
  | .waitNew wait => some wait
  | .waitStale _ wait => some wait
  | _ => none

def AdvancePc.wait? : AdvancePc → Option WaitPc
  | .wait pc => some pc
  | _ => none

/-- The wait of an operation in `update_current_view`. -/
def OpPc.wait? : OpPc → Option WaitPc
  | .wait _ _ pc => some pc
  | .expand _ _ pc => pc.wait?
  | .advance _ pc => pc.wait?
  | _ => none

/-- The wait of `propose_sequencer`. -/
def ProposePc.wait? : ProposePc → Option WaitPc
  | .waitNew wait => some wait
  | .waitStale _ _ wait => some wait
  | _ => none

def OpenPc.wait? : OpenPc → Option WaitPc
  | .propose pc => pc.wait?
  | _ => none

def ExpanderPc.wait? : ExpanderPc → Option WaitPc
  | .expand _ pc => pc.wait?
  | _ => none

/-- The wait of a thread. -/
def Pc.wait? : Pc → Option WaitPc
  | .opener pc => pc.wait?
  | .expander pc => pc.wait?
  | .op _ pc => pc.wait?
  | _ => none

/-- The epoch of the view that `refresh_view` has read and not yet installed. -/
def Pc.fetched? : Pc → Option Nat
  | .opener (.install epoch _) => some epoch
  | .refresh (.install epoch _) => some epoch
  | _ => none

/-! ## Waiters -/

/-- A step keeps the waiters, and a thread that is blocked afterwards is on the list or was
    blocked before. -/
structure Waits (sh sh' : Shared) (wait wait' : Option WaitPc) : Prop where
  stays : ∀ x ∈ sh.refreshWaiters, x ∈ sh'.refreshWaiters
  shutdown : sh.readerShutdown = true → sh'.readerShutdown = true
  blocked : ∀ x, wait' = some (.blocked x) → x ∈ sh'.refreshWaiters ∨ wait = some (.blocked x)

section

variable {σ τ ρ : Type} {sh sh' : Shared} {wait wait' : Option WaitPc} {options : Options}
  {lb : LogBackend}

/-- A step that does not block. -/
theorem Waits.of_running (hw : sh'.refreshWaiters = sh.refreshWaiters)
    (hs : sh.readerShutdown = true → sh'.readerShutdown = true)
    (h : ∀ x, wait' ≠ some (.blocked x)) : Waits sh sh' wait wait' :=
  ⟨fun _ hx => hw ▸ hx, hs, fun x hx => absurd hx (h x)⟩

/-- A step that leaves the memory alone and does not block. -/
theorem Waits.refl (h : ∀ x, wait' ≠ some (.blocked x)) : Waits sh sh wait wait' :=
  .of_running rfl id h

/-- The wait of a called function that has not returned. -/
def Next.wait? (f : σ → Option WaitPc) (s : Next σ ρ) : Option WaitPc := s.elim f fun _ => none

/-- A caller of `wait_for_newer_view` is on the list before it blocks. -/
theorem waitForNewerView_waits (pc : WaitPc) :
    Lands sh (fun sh' s => Waits sh sh' (some pc) (s.wait? some)) (waitForNewerView sh pc) := by
  cases pc with
  | enter epoch =>
    simp only [waitForNewerView]
    split
    · exact .refl (by simp [Next.wait?, Next.elim])
    · -- joining the list and blocking are one critical section
      refine ⟨fun x hx => List.mem_append_left _ hx, id, fun x hx => Or.inl ?_⟩
      cases hx
      exact List.mem_append_right _ (List.mem_singleton.mpr rfl)
  | blocked waiter =>
    simp only [waitForNewerView]
    split
    · -- still on the list: no step
      trivial
    · exact .refl (by simp [Next.wait?, Next.elim])

/-- A called function that waits; `f` and `g` read the wait off the control states of the function
    and of its caller. -/
theorem Waits.inside {f : σ → Option WaitPc} {g : τ → Option WaitPc} {goto : σ → τ} {ret : ρ → τ}
    {m : Option (Move (Next σ ρ))}
    (h : Lands sh (fun sh' s => Waits sh sh' wait (s.wait? f)) m)
    (hgoto : ∀ s, g (goto s) = f s) (hret : ∀ r x, g (ret r) ≠ some (.blocked x)) :
    Lands sh (fun sh' s => Waits sh sh' wait (g s)) (Move.inside goto ret m) := by
  refine Lands.inside (h.imp fun sh' s hs => ?_)
  cases s with
  | goto s =>
    show Waits sh sh' wait (g (goto s))
    rw [hgoto]
    exact hs
  | ret r => exact ⟨hs.stays, hs.shutdown, fun x hx => absurd hx (hret r x)⟩

/-- `try_expand_view` blocks behind its proposal only. -/
theorem tryExpandView_waits {position : Nat} (pc : ExpandPc) :
    Lands sh (fun sh' s => Waits sh sh' pc.wait? (s.wait? ExpandPc.wait?))
      (tryExpandView options lb position sh pc) := by
  cases pc with
  | start retries =>
    refine Lands.withView fun curr _ => ?_
    split
    · trivial
    · exact .refl (by simp [Next.wait?, Next.elim])
    · exact .refl (by simp [Next.wait?, Next.elim, ExpandPc.wait?])
  | propose retries curr newView =>
    -- proposed or overtaken, it waits for the next epoch
    intro r
    apply Waits.refl
    dsimp only
    split <;> simp [Next.wait?, Next.elim, ExpandPc.wait?]
  | waitNew wait =>
    refine Waits.inside (waitForNewerView_waits wait) (fun _ => rfl) fun _ x => ?_
    split <;> simp [Next.wait?, Next.elim, ExpandPc.wait?]
  | initStripe => exact .of_running rfl id (by simp [Next.wait?, Next.elim])
  | waitStale retries wait =>
    refine Waits.inside (waitForNewerView_waits wait) (fun _ => rfl) fun _ x => ?_
    split <;> simp [Next.wait?, Next.elim, ExpandPc.wait?]
  | checkShutdown retries =>
    apply Waits.refl
    split <;> simp [Next.wait?, Next.elim, ExpandPc.wait?]

theorem advanceMinValidPosition_waits {position : Nat} (pc : AdvancePc) :
    Lands sh (fun sh' s => Waits sh sh' pc.wait? (s.wait? AdvancePc.wait?))
      (advanceMinValidPosition lb position sh pc) := by
  cases pc with
  | start =>
    refine Lands.withView fun curr _ => ?_
    split
    · exact .refl (by simp [Next.wait?, Next.elim])
    · exact .refl (by simp [Next.wait?, Next.elim, AdvancePc.wait?])
  | propose curr newView =>
    intro r
    apply Waits.refl
    dsimp only
    split <;> simp [Next.wait?, Next.elim, AdvancePc.wait?]
  | wait wait =>
    exact Waits.inside (waitForNewerView_waits wait) (fun _ => rfl) (by simp [Next.wait?, Next.elim])

/-- The scan of the stripes does not wait. -/
theorem ProposePc.scan_wait? (retries : Nat) (curr : VersionedView) (k : Nat) :
    (ProposePc.scan retries curr k).wait? = none := by
  cases k with
  | zero => rfl
  | succ k =>
    simp only [ProposePc.scan]
    split
    · rfl
    · next stripe _ =>
      simp only [ProposePc.sealStripe]
      cases stripe.oids <;> rfl

/-- `propose_sequencer` blocks behind its proposal only. -/
theorem proposeSequencer_waits (pc : ProposePc) :
    Lands sh (fun sh' s => Waits sh sh' pc.wait? (s.wait? ProposePc.wait?))
      (proposeSequencer lb sh pc) := by
  cases pc with
  | start retries =>
    refine Lands.withView fun curr _ => .refl fun x => ?_
    simp [Next.wait?, Next.elim, ProposePc.scan_wait?]
  -- sealed or already sealed further, the next object is its turn
  | «seal» retries curr stripe oid rest =>
    intro r
    apply Waits.refl
    dsimp only
    split
    · split
      · simp [Next.wait?, Next.elim, ProposePc.wait?]
      · split <;> simp [Next.wait?, Next.elim, ProposePc.wait?]
    · split
      · simp [Next.wait?, Next.elim, ProposePc.wait?]
      · split <;> simp [Next.wait?, Next.elim, ProposePc.wait?]
    · simp [Next.wait?, Next.elim]
  -- an empty stripe sends the scan to the one below
  | maxPos retries curr stripe oid rest acc =>
    intro r
    apply Waits.refl
    dsimp only
    split
    · split
      · simp [Next.wait?, Next.elim, ProposePc.wait?]
      · simp only [Next.wait?, Next.elim]
        unfold ProposePc.endStripe
        split
        · simp [ProposePc.scan_wait?]
        · simp [ProposePc.wait?]
    · simp [Next.wait?, Next.elim]
  | propose retries curr seed =>
    intro r
    apply Waits.refl
    dsimp only
    split <;> simp [Next.wait?, Next.elim, ProposePc.wait?]
  | waitNew wait =>
    exact Waits.inside (waitForNewerView_waits wait) (fun _ => rfl) (by simp [Next.wait?, Next.elim])
  | waitStale retries curr wait =>
    exact Waits.inside (waitForNewerView_waits wait) (fun _ => rfl)
      (by simp [Next.wait?, Next.elim, ProposePc.wait?])
  | check retries curr =>
    refine Lands.withView fun updated _ => .refl fun x => ?_
    split
    · split <;> simp [Next.wait?, Next.elim, ProposePc.wait?]
    · simp [Next.wait?, Next.elim]
  | crash => trivial

/-- The expander waits inside `try_expand_view`. -/
theorem expanderEntry_waits (pc : ExpanderPc) :
    Lands sh (fun sh' pc' => Waits sh sh' pc.wait? pc'.wait?) (expanderEntry options lb sh pc) := by
  cases pc with
  | idle =>
    simp only [expanderEntry]
    split
    · trivial
    · split
      · exact .of_running rfl id (by simp [ExpanderPc.wait?])
      · split
        · trivial
        · exact .refl (by simp [ExpanderPc.wait?])
  | check position =>
    refine Lands.withView fun v _ => ?_
    split
    · trivial
    · exact .refl (by simp [ExpanderPc.wait?, ExpandPc.enter, ExpandPc.wait?])
    · exact .refl (by simp [ExpanderPc.wait?])
  | expand position pc =>
    exact Waits.inside (tryExpandView_waits pc) (fun _ => rfl) (by simp [ExpanderPc.wait?])
  | clear position =>
    simp only [expanderEntry]
    split
    · trivial
    · split
      · exact .refl (by simp [ExpanderPc.wait?])
      · exact .of_running rfl id (by simp [ExpanderPc.wait?])
  | exited => trivial

/-- The stripe initialisation thread never waits for views. -/
theorem stripeInitEntry_waits (pc : StripeInitPc) :
    Lands sh (fun sh' _ => Waits sh sh' none none) (stripeInitEntry lb sh pc) := by
  cases pc with
  | idle =>
    simp only [stripeInitEntry]
    split
    · trivial
    · split
      · exact .of_running rfl id (by simp)
      · split
        · trivial
        · exact .of_running rfl id (by simp)
  | view position =>
    refine Lands.withView fun v _ => ?_
    split
    · trivial
    · exact .refl (by simp)
    · exact .refl (by simp)
  | «seal» epoch oid rest => exact fun r => .refl (by simp)
  | exited => trivial

/-- Installing a view leaves the waiters and the shutdown flag alone. -/
theorem lands_installMove {P : Shared → σ → Prop} {epoch : Nat} {blob : Fbs.View} {next : σ}
    (h : ∀ sh', sh'.refreshWaiters = sh.refreshWaiters →
      (sh.readerShutdown = true → sh'.readerShutdown = true) → P sh' next) :
    Lands sh P (some (installMove lb sh epoch blob next)) := by
  cases hm : installMove lb sh epoch blob next with
  | backend call k =>
    unfold installMove at hm
    split at hm
    · cases hm
    · split at hm <;> cases hm
  | memory sh' s =>
    obtain ⟨rfl, rfl | hi⟩ := installMove_cases hm
    · exact h _ rfl id
    · obtain ⟨_, _, _, -, -, rfl⟩ := hi.view
      exact h _ rfl id
  | abort => trivial

/-- The opening thread waits inside `propose_sequencer`. -/
theorem openEntry_waits {name host : String} {created : Bool} (pc : OpenPc) :
    Lands sh (fun sh' pc' => Waits sh sh' pc.wait? pc'.wait?)
      (openEntry name host options created sh pc) := by
  cases pc with
  | openLog =>
    intro r
    apply Waits.refl
    dsimp only
    split
    · split <;> simp [OpenPc.wait?]
    · simp [OpenPc.wait?]
  | uniqueId hoid pfx =>
    intro r
    apply Waits.refl
    dsimp only
    split <;> simp [OpenPc.wait?]
  | construct hoid pfx id => exact .of_running rfl (fun h => h) (by simp [OpenPc.wait?])
  | fetch =>
    simp only [openEntry]
    split
    · trivial
    · intro r
      apply Waits.refl
      dsimp only
      split
      · simp [OpenPc.wait?]
      · split <;> simp [OpenPc.wait?]
  | install epoch blob =>
    simp only [openEntry]
    split
    · trivial
    · next lb hlb =>
      refine lands_installMove fun sh' hw hs => .of_running hw hs (by simp [OpenPc.wait?])
  -- without a view the reader is shut down at once
  | checkView =>
    simp only [openEntry]
    split
    · exact .of_running rfl (fun _ => rfl) (by simp [OpenPc.wait?])
    · exact .of_running rfl id (by simp [OpenPc.wait?, ProposePc.enter, ProposePc.wait?])
  | propose pc =>
    simp only [openEntry]
    split
    · trivial
    · refine Waits.inside (proposeSequencer_waits pc) (fun _ => rfl) fun r x => ?_
      split
      · split <;> simp [OpenPc.wait?]
      · simp [OpenPc.wait?]
  | checkStripes =>
    refine Lands.withView fun v _ => .refl fun x => ?_
    split <;> simp [OpenPc.wait?]
  | initStripe => exact .of_running rfl id (by simp [OpenPc.wait?])
  | shutdownManager => exact .of_running rfl id (by simp [OpenPc.wait?])
  | shutdownReader => exact .of_running rfl (fun _ => rfl) (by simp [OpenPc.wait?])
  | join =>
    simp only [openEntry]
    split
    · exact .refl (by simp [OpenPc.wait?])
    · trivial
  | _ => trivial

/-! ## Operations -/

/-- Mapping a position does not block. -/
theorem mapPosition_waits {v : VersionedView} {p : Nat} {pe : Option Nat}
    (hw : sh'.refreshWaiters = sh.refreshWaiters)
    (hs : sh.readerShutdown = true → sh'.readerShutdown = true) :
    Lands sh (fun sh' pc' => Waits sh sh' wait pc'.wait?) (some (mapPosition sh' v p pe)) :=
  lands_mapPosition (.of_running hw hs (by simp [OpPc.wait?, ExpandPc.enter, ExpandPc.wait?]))
    (fun _ => .of_running hw hs (by simp [OpPc.wait?]))
    (fun _ => .of_running hw hs (by simp [OpPc.wait?]))

/-- The common moves: an operation waits for a view, or expands the one it has. -/
theorem commonMove_waits (pc : OpPc) :
    Lands sh (fun sh' pc' => Waits sh sh' pc.wait? pc'.wait?) (commonMove options lb sh pc) := by
  cases pc with
  | scheduleExpand v oid p pe =>
    refine .of_running ?_ ?_ (by simp [OpPc.wait?])
    · -- the expander is signalled; nobody blocks
      unfold asyncExpandView
      split
      · rfl
      · split <;> rfl
    · unfold asyncExpandView
      split
      · exact id
      · split <;> exact id
  | expand p pe pc =>
    refine Waits.inside (tryExpandView_waits pc) (fun _ => rfl) fun r x => ?_
    split <;> simp [OpPc.wait?]
  | wait p pe wait =>
    exact Waits.inside (waitForNewerView_waits wait) (fun _ => rfl) (by simp [OpPc.wait?])
  | _ => trivial

/-- `Read`, `Fill` and `Trim` wait when their epoch is stale. -/
theorem positionOp_waits {α : Type} {call : String → Nat → Nat → Call Fbs.View (Ret α)}
    {finish : Ret α → Ret Reply} (pc : OpPc) :
    Lands sh (fun sh' pc' => Waits sh sh' pc.wait? pc'.wait?)
      (positionOp call finish options lb sh pc) := by
  unfold positionOp
  split
  · exact Lands.withView fun v _ => mapPosition_waits rfl id
  · -- a stale epoch leads to `wait_for_newer_view`, which has not blocked yet
    refine fun r => ⟨fun _ hx => hx, id, fun x hx => ?_⟩
    dsimp only at hx
    split at hx <;> cases hx
  · intro r
    apply Waits.refl
    dsimp only
    split <;> simp [OpPc.wait?]
  · exact commonMove_waits _

/-- An append waits when its epoch is stale. -/
theorem appendOp_waits {data : String} (pc : OpPc) :
    Lands sh (fun sh' pc' => Waits sh sh' pc.wait? pc'.wait?) (appendOp data options lb sh pc) := by
  unfold appendOp
  split
  · refine Lands.withView fun v _ => ?_
    split
    · exact .refl (by simp [OpPc.wait?])
    · split
      · trivial
      · split
        · exact mapPosition_waits rfl id
        · exact .refl (by simp [OpPc.wait?])
  · split
    · trivial
    · exact mapPosition_waits rfl id
  · intro r
    apply Waits.refl
    dsimp only
    split <;> simp [OpPc.wait?]
  · intro r
    apply Waits.refl
    dsimp only
    split <;> simp [OpPc.wait?]
  · exact commonMove_waits _

theorem tailOp_waits (pc : OpPc) :
    Lands sh (fun sh' pc' => Waits sh sh' pc.wait? pc'.wait?) (tailOp sh pc) := by
  unfold tailOp
  split
  · refine Lands.withView fun v _ => ?_
    split
    · exact .refl (by simp [OpPc.wait?])
    · exact .refl (by simp [OpPc.wait?])
  · split
    · trivial
    · exact .refl (by simp [OpPc.wait?])
  · trivial

/-- `trimTo` waits when its epoch is stale, and while the minimum valid position is advanced. -/
theorem trimToOp_waits (pc : OpPc) :
    Lands sh (fun sh' pc' => Waits sh sh' pc.wait? pc'.wait?) (trimToOp options lb sh pc) := by
  have htrim : ∀ v p t objects x, (OpPc.trimAll v p t objects).wait? ≠ some (.blocked x) := by
    intro v p t objects x
    cases objects with
    | nil => simp [OpPc.trimAll, OpPc.wait?]
    | cons o rest => simp [OpPc.trimAll, OpPc.wait?]
  unfold trimToOp
  split
  · refine Lands.withView fun v _ => ?_
    split
    · exact .refl (by simp [OpPc.wait?, AdvancePc.wait?])
    · exact .refl (by simp [OpPc.wait?])
  · refine Waits.inside (advanceMinValidPosition_waits _) (fun _ => rfl) fun r x => ?_
    split <;> simp [OpPc.wait?]
  · split
    · trivial
    · exact .refl (by simp [OpPc.wait?, ExpandPc.enter, ExpandPc.wait?])
    · exact .refl (by simp [OpPc.wait?])
    · exact .refl (htrim _ _ _ _)
  · intro r
    apply Waits.refl
    dsimp only
    split
    · exact htrim _ _ _ _
    · simp [OpPc.wait?]
    · simp [OpPc.wait?]
    · simp [OpPc.wait?]
  · intro r
    apply Waits.refl
    dsimp only
    split <;> simp [OpPc.wait?]
  · exact commonMove_waits _

theorem Request.run_waits (r : Request) (pc : OpPc) :
    Lands sh (fun sh' pc' => Waits sh sh' pc.wait? pc'.wait?) (r.run options lb sh pc) := by
  cases r with
  | append data => exact appendOp_waits pc
  | read p => exact positionOp_waits pc
  | fill p => exact positionOp_waits pc
  | trim p =>
    show Lands sh _ (trimOp options lb sh pc)
    unfold trimOp
    exact positionOp_waits pc
  | trimTo p => exact trimToOp_waits pc
  | checkTail => exact tailOp_waits pc

/-! ## The refresh thread -/

/-- How the list of waiters and the wait of a thread change in one step. -/
structure WaitStep (sh sh' : Shared) (pc pc' : Pc) : Prop where
  stays : ∀ x ∈ sh.refreshWaiters, x ∈ sh'.refreshWaiters ∨ sh.readerShutdown = true ∨
    ∃ e, pc = .refresh (.mark e) ∧ x.epoch < e
  shutdown : sh.readerShutdown = true → sh'.readerShutdown = true
  blocked : ∀ x, pc'.wait? = some (.blocked x) →
    x ∈ sh'.refreshWaiters ∨ pc.wait? = some (.blocked x)
  marks : ∀ e, pc' = .refresh (.mark e) → ∃ curr, sh.view = some curr ∧ curr.epoch = e

/-- Steps of the threads that do not mark waiters. -/
theorem Waits.step (pc pc' : Pc) (h : Waits sh sh' pc.wait? pc'.wait?)
    (hm : ∀ e, pc' ≠ .refresh (.mark e)) : WaitStep sh sh' pc pc' :=
  ⟨fun x hx => Or.inl (h.stays x hx), h.shutdown, h.blocked, fun e he => absurd he (hm e)⟩

/-- The refresh thread releases waiters whose epoch it has seen passed, or all of them at the
    shutdown. -/
theorem refreshEntry_waits (pc : RefreshPc) :
    Lands sh (fun sh' pc' => WaitStep sh sh' (.refresh pc) (.refresh pc'))
      (refreshEntry lb sh pc) := by
  have hquiet : ∀ {sh' : Shared} {pc' : RefreshPc}, sh'.refreshWaiters = sh.refreshWaiters →
      (sh.readerShutdown = true → sh'.readerShutdown = true) → (∀ e, pc' ≠ .mark e) →
      WaitStep sh sh' (.refresh pc) (.refresh pc') := fun hw hs hm =>
    (Waits.of_running hw hs (by simp [Pc.wait?])).step (.refresh pc) (.refresh _)
      fun e he => hm e (Pc.refresh.inj he)
  cases pc with
  | idle =>
    simp only [refreshEntry]
    split
    · trivial
    · split
      · next hs =>
        -- the shutdown releases all waiters
        exact ⟨fun _ _ => Or.inr (Or.inl hs), fun h => h, fun x hx => absurd hx (by simp [Pc.wait?]),
          fun e he => absurd he (by simp)⟩
      · exact hquiet rfl id (by simp)
  | fetch =>
    intro r
    refine hquiet rfl id ?_
    dsimp only
    split
    · simp
    · split <;> simp
  | install epoch blob => exact lands_installMove fun sh' hw hs => hquiet hw hs (by simp)
  | readView =>
    simp only [refreshEntry]
    split
    · exact hquiet rfl id (by simp)
    · -- the epoch it marks is that of the view it has just read
      next curr hcurr =>
      refine ⟨fun x hx => Or.inl hx, id, fun x hx => absurd hx (by simp [Pc.wait?]), fun e he => ?_⟩
      cases he
      exact ⟨curr, hcurr, rfl⟩
  | mark epoch =>
    refine ⟨fun x hx => ?_, id, fun x hx => absurd hx (by simp [Pc.wait?]),
      fun e he => absurd he (by simp)⟩
    -- released, or still waiting for this epoch
    by_cases hlt : x.epoch < epoch
    · exact Or.inr (Or.inr ⟨epoch, rfl, hlt⟩)
    · exact Or.inl (List.mem_filter.mpr ⟨hx, by simpa using hlt⟩)
  | exited => trivial

end

/-! ## All threads -/

variable {name : String} {c : Client}

/-- **Waits**: one step of a thread. -/
theorem Pc.move_waits (pc : Pc) :
    Lands c.shared (fun sh' pc' => WaitStep c.shared sh' pc pc') (pc.move name c) := by
  cases pc with
  | opener pc =>
    refine Lands.map ((openEntry_waits pc).imp fun sh' pc' h => ?_)
    exact Waits.step (.opener pc) (.opener pc') h (by simp)
  | refresh pc =>
    simp only [Pc.move]
    split
    · trivial
    · exact Lands.map (refreshEntry_waits pc)
  | expander pc =>
    simp only [Pc.move]
    split
    · trivial
    · refine Lands.map ((expanderEntry_waits pc).imp fun sh' pc' h => ?_)
      exact Waits.step (.expander pc) (.expander pc') h (by simp)
  | stripeInit pc =>
    simp only [Pc.move]
    split
    · trivial
    · refine Lands.map ((stripeInitEntry_waits pc).imp fun sh' pc' h => ?_)
      exact Waits.step (.stripeInit pc) (.stripeInit pc') h (by simp)
  | op r pc =>
    simp only [Pc.move]
    split
    · trivial
    · refine Lands.map ((r.run_waits pc).imp fun sh' pc' h => ?_)
      exact Waits.step (.op r pc) (.op r pc') h (by simp)

/-- A thread that is about to install a view has just read it. -/
theorem Pc.move_fetched (pc : Pc) :
    Lands c.shared (fun _ pc' => pc'.fetched? = none ∨ pc = .opener .fetch ∨ pc = .refresh .fetch)
      (pc.move name c) := by
  cases pc with
  | opener pc =>
    refine Lands.map ?_
    cases pc with
    | openLog =>
      intro r
      left
      dsimp only
      split
      · split <;> rfl
      · rfl
    | uniqueId hoid pfx =>
      intro r
      left
      dsimp only
      split <;> rfl
    | construct hoid pfx id => exact Or.inl rfl
    -- the read of the latest view, by the opening thread
    | fetch => exact lands_of_forall (fun _ _ => Or.inr (Or.inl rfl)) _
    | install epoch blob =>
      simp only [openEntry]
      split
      · trivial
      · exact lands_installMove fun _ _ _ => Or.inl rfl
    | checkView =>
      simp only [openEntry]
      split
      · exact Or.inl rfl
      · exact Or.inl rfl
    | propose pc =>
      simp only [openEntry]
      split
      · trivial
      · refine Lands.inside (lands_of_forall (fun _ s => Or.inl ?_) _)
        cases s with
        | goto pc => rfl
        | ret r =>
          simp only [Next.elim]
          split
          · split <;> rfl
          · rfl
    | checkStripes =>
      refine Lands.withView fun v _ => Or.inl ?_
      split <;> rfl
    | initStripe => exact Or.inl rfl
    | shutdownManager => exact Or.inl rfl
    | shutdownReader => exact Or.inl rfl
    | join =>
      simp only [openEntry]
      split
      · exact Or.inl rfl
      · trivial
    | _ => trivial
  | refresh pc =>
    simp only [Pc.move]
    split
    · trivial
    · refine Lands.map ?_
      cases pc with
      | idle =>
        simp only [refreshEntry]
        split
        · trivial
        · split
          · exact Or.inl rfl
          · exact Or.inl rfl
      -- and by the refresh thread
      | fetch => exact lands_of_forall (fun _ _ => Or.inr (Or.inr rfl)) _
      | install epoch blob => exact lands_installMove fun _ _ _ => Or.inl rfl
      | readView =>
        simp only [refreshEntry]
        split
        · exact Or.inl rfl
        · exact Or.inl rfl
      | mark epoch => exact Or.inl rfl
      | exited => trivial
  | expander pc =>
    simp only [Pc.move]
    split
    · trivial
    · exact Lands.map (lands_of_forall (fun _ _ => Or.inl rfl) _)
  | stripeInit pc =>
    simp only [Pc.move]
    split
    · trivial
    · exact Lands.map (lands_of_forall (fun _ _ => Or.inl rfl) _)
  | op r pc =>
    simp only [Pc.move]
    split
    · trivial
    · exact Lands.map (lands_of_forall (fun _ _ => Or.inl rfl) _)

end ZLog
