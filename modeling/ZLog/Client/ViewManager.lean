import ZLog.Client.Thread

/-!
# The view manager

The functions of `ViewManager` that propose new views, and its two background threads.  The
retry delays are not modelled; a thread may always be slow.
-/

namespace ZLog

/-! ## Expanding the view -/

/-- Control states of `try_expand_view`. -/
inductive ExpandPc where
  | start (retries : Nat)
  | propose (retries : Nat) (curr : VersionedView) (newView : View)
  | waitNew (wait : WaitPc)
  | initStripe
  | waitStale (retries : Nat) (wait : WaitPc)
  | checkShutdown (retries : Nat)
  deriving DecidableEq

/-- Seven tries. -/
def ExpandPc.enter : ExpandPc := .start 7

/-- `ViewManager::try_expand_view`, one step at a time. -/
def tryExpandView (options : Options) (lb : LogBackend) (position : Nat) (sh : Shared) :
    ExpandPc → Option (Move (Next ExpandPc (Ret Unit)))
  | .start retries =>
    sh.withView fun curr =>
      match curr.view.expandMapping position options with
      | .error _ => .abort
      | .ok none => .memory sh (.ret (.ok ()))
      | .ok (some newView) => .memory sh (.goto (.propose retries curr newView))
  | .propose retries curr newView =>
    some (.backend (.proposeView lb.hoid (curr.epoch + 1) newView.encode) fun
      | .ok () => .goto (.waitNew (.enter curr.epoch))
      | .error .espipe => .goto (.waitStale retries (.enter curr.epoch))
      | .error e => .ret (.error e))
  | .waitNew wait =>
    Move.inside (fun wait => .goto (.waitNew wait))
      (fun _ => if options.initStripeOnCreate then .goto .initStripe else .ret (.ok ()))
      (waitForNewerView sh wait)
  | .initStripe =>
    -- `async_init_stripe`
    some (.memory { sh with stripeInitPos := sh.stripeInitPos ++ [position] } (.ret (.ok ())))
  | .waitStale retries wait =>
    Move.inside (fun wait => .goto (.waitStale retries wait))
      (fun _ =>
        if retries - 1 = 0 then .ret (.ok ()) else .goto (.checkShutdown (retries - 1)))
      (waitForNewerView sh wait)
  | .checkShutdown retries =>
    some (.memory sh (if sh.managerShutdown then .ret (.error .eshutdown)
      else .goto (.start retries)))

/-- `async_expand_view` -/
def asyncExpandView (sh : Shared) (position : Nat) : Shared :=
  match sh.expandPos with
  | none => { sh with expandPos := some position }
  | some pos => if pos < position then { sh with expandPos := some position } else sh

/-! ## Advancing the minimum valid position -/

/-- Control states of `advance_min_valid_position`. -/
inductive AdvancePc where
  | start
  | propose (curr : VersionedView) (newView : View)
  | wait (wait : WaitPc)
  deriving DecidableEq

/-- `ViewManager::advance_min_valid_position`, one step at a time. -/
def advanceMinValidPosition (lb : LogBackend) (position : Nat) (sh : Shared) :
    AdvancePc → Option (Move (Next AdvancePc (Ret Unit)))
  | .start =>
    sh.withView fun curr =>
      match curr.view.advanceMinValidPosition position with
      | none => .memory sh (.ret (.ok ()))
      | some newView => .memory sh (.goto (.propose curr newView))
  | .propose curr newView =>
    some (.backend (.proposeView lb.hoid (curr.epoch + 1) newView.encode) fun
      | .ok () => .goto (.wait (.enter curr.epoch))
      | .error .espipe => .goto (.wait (.enter curr.epoch))
      | .error e => .ret (.error e))
  | .wait wait =>
    Move.inside (fun wait => .goto (.wait wait)) (fun _ => .ret (.ok ()))
      (waitForNewerView sh wait)

/-! ## Proposing a sequencer -/

/-- Control states of `propose_sequencer`, with the loops of `seal_stripe` unfolded: the
    objects of a stripe are first all sealed and then all asked for their maximum position. -/
inductive ProposePc where
  | start (retries : Nat)
  | seal (retries : Nat) (curr : VersionedView) (stripe : Stripe) (oid : String)
      (rest : List String)
  | maxPos (retries : Nat) (curr : VersionedView) (stripe : Stripe) (oid : String)
      (rest : List String) (max : Option Nat)
  | propose (retries : Nat) (curr : VersionedView) (seed : Nat)
  | waitNew (wait : WaitPc)
  | waitStale (retries : Nat) (curr : VersionedView) (wait : WaitPc)
  | check (retries : Nat) (curr : VersionedView)
  /-- A failed assertion in the mapping code. -/
  | crash
  deriving DecidableEq

/-- Five tries. -/
def ProposePc.enter : ProposePc := .start 5

namespace ProposePc

/-- Start `seal_stripe` on a stripe; its objects are not empty. -/
def sealStripe (retries : Nat) (curr : VersionedView) (stripe : Stripe) : ProposePc :=
  match stripe.oids with
  | [] => .crash
  | oid :: rest => .seal retries curr stripe oid rest

/-- The scan goes on with the stripes below `stripeId`. -/
def scan (retries : Nat) (curr : VersionedView) : Nat → ProposePc
  | 0 => .propose retries curr 0
  | stripeId + 1 =>
    match curr.objectMap.stripeById stripeId with
    | .error _ => .crash
    | .ok stripe => sealStripe retries curr stripe

/-- The end of `seal_stripe`: an empty stripe sends the scan to the next one. -/
def endStripe (retries : Nat) (curr : VersionedView) (stripe : Stripe) : Option Nat → ProposePc
  | none => scan retries curr stripe.stripeId
  | some position => .propose retries curr (nextPosition position)

end ProposePc

/-- The maximum of the positions found so far; `none` while all objects were empty. -/
def foldMaxPos (acc answer : Option Nat) : Option Nat :=
  match acc, answer with
  | none, x => x
  | x, none => x
  | some x, some y => some (max x y)

def proposeSequencer (lb : LogBackend) (sh : Shared) :
    ProposePc → Option (Move (Next ProposePc (Ret Unit)))
  -- sealing starts with the last stripe of the view
  | .start retries =>
    sh.withView fun curr =>
      .memory sh (.goto (ProposePc.scan retries curr
        (if curr.objectMap.empty then 0 else curr.objectMap.numStripes)))
  -- a stale answer means that another client has sealed the object for a newer epoch
  | .seal retries curr stripe oid rest =>
    some (.backend (.seal (lb.oid oid) (curr.epoch + 1)) fun
      | .ok () | .error .espipe =>
        match rest with
        | oid :: rest => .goto (.seal retries curr stripe oid rest)
        | [] =>
          match stripe.oids with
          | oid :: rest => .goto (.maxPos retries curr stripe oid rest none)
          | [] => .goto .crash
      | .error e => .ret (.error e))
  -- the stripe is sealed, its maximum positions are asked for
  | .maxPos retries curr stripe oid rest acc =>
    some (.backend (.maxPos (lb.oid oid)) fun
      | .ok answer =>
        match rest with
        | oid :: rest => .goto (.maxPos retries curr stripe oid rest (foldMaxPos acc answer))
        | [] => .goto (ProposePc.endStripe retries curr stripe (foldMaxPos acc answer))
      | .error e => .ret (.error e))
  | .propose retries curr seed =>
    some (.backend (.proposeView lb.hoid (curr.epoch + 1)
        (curr.view.withSequencerConfig ⟨curr.epoch + 1, lb.token, seed⟩).encode) fun
      | .ok () => .goto (.waitNew (.enter curr.epoch))
      | .error .espipe => .goto (.waitStale retries curr (.enter curr.epoch))
      | .error e => .ret (.error e))
  -- the own proposal has been accepted, its installation is awaited
  | .waitNew wait =>
    Move.inside (fun wait => .goto (.waitNew wait)) (fun _ => .ret (.ok ()))
      (waitForNewerView sh wait)
  | .waitStale retries curr wait =>
    Move.inside (fun wait => .goto (.waitStale retries curr wait))
      (fun _ => .goto (.check retries curr)) (waitForNewerView sh wait)
  -- another proposal was faster: only one that changes the sequencer ends the attempt
  | .check retries curr =>
    sh.withView fun updated =>
      .memory sh
        (if updated.seqConfig = none ∨ updated.seqConfig = curr.seqConfig then
          if retries - 1 = 0 then .ret (.error .etimedout) else .goto (.start (retries - 1))
        else .ret (.error .eintr))
  | .crash => some .abort

/-- Where `proposeSequencer` goes on behind a sealed object: at the next object of the stripe, or at
    the maximum position of the first one. -/
def ProposePc.afterSeal (retries : Nat) (curr : VersionedView) (stripe : Stripe) :
    List String → Next ProposePc (Ret Unit)
  | oid :: rest => .goto (.seal retries curr stripe oid rest)
  | [] =>
    match stripe.oids with
    | oid :: rest => .goto (.maxPos retries curr stripe oid rest none)
    | [] => .goto .crash

/-! ## Background threads -/

/-- Control states of `expander_entry_`. -/
inductive ExpanderPc where
  | idle
  | check (position : Nat)
  | expand (position : Nat) (pc : ExpandPc)
  | clear (position : Nat)
  | exited
  deriving DecidableEq

def expanderEntry (options : Options) (lb : LogBackend) (sh : Shared) :
    ExpanderPc → Option (Move ExpanderPc)
  | .idle =>
    if !sh.managerStarted then none
    -- shutdown
    else if sh.managerShutdown then some (.memory { sh with expanderExited := true } .exited)
    else
      match sh.expandPos with
      | none => none
      | some position => some (.memory sh (.check position))
  | .check position =>
    sh.withView fun v =>
      match v.objectMap.map position with
      | .error _ => .abort
      | .ok (none, _) => .memory sh (.expand position .enter)
      | .ok (some _, _) => .memory sh (.clear position)
  -- whatever the expansion answers, the request is looked at again
  | .expand position pc =>
    Move.inside (fun pc => .expand position pc) (fun _ => .idle)
      (tryExpandView options lb position sh pc)
  -- a request for a later position may have come meanwhile: it is kept
  | .clear position =>
    match sh.expandPos with
    | none => some .abort
    | some pos =>
      if position < pos then some (.memory sh .idle)
      else some (.memory { sh with expandPos := none } .idle)
  | .exited => none

/-- Control states of `stripe_init_entry_`. -/
inductive StripeInitPc where
  | idle
  | view (position : Nat)
  | seal (epoch : Nat) (oid : String) (rest : List String)
  | exited
  deriving DecidableEq

/-- The loop over the objects of a stripe. -/
def StripeInitPc.sealAll (epoch : Nat) : List String → StripeInitPc
  | [] => .idle
  | oid :: rest => .seal epoch oid rest

/-- `ViewManager::stripe_init_entry_`, one step at a time. -/
def stripeInitEntry (lb : LogBackend) (sh : Shared) : StripeInitPc → Option (Move StripeInitPc)
  | .idle =>
    if !sh.managerStarted then none
    else if sh.managerShutdown then some (.memory { sh with stripeInitExited := true } .exited)
    else
      match sh.stripeInitPos with
      | [] => none
      | position :: rest => some (.memory { sh with stripeInitPos := rest } (.view position))
  | .view position =>
    sh.withView fun v =>
      match v.objectMap.mapStripe position with
      | .error _ => .abort
      | .ok none => .memory sh .idle
      | .ok (some stripe) => .memory sh (.sealAll v.epoch stripe.oids)
  | .seal epoch oid rest =>
    some (.backend (.seal (lb.oid oid) epoch) fun _ => .sealAll epoch rest)
  | .exited => none

end ZLog
