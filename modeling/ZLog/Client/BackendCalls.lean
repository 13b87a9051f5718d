import ZLog.Client.World

/-!
# The backend calls of the threads

Which calls a thread makes, read off its control states: one lemma for each thread, for an
arbitrary property of calls.  Threads that manage views make no entry calls; an operation makes
the entry calls of its request and, to create objects and views, the managing ones.
-/

namespace ZLog

/-- The call reads and changes views and epochs, but no entries. -/
def Call.Manages : {α : Type} → Call Fbs.View α → Prop
  | _, .read .. => False
  | _, .write .. => False
  | _, .fill .. => False
  | _, .trim .. => False
  | _, _ => True

/-- The entry calls of a request. -/
def Request.Makes (r : Request) : {α : Type} → Call Fbs.View α → Prop
  | _, .write _ data _ _ => r = .append data
  | _, .read _ _ position => r = .read position
  | _, .fill _ _ position => r = .fill position
  | _, .trim _ _ position false _ => r = .trim position
  | _, .trim _ _ position true _ => r = .trimTo position
  | _, _ => False

/-! The view that a thread is about to propose, with the one it was built from; the proposals of
`propose_sequencer` apart. -/

/-- The view that `try_expand_view` is about to propose. -/
def ExpandPc.proposal? : ExpandPc → Option (VersionedView × View)
  | .propose _ curr newView => some (curr, newView)
  | _ => none

def AdvancePc.proposal? : AdvancePc → Option (VersionedView × View)
  | .propose curr newView => some (curr, newView)
  | _ => none

def ExpanderPc.proposal? : ExpanderPc → Option (VersionedView × View)
  | .expand _ pc => pc.proposal?
  | _ => none

def OpPc.proposal? : OpPc → Option (VersionedView × View)
  | .expand _ _ pc => pc.proposal?
  | .advance _ pc => pc.proposal?
  | _ => none

section

variable {σ τ ρ : Type} {P Q : {α : Type} → Call Fbs.View α → Prop} {sh : Shared}

/-- The backend call of a move, if it makes one, satisfies `P`. -/
def AllCalls (P : {α : Type} → Call Fbs.View α → Prop) (m : Option (Move σ)) : Prop :=
  ∀ (α : Type) (call : Call Fbs.View α) (next : α → σ), m = some (.backend call next) → P call

theorem allCalls_none : AllCalls P (none : Option (Move σ)) := fun _ _ _ h => by cases h

theorem allCalls_abort : AllCalls P (some .abort : Option (Move σ)) := fun _ _ _ h => by cases h

/-- An access to the memory is not a call. -/
theorem allCalls_memory (sh : Shared) (next : σ) : AllCalls P (some (.memory sh next)) :=
  fun _ _ _ h => by cases h

/-- The one move that makes a call. -/
theorem allCalls_backend {α : Type} {call : Call Fbs.View α} {next : α → σ} (h : P call) :
    AllCalls P (some (.backend call next)) := by
  intro _ _ _ heq
  cases heq
  exact h

/-- Weaker properties hold as well. -/
theorem AllCalls.imp {m : Option (Move σ)} (h : AllCalls P m)
    (himp : ∀ {α : Type} (c : Call Fbs.View α), P c → Q c) : AllCalls Q m :=
  fun α call next heq => himp call (h α call next heq)

/-- The call does not depend on where the thread goes with its answer. -/
theorem AllCalls.map {f : σ → τ} {m : Option (Move σ)} (h : AllCalls P m) :
    AllCalls P (m.map (Move.map f)) := by
  intro α call next heq
  cases m with
  | none => cases heq
  | some m =>
    cases m with
    | backend call' next' =>
      cases heq
      exact h _ _ _ rfl
    | memory => cases heq
    | abort => cases heq

/-- The calls of a called function are those of its caller. -/
theorem AllCalls.inside {goto : σ → τ} {ret : ρ → τ} {m : Option (Move (Next σ ρ))}
    (h : AllCalls P m) : AllCalls P (Move.inside goto ret m) := h.map

/-- Reading the view makes no call. -/
theorem AllCalls.withView {k : VersionedView → Move σ}
    (h : ∀ v, sh.view = some v → AllCalls P (some (k v))) : AllCalls P (sh.withView k) := by
  unfold Shared.withView
  split
  · exact allCalls_abort
  · next v hv => exact h v hv

/-- Waiting makes no call: the refresh thread fetches the views. -/
theorem waitForNewerView_calls (pc : WaitPc) : AllCalls P (waitForNewerView sh pc) := by
  cases pc with
  | enter epoch =>
    simp only [waitForNewerView]
    split
    · exact allCalls_memory _ _
    · exact allCalls_memory _ _
  | blocked waiter =>
    simp only [waitForNewerView]
    split
    · exact allCalls_none
    · exact allCalls_memory _ _

/-- `try_expand_view` makes one call, its proposal. -/
theorem tryExpandView_calls {options : Options} {lb : LogBackend} {position : Nat} (pc : ExpandPc)
    (hp : ∀ curr newView, pc.proposal? = some (curr, newView) →
      P (.proposeView lb.hoid (curr.epoch + 1) newView.encode)) :
    AllCalls P (tryExpandView options lb position sh pc) := by
  cases pc with
  | start retries =>
    refine AllCalls.withView fun curr _ => ?_
    split
    · exact allCalls_abort
    · exact allCalls_memory _ _
    · exact allCalls_memory _ _
  | propose retries curr newView => exact allCalls_backend (hp _ _ rfl)
  | waitNew wait => exact (waitForNewerView_calls wait).inside
  | initStripe => exact allCalls_memory _ _
  | waitStale retries wait => exact (waitForNewerView_calls wait).inside
  | checkShutdown retries => exact allCalls_memory _ _

/-- `advance_min_valid_position` makes one call, its proposal. -/
theorem advanceMinValidPosition_calls {lb : LogBackend} {position : Nat} (pc : AdvancePc)
    (hp : ∀ curr newView, pc.proposal? = some (curr, newView) →
      P (.proposeView lb.hoid (curr.epoch + 1) newView.encode)) :
    AllCalls P (advanceMinValidPosition lb position sh pc) := by
  cases pc with
  | start =>
    refine AllCalls.withView fun curr _ => ?_
    split
    · exact allCalls_memory _ _
    · exact allCalls_memory _ _
  | propose curr newView => exact allCalls_backend (hp _ _ rfl)
  | wait wait => exact (waitForNewerView_calls wait).inside

/-- The calls of `propose_sequencer`. -/
theorem proposeSequencer_calls {lb : LogBackend} (pc : ProposePc)
    (hs : ∀ retries curr stripe oid rest, pc = .seal retries curr stripe oid rest →
      P (.seal (lb.oid oid) (curr.epoch + 1)))
    (hm : ∀ oid, P (.maxPos oid))
    (hp : ∀ retries curr seed, pc = .propose retries curr seed →
      P (.proposeView lb.hoid (curr.epoch + 1)
        (curr.view.withSequencerConfig ⟨curr.epoch + 1, lb.token, seed⟩).encode)) :
    AllCalls P (proposeSequencer lb sh pc) := by
  cases pc with
  | start retries => exact AllCalls.withView fun curr _ => allCalls_memory _ _
  | «seal» retries curr stripe oid rest => exact allCalls_backend (hs _ _ _ _ _ rfl)
  -- the maximum positions are asked for at any epoch
  | maxPos => exact allCalls_backend (hm _)
  | propose => exact allCalls_backend (hp _ _ _ rfl)
  | waitNew wait => exact (waitForNewerView_calls wait).inside
  | waitStale retries curr wait => exact (waitForNewerView_calls wait).inside
  | check retries curr => exact AllCalls.withView fun updated _ => allCalls_memory _ _
  | crash => exact allCalls_abort

/-- The expander makes the calls of `try_expand_view`. -/
theorem expanderEntry_calls {options : Options} {lb : LogBackend} (pc : ExpanderPc)
    (hp : ∀ curr newView, pc.proposal? = some (curr, newView) →
      P (.proposeView lb.hoid (curr.epoch + 1) newView.encode)) :
    AllCalls P (expanderEntry options lb sh pc) := by
  cases pc with
  | idle =>
    simp only [expanderEntry]
    split
    · exact allCalls_none
    · split
      · exact allCalls_memory _ _
      · split
        · exact allCalls_none
        · exact allCalls_memory _ _
  | check position =>
    refine AllCalls.withView fun v _ => ?_
    split
    · exact allCalls_abort
    · exact allCalls_memory _ _
    · exact allCalls_memory _ _
  | expand position pc => exact (tryExpandView_calls pc hp).inside
  -- an empty `expand_pos_` trips the assertion
  | clear position =>
    simp only [expanderEntry]
    split
    · exact allCalls_abort
    · split
      · exact allCalls_memory _ _
      · exact allCalls_memory _ _
  | exited => exact allCalls_none

/-- `stripe_init_entry_` makes one kind of call, the seals of its stripe. -/
theorem stripeInitEntry_calls {lb : LogBackend} (pc : StripeInitPc)
    (hp : ∀ epoch oid rest, pc = .seal epoch oid rest → P (.seal (lb.oid oid) epoch)) :
    AllCalls P (stripeInitEntry lb sh pc) := by
  cases pc with
  | idle =>
    simp only [stripeInitEntry]
    split
    · exact allCalls_none
    · split
      · exact allCalls_memory _ _
      · split
        · exact allCalls_none
        · exact allCalls_memory _ _
  | view position =>
    refine AllCalls.withView fun v _ => ?_
    split
    · exact allCalls_abort
    · exact allCalls_memory _ _
    · exact allCalls_memory _ _
  | «seal» epoch oid rest => exact allCalls_backend (hp epoch oid rest rfl)
  | exited => exact allCalls_none

/-- A view is installed without a call. -/
theorem installMove_calls {lb : LogBackend} {epoch : Nat} {blob : Fbs.View} {next : σ} :
    AllCalls P (some (installMove lb sh epoch blob next)) := by
  unfold installMove
  split
  · exact allCalls_abort
  · split
    · exact allCalls_abort
    · exact allCalls_memory _ _

/-- `refresh_entry_` makes one kind of call: it asks for the latest view. -/
theorem refreshEntry_calls {lb : LogBackend} (pc : RefreshPc) (hp : P (.readViews lb.hoid 0 1)) :
    AllCalls P (refreshEntry lb sh pc) := by
  cases pc with
  | idle =>
    simp only [refreshEntry]
    split
    · exact allCalls_none
    · split
      · exact allCalls_memory _ _
      · exact allCalls_memory _ _
  | fetch => exact allCalls_backend hp
  | install epoch blob => exact installMove_calls
  | readView =>
    simp only [refreshEntry]
    split
    · exact allCalls_memory _ _
    · exact allCalls_memory _ _
  | mark epoch => exact allCalls_memory _ _
  | exited => exact allCalls_none

/-- The calls of the opening of a log; those of `propose_sequencer` are left to the caller. -/
theorem openEntry_calls {name host : String} {options : Options} {created : Bool} (pc : OpenPc)
    (ho : P (.openLog name)) (hu : ∀ hoid, P (.uniqueId hoid))
    (hr : ∀ hoid, P (.readViews hoid 0 1))
    (hp : ∀ lb ppc, sh.backend = some lb → pc = .propose ppc →
      AllCalls P (proposeSequencer lb sh ppc)) :
    AllCalls P (openEntry name host options created sh pc) := by
  cases pc with
  | openLog => exact allCalls_backend ho
  | uniqueId hoid pfx => exact allCalls_backend (hu hoid)
  | construct hoid pfx id => exact allCalls_memory _ _
  | fetch =>
    simp only [openEntry]
    split
    · exact allCalls_none
    · exact allCalls_backend (hr _)
  | install epoch blob =>
    simp only [openEntry]
    split
    · exact allCalls_none
    · exact installMove_calls
  | checkView =>
    simp only [openEntry]
    split
    · exact allCalls_memory _ _
    · exact allCalls_memory _ _
  -- its calls depend on the stripes it has scanned
  | propose pc =>
    simp only [openEntry]
    split
    · exact allCalls_none
    · next lb hlb => exact (hp lb pc hlb rfl).inside
  | checkStripes => exact AllCalls.withView fun v _ => allCalls_memory _ _
  | initStripe => exact allCalls_memory _ _
  | shutdownManager => exact allCalls_memory _ _
  | shutdownReader => exact allCalls_memory _ _
  | join =>
    simp only [openEntry]
    split
    · exact allCalls_memory _ _
    · exact allCalls_none
  | crash => exact allCalls_abort
  | _ => exact allCalls_none

/-! ## Operations -/

/-- Positions are mapped on the view that the client has, without a call. -/
theorem mapPosition_calls {v : VersionedView} {p : Nat} {pe : Option Nat} :
    AllCalls P (some (mapPosition sh v p pe)) := by
  unfold mapPosition
  split
  · exact allCalls_abort
  · exact allCalls_memory _ _
  · exact allCalls_memory _ _
  · exact allCalls_memory _ _

/-- Of the moves that the operations share, only expanding the view makes calls. -/
theorem commonMove_calls {options : Options} {lb : LogBackend} (pc : OpPc)
    (hp : ∀ curr newView, pc.proposal? = some (curr, newView) →
      P (.proposeView lb.hoid (curr.epoch + 1) newView.encode)) :
    AllCalls P (commonMove options lb sh pc) := by
  cases pc with
  | scheduleExpand => exact allCalls_memory _ _
  | expand p pe pc => exact (tryExpandView_calls pc hp).inside
  | wait p pe wait => exact (waitForNewerView_calls wait).inside
  | _ => exact allCalls_none

/-- The calls of the operations with one position. -/
theorem positionOp_calls {α : Type} {call : String → Nat → Nat → Call Fbs.View (Ret α)}
    {finish : Ret α → Ret Reply} {options : Options} {lb : LogBackend} (pc : OpPc)
    (hp : ∀ curr newView, pc.proposal? = some (curr, newView) →
      P (.proposeView lb.hoid (curr.epoch + 1) newView.encode))
    (hs : ∀ v oid p pe, pc = .seal v oid p pe → P (.seal (lb.oid oid) v.epoch))
    (hio : ∀ v oid p pe, pc = .io v oid p pe → P (call (lb.oid oid) v.epoch p)) :
    AllCalls P (positionOp call finish options lb sh pc) := by
  unfold positionOp
  split
  · exact AllCalls.withView fun v _ => mapPosition_calls
  · exact allCalls_backend (hio _ _ _ _ rfl)
  · exact allCalls_backend (hs _ _ _ _ rfl)
  · exact commonMove_calls _ hp

/-- The calls of an append: its write, and those that make an object or a view for it. -/
theorem appendOp_calls {data : String} {options : Options} {lb : LogBackend} (pc : OpPc)
    (hp : ∀ curr newView, pc.proposal? = some (curr, newView) →
      P (.proposeView lb.hoid (curr.epoch + 1) newView.encode))
    (hs : ∀ v oid p pe, pc = .seal v oid p pe → P (.seal (lb.oid oid) v.epoch))
    (hio : ∀ v oid p pe, pc = .io v oid p pe → P (.write (lb.oid oid) data v.epoch p)) :
    AllCalls P (appendOp data options lb sh pc) := by
  unfold appendOp
  split
  · -- without a sequencer the append gives up with `-EIO`
    refine AllCalls.withView fun v _ => ?_
    split
    · exact allCalls_memory _ _
    · split
      · exact allCalls_abort
      · split
        · exact mapPosition_calls
        · exact allCalls_memory _ _
  · split
    · exact allCalls_abort
    · -- the draw is an access to the memory
      exact mapPosition_calls
  · exact allCalls_backend (hio _ _ _ _ rfl)
  · exact allCalls_backend (hs _ _ _ _ rfl)
  · exact commonMove_calls _ hp

/-- `CheckTail` makes no call: it answers from the counter that the client holds. -/
theorem tailOp_calls (pc : OpPc) : AllCalls P (tailOp sh pc) := by
  cases pc with
  | start p pe =>
    refine AllCalls.withView fun v _ => ?_
    split
    · exact allCalls_memory _ _
    · exact allCalls_memory _ _
  | sequence v i =>
    simp only [tailOp]
    split
    · exact allCalls_abort
    · exact allCalls_memory _ _
  | _ => exact allCalls_none

/-- The calls of `trimTo`: trims up to a limit, and those that make an object or a view. -/
theorem trimToOp_calls {options : Options} {lb : LogBackend} (pc : OpPc)
    (hp : ∀ curr newView, pc.proposal? = some (curr, newView) →
      P (.proposeView lb.hoid (curr.epoch + 1) newView.encode))
    (hs : ∀ v oid p pe, pc = .seal v oid p pe → P (.seal (lb.oid oid) v.epoch))
    (ht : ∀ v p k oid full rest, pc = .trim v p k oid full rest →
      P (.trim (lb.oid oid) v.epoch p true full)) :
    AllCalls P (trimToOp options lb sh pc) := by
  unfold trimToOp
  split
  · refine AllCalls.withView fun v _ => ?_
    split
    · exact allCalls_memory _ _
    · exact allCalls_memory _ _
  · -- the minimum valid position is advanced before any object is trimmed
    exact (advanceMinValidPosition_calls _ hp).inside
  · split
    · exact allCalls_abort
    · exact allCalls_memory _ _
    · exact allCalls_memory _ _
    · exact allCalls_memory _ _
  · exact allCalls_backend (ht _ _ _ _ _ _ rfl)
  · exact allCalls_backend (hs _ _ _ _ rfl)
  · exact commonMove_calls _ hp

end

end ZLog
