import ZLog.Client.ViewManager
import ZLog.Lib.Dotted

/-!
# The view reader and the opening of a log

`refresh_view` installs the latest stored view; it runs in the refresh thread and once in the
thread that opens the log.  Opening a log builds the view reader and the view manager and then
proposes this client as the sequencer.
-/

namespace ZLog

/-! ## Installing a view -/

/-- The sequencer that goes with a new view: the one of the current view when the sequencer
    configuration did not change, a new one when it is this client's and new, else none. -/
def attachSequencer (lb : LogBackend) (sh : Shared) (epoch : Nat) (view : View) :
    Except Fault (List Sequencer × Option Nat) :=
  match view.seqConfig with
  | none => .ok (sh.seqs, none)
  | some config =>
    if config.token = lb.token then
      match sh.view with
      | some curr =>
        match curr.seqConfig with
        | some config' =>
          if config'.token = lb.token ∧ config'.epoch = config.epoch then
            match curr.seq with
            | none => .error .assertion
            | some seq => .ok (sh.seqs, some seq)
          else .ok (sh.seqs ++ [⟨epoch, config.position⟩], some sh.seqs.length)
        | none => .ok (sh.seqs ++ [⟨epoch, config.position⟩], some sh.seqs.length)
      | none => .ok (sh.seqs ++ [⟨epoch, config.position⟩], some sh.seqs.length)
    else .ok (sh.seqs, none)

/-- The critical section of `refresh_view`. -/
def installView (lb : LogBackend) (sh : Shared) (epoch : Nat) (view : View) :
    Except Fault Shared :=
  let replace : Except Fault Shared :=
    match attachSequencer lb sh epoch view with
    | .error f => .error f
    | .ok (seqs, seq) => .ok { sh with seqs := seqs, view := some ⟨epoch, view, seq⟩ }
  match sh.view with
  | none => replace
  | some curr =>
    if epoch < curr.epoch then .error .assertion
    else if epoch = curr.epoch then .ok sh
    else replace

/-- `get_latest_view` and the critical section, for a caller with control states `σ`. -/
def installMove {σ : Type} (lb : LogBackend) (sh : Shared) (epoch : Nat) (blob : Fbs.View)
    (next : σ) : Move σ :=
  match View.decode blob with
  | .error _ => .abort
  | .ok view =>
    match installView lb sh epoch view with
    | .error _ => .abort
    | .ok sh' => .memory sh' next

/-! ## The refresh thread -/

/-- Control states of `refresh_entry_`. -/
inductive RefreshPc where
  | idle
  | fetch
  | install (epoch : Nat) (blob : Fbs.View)
  | readView
  | mark (epoch : Nat)
  | exited
  deriving DecidableEq

def refreshEntry (lb : LogBackend) (sh : Shared) : RefreshPc → Option (Move RefreshPc)
  | .idle =>
    -- woken by a waiter, by the timeout or by the shutdown
    if !sh.readerStarted then none
    else if sh.readerShutdown then
      some (.memory { sh with refreshWaiters := [], refreshExited := true } .exited)
    else some (.memory sh .fetch)
  | .fetch =>
    some (.backend (.readViews lb.hoid 0 1) fun
      | .error _ => .readView
      | .ok views =>
        match views.getLast? with
        | none => .readView
        | some (epoch, blob) => .install epoch blob)
  | .install epoch blob => some (installMove lb sh epoch blob .readView)
  | .readView =>
    match sh.view with
    | none => some (.memory sh .idle)
    | some curr => some (.memory sh (.mark curr.epoch))
  | .mark epoch =>
    some (.memory
      { sh with refreshWaiters := sh.refreshWaiters.filter (fun w => ¬ w.epoch < epoch) } .idle)
  | .exited => none

/-! ## Opening and closing -/

/-- Control states of `build_log_impl` and, once the log is open, of the destructor. -/
inductive OpenPc where
  | openLog
  | uniqueId (hoid pfx : String)
  | construct (hoid pfx : String) (id : Nat)
  | fetch
  | install (epoch : Nat) (blob : Fbs.View)
  | checkView
  | propose (pc : ProposePc)
  | checkStripes
  | initStripe
  | opened
  | failed (e : Errno)
  /-- `propose_sequencer` failed: the view manager is destroyed while its threads run. -/
  | crash
  | shutdownManager
  | shutdownReader
  | join
  | closed
  deriving DecidableEq

/-- The token of a client. -/
def makeToken (name hoid host : String) (id : Nat) : String :=
  "zlog.token." ++ name ++ "." ++ hoid ++ "." ++ host ++ "." ++ toString id

/-- The number at the end of a token can be read back. -/
theorem makeToken_injective {name hoid host host' : String} {id id' : Nat}
    (h : makeToken name hoid host id = makeToken name hoid host' id') : id = id' := by
  have hl := congrArg (fun s => s.toList.reverse) h
  simp only [makeToken, String.toList_append, List.reverse_append, List.append_assoc] at hl
  have hdot := Lib.dotFree_repr id
  have hdot' := Lib.dotFree_repr id'
  have hsplit := (Lib.dot_split (a := (toString id).toList.reverse)
    (b := (toString id').toList.reverse) (by simpa [Lib.DotFree] using hdot)
    (by simpa [Lib.DotFree] using hdot') (by simpa using hl)).1
  exact Lib.toString_nat_injective (String.toList_inj.mp (List.reverse_injective hsplit))

def openEntry (name host : String) (options : Options) (created : Bool) (sh : Shared) :
    OpenPc → Option (Move OpenPc)
  | .openLog =>
    some (.backend (.openLog name) fun
      | .ok (hoid, pfx) => if options.errorIfExists then .failed .eexist else .uniqueId hoid pfx
      | .error e => .failed e)
  | .uniqueId hoid pfx =>
    some (.backend (.uniqueId hoid) fun
      | .ok id => .construct hoid pfx id
      | .error e => .failed e)
  | .construct hoid pfx id =>
    some (.memory
      { sh with backend := some ⟨hoid, pfx, makeToken name hoid host id⟩,
                readerStarted := true } .fetch)
  | .fetch =>
    match sh.backend with
    | none => none
    | some lb =>
      some (.backend (.readViews lb.hoid 0 1) fun
        | .error _ => .checkView
        | .ok views =>
          match views.getLast? with
          | none => .checkView
          | some (epoch, blob) => .install epoch blob)
  | .install epoch blob =>
    match sh.backend with
    | none => none
    | some lb => some (installMove lb sh epoch blob .checkView)
  | .checkView =>
    match sh.view with
    | none => some (.memory { sh with readerShutdown := true } (.failed .eio))
    | some _ => some (.memory { sh with managerStarted := true } (.propose .enter))
  | .propose pc =>
    match sh.backend with
    | none => none
    | some lb =>
      Move.inside .propose
        (fun
          | .ok () => if options.initStripeOnCreate && created then .checkStripes else .opened
          | .error _ => .crash)
        (proposeSequencer lb sh pc)
  | .checkStripes =>
    sh.withView fun v => .memory sh (if v.objectMap.empty then .opened else .initStripe)
  | .initStripe => some (.memory { sh with stripeInitPos := sh.stripeInitPos ++ [0] } .opened)
  | .opened => none
  | .failed _ => none
  | .crash => some .abort
  | .shutdownManager => some (.memory { sh with managerShutdown := true } .shutdownReader)
  | .shutdownReader => some (.memory { sh with readerShutdown := true } .join)
  | .join =>
    if sh.refreshExited && sh.expanderExited && sh.stripeInitExited then
      some (.memory sh .closed)
    else none
  | .closed => none

end ZLog
