import ZLog.Client.LogOps

/-!
# The loop of trimTo for a client that is alone

While nothing else runs on the log, a call into the view manager or the backend is one step that
returns, and `TrimToOp::run` is a sequential loop over such calls.  The sequencer that belongs to a
view plays no role here.
-/

namespace ZLog

/-- The backend, and the current view of the client. -/
structure Alone where
  backend : RAMBackend Fbs.View
  view : VersionedView

namespace Alone

/-- `update_current_view`: the view reader installs the latest stored view. -/
def updateCurrentView (lb : LogBackend) (s : Alone) : Except Fault Alone :=
  match s.backend.readViews lb.hoid 0 1 with
  | .error _ => .ok s
  | .ok views =>
    match views.getLast? with
    | none => .ok s
    | some (epoch, blob) =>
      match View.decode blob with
      | .error f => .error f
      | .ok view =>
        if epoch < s.view.epoch then .error .assertion
        else if epoch = s.view.epoch then .ok s
        else .ok { s with view := ⟨epoch, view, none⟩ }

/-- `advance_min_valid_position` -/
def advanceMinValidPosition (lb : LogBackend) (position : Nat) (s : Alone) :
    Except Fault (Ret Unit × Alone) :=
  let currView := s.view
  match currView.view.advanceMinValidPosition position with
  | none => .ok (.ok (), s)
  | some newView =>
    match s.backend.proposeView lb.hoid (currView.epoch + 1) newView.encode with
    | (.ok (), backend) | (.error .espipe, backend) =>
      match updateCurrentView lb { s with backend := backend } with
      | .error f => .error f
      | .ok s => .ok (.ok (), s)
    | (.error e, backend) => .ok (.error e, { s with backend := backend })

/-- `try_expand_view` with the given number of retries left. -/
def tryExpandView (options : Options) (lb : LogBackend) (position : Nat) :
    Nat → Alone → Except Fault (Ret Unit × Alone)
  | 0, s => .ok (.ok (), s)
  | retries + 1, s =>
    let currView := s.view
    match currView.view.expandMapping position options with
    | .error f => .error f
    | .ok none => .ok (.ok (), s)
    | .ok (some newView) =>
      match s.backend.proposeView lb.hoid (currView.epoch + 1) newView.encode with
      | (.ok (), backend) =>
        match updateCurrentView lb { s with backend := backend } with
        | .error f => .error f
        | .ok s => .ok (.ok (), s)
      | (.error .espipe, backend) =>
        match updateCurrentView lb { s with backend := backend } with
        | .error f => .error f
        | .ok s => tryExpandView options lb position retries s
      | (.error e, backend) => .ok (.error e, { s with backend := backend })

end Alone

/-- Where `TrimToOp::run` is. -/
inductive TrimToPc where
  /-- At the top of the outer loop. -/
  | start
  /-- At the top of the inner loop. -/
  | walk (view : VersionedView) (stripeId : Nat)
  /-- In the loop over the objects that `map_to` returned. -/
  | trim (view : VersionedView) (stripeId : Nat) (objects : List (String × Bool))
  | done (ret : Ret Unit)

namespace TrimToOp

/-- One step of `TrimToOp::run`. -/
def step (options : Options) (lb : LogBackend) (position : Nat) :
    TrimToPc × Alone → Except Fault (TrimToPc × Alone)
  | (.start, s) =>
    if s.view.objectMap.minValidPosition ≤ position then
      match s.advanceMinValidPosition lb (nextPosition position) with
      | .error f => .error f
      | .ok (.ok (), s) => .ok (.start, s)
      | .ok (.error e, s) => .ok (.done (.error e), s)
    else .ok (.walk s.view 0, s)
  | (.walk view stripeId, s) =>
    match view.objectMap.mapTo position stripeId with
    | .error f => .error f
    | .ok .done => .ok (.done (.ok ()), s)
    | .ok .unmapped =>
      match s.tryExpandView options lb position 7 with
      | .error f => .error f
      | .ok (.ok (), s) => .ok (.start, s)
      | .ok (.error e, s) => .ok (.done (.error e), s)
    | .ok (.objects objects stripeId) => .ok (.trim view stripeId objects, s)
  | (.trim view stripeId [], s) => .ok (.walk view stripeId, s)
  | (.trim view stripeId ((oid, full) :: rest), s) =>
    match s.backend.trim (lb.oid oid) view.epoch position true full with
    | (.ok (), backend) => .ok (.trim view stripeId rest, { s with backend := backend })
    | (.error .espipe, backend) =>
      match Alone.updateCurrentView lb { s with backend := backend } with
      | .error f => .error f
      | .ok s => .ok (.start, s)
    | (.error .enoent, backend) =>
      match backend.seal (lb.oid oid) view.epoch with
      | (.ok (), backend) | (.error .espipe, backend) => .ok (.start, { s with backend := backend })
      | (.error e, backend) => .ok (.done (.error e), { s with backend := backend })
    | (.error e, backend) => .ok (.done (.error e), { s with backend := backend })
  | (.done ret, s) => .ok (.done ret, s)

end TrimToOp

end ZLog
