import ZLog.Client.ViewReader

/-!
# The operations of a log

The `run` methods of the operation classes.  `ReadOp`, `FillOp` and `TrimOp` differ only in the
backend call they make and in the translation of its answer; they are instances of one loop.
-/

namespace ZLog

/-- The operations of the log interface. -/
inductive Request where
  | append (data : String)
  | read (position : Nat)
  | fill (position : Nat)
  | trim (position : Nat)
  | trimTo (position : Nat)
  | checkTail
  deriving DecidableEq

/-- What an operation returns besides its code. -/
inductive Reply where
  | unit
  | position (position : Nat)
  | data (data : String)
  deriving DecidableEq

/-- Control states of an operation.  `position` and `positionEpoch` are the fields of `AppendOp`;
    the other operations keep the position of their request. -/
inductive OpPc where
  | start (position : Nat) (positionEpoch : Option Nat)
  /-- About to read the sequencer. -/
  | sequence (view : VersionedView) (seq : Nat)
  /-- Inside `ViewManager::map`, about to schedule an expansion. -/
  | scheduleExpand (view : VersionedView) (oid : String) (position : Nat)
      (positionEpoch : Option Nat)
  /-- About to make the backend call of the operation. -/
  | io (view : VersionedView) (oid : String) (position : Nat) (positionEpoch : Option Nat)
  /-- About to create the object. -/
  | seal (view : VersionedView) (oid : String) (position : Nat) (positionEpoch : Option Nat)
  | expand (position : Nat) (positionEpoch : Option Nat) (pc : ExpandPc)
  | wait (position : Nat) (positionEpoch : Option Nat) (wait : WaitPc)
  /-- `TrimToOp`: inside `advance_min_valid_position`. -/
  | advance (position : Nat) (pc : AdvancePc)
  /-- `TrimToOp`: the iteration over the stripes. -/
  | walk (view : VersionedView) (position stripeId : Nat)
  | trim (view : VersionedView) (position stripeId : Nat) (oid : String) (full : Bool)
      (rest : List (String × Bool))
  | done (result : Ret Reply)
  deriving DecidableEq

/-- What every `run` starts with: the object of the position, or the way to get one. -/
def mapPosition (sh : Shared) (v : VersionedView) (position : Nat) (positionEpoch : Option Nat) :
    Move OpPc :=
  match v.objectMap.map position with
  | .error _ => .abort
  | .ok (none, _) => .memory sh (.expand position positionEpoch .enter)
  | .ok (some oid, true) => .memory sh (.scheduleExpand v oid position positionEpoch)
  | .ok (some oid, false) => .memory sh (.io v oid position positionEpoch)

/-- The states that all operations share. -/
def commonMove (options : Options) (lb : LogBackend) (sh : Shared) : OpPc → Option (Move OpPc)
  | .scheduleExpand v oid position positionEpoch =>
    some (.memory (asyncExpandView sh (nextPosition v.objectMap.maxPosition))
      (.io v oid position positionEpoch))
  | .expand position positionEpoch pc =>
    Move.inside (.expand position positionEpoch)
      (fun
        | .ok () => .start position positionEpoch
        | .error e => .done (.error e))
      (tryExpandView options lb position sh pc)
  | .wait position positionEpoch wait =>
    Move.inside (.wait position positionEpoch) (fun _ => .start position positionEpoch)
      (waitForNewerView sh wait)
  | _ => none

/-! ## Read, Fill and Trim -/

/-- The loop of `ReadOp`, `FillOp` and `TrimOp`.  `call` is the backend call and `finish`
    translates its answer, where `none` stands for the answers that the loop handles itself:
    `-ESPIPE` and `-ENOENT`. -/
def positionOp {α : Type} (call : String → Nat → Nat → Call Fbs.View (Ret α))
    (finish : Ret α → Ret Reply) (options : Options) (lb : LogBackend) (sh : Shared) :
    OpPc → Option (Move OpPc)
  | .start position positionEpoch =>
    sh.withView fun v => mapPosition sh v position positionEpoch
  | .io v oid position positionEpoch =>
    some (.backend (call (lb.oid oid) v.epoch position) fun
      | .error .espipe => .wait position positionEpoch (.enter v.epoch)
      | .error .enoent => .seal v oid position positionEpoch
      | r => .done (finish r))
  | .seal v oid position positionEpoch =>
    some (.backend (.seal (lb.oid oid) v.epoch) fun
      | .ok () | .error .espipe => .start position positionEpoch
      | .error e => .done (.error e))
  | pc => commonMove options lb sh pc

/-- An answer without data. -/
def finishUnit : Ret Unit → Ret Reply
  | .ok () => .ok .unit
  | .error e => .error e

/-- `ReadOp` reports an unwritten position as `-ENOENT`. -/
def finishRead : Ret String → Ret Reply
  | .ok data => .ok (.data data)
  | .error .erange => .error .enoent
  | .error e => .error e

/-- `LogImpl::Read` -/
def readOp : Options → LogBackend → Shared → OpPc → Option (Move OpPc) :=
  positionOp .read finishRead

/-- `LogImpl::Fill` -/
def fillOp : Options → LogBackend → Shared → OpPc → Option (Move OpPc) :=
  positionOp .fill finishUnit

/-- `LogImpl::Trim` -/
def trimOp : Options → LogBackend → Shared → OpPc → Option (Move OpPc) :=
  positionOp (fun oid epoch position => .trim oid epoch position false false) finishUnit

/-! ## Append -/

/-- `LogImpl::Append` -/
def appendOp (data : String) (options : Options) (lb : LogBackend) (sh : Shared) :
    OpPc → Option (Move OpPc)
  | .start position positionEpoch =>
    sh.withView fun v =>
      match v.seq with
      | none => .memory sh (.done (.error .eio))
      | some i =>
        match sh.seqs[i]? with
        | none => .abort
        | some seq =>
          if positionEpoch = some seq.epoch then mapPosition sh v position positionEpoch
          else .memory sh (.sequence v i)
  | .sequence v i =>
    -- `check_tail(true)`, then the mapping of the new position
    match sh.seqs[i]? with
    | none => some .abort
    | some seq =>
      some (mapPosition { sh with seqs := sh.seqs.set i seq.draw } v seq.tail (some seq.epoch))
  | .io v oid position positionEpoch =>
    some (.backend (.write (lb.oid oid) data v.epoch position) fun
      | .ok () => .done (.ok (.position position))
      | .error .enoent => .seal v oid position positionEpoch
      | .error .espipe => .wait position positionEpoch (.enter v.epoch)
      | .error .erofs => .start position none
      | .error e => .done (.error e))
  | .seal v oid position positionEpoch =>
    some (.backend (.seal (lb.oid oid) v.epoch) fun
      | .ok () => .io v oid position positionEpoch
      | .error .espipe => .start position positionEpoch
      | .error e => .done (.error e))
  | pc => commonMove options lb sh pc

/-! ## CheckTail -/

/-- `LogImpl::CheckTail` -/
def tailOp (sh : Shared) : OpPc → Option (Move OpPc)
  | .start _ _ =>
    sh.withView fun v =>
      match v.seq with
      | none => .memory sh (.done (.error .eio))
      | some i => .memory sh (.sequence v i)
  | .sequence _ i =>
    match sh.seqs[i]? with
    | none => some .abort
    | some seq => some (.memory sh (.done (.ok (.position seq.tail))))
  | _ => none

/-! ## trimTo -/

/-- The loop over the objects of one stripe. -/
def OpPc.trimAll (v : VersionedView) (position stripeId : Nat) : List (String × Bool) → OpPc
  | [] => .walk v position stripeId
  | (oid, full) :: rest => .trim v position stripeId oid full rest

def trimToOp (options : Options) (lb : LogBackend) (sh : Shared) : OpPc → Option (Move OpPc)
  | .start position _ =>
    sh.withView fun v =>
      -- `<=`: the minimum is advanced to the position after this one
      if v.objectMap.minValidPosition ≤ position then .memory sh (.advance position .start)
      else .memory sh (.walk v position 0)
  | .advance position pc =>
    Move.inside (.advance position)
      (fun
        | .ok () => .start position none
        | .error e => .done (.error e))
      (advanceMinValidPosition lb (nextPosition position) sh pc)
  -- the loop over the stripes; the call on each object comes one at a time
  | .walk v position stripeId =>
    match v.objectMap.mapTo position stripeId with
    | .error _ => some .abort
    | .ok .unmapped => some (.memory sh (.expand position none .enter))
    | .ok .done => some (.memory sh (.done (.ok .unit)))
    | .ok (.objects objects stripeId) => some (.memory sh (OpPc.trimAll v position stripeId objects))
  | .trim v position stripeId oid full rest =>
    some (.backend (.trim (lb.oid oid) v.epoch position true full) fun
      | .ok () => OpPc.trimAll v position stripeId rest
      -- a newer view is needed
      | .error .espipe => .wait position none (.enter v.epoch)
      -- the object was never sealed for this view
      | .error .enoent => .seal v oid position none
      | .error e => .done (.error e))
  | .seal v oid position positionEpoch =>
    some (.backend (.seal (lb.oid oid) v.epoch) fun
      | .ok () | .error .espipe => .start position positionEpoch
      | .error e => .done (.error e))
  | pc => commonMove options lb sh pc

/-! ## All operations -/

/-- The `run` method of a request. -/
def Request.run (options : Options) (lb : LogBackend) (sh : Shared) :
    Request → OpPc → Option (Move OpPc)
  | .append data => appendOp data options lb sh
  | .read _ => readOp options lb sh
  | .fill _ => fillOp options lb sh
  | .trim _ => trimOp options lb sh
  | .trimTo _ => trimToOp options lb sh
  | .checkTail => tailOp sh

/-- The state a request starts in. -/
def Request.enter : Request → OpPc
  | .read position => .start position none
  | .fill position => .start position none
  | .trim position => .start position none
  | .trimTo position => .start position none
  | _ => .start 0 none

end ZLog
