import ZLog.Mapping.View
import ZLog.Storage.Ram

/-!
# The state a client's threads share

A client is a process with several threads: the one that opens the log, the view refresh
thread, the view expander thread, the stripe initialisation thread, and one thread per running
operation.  Each thread is a state machine.  One step of a thread is either one backend call or
one access to the memory the threads share (one critical section of a lock, or one atomic
access); between two such points a thread only computes.  `Move` is the step a thread is ready
to take.
-/

namespace ZLog

/-- `LogBackend`: a backend with the names of one log and the token of this client. -/
structure LogBackend where
  hoid : String
  pfx : String
  token : String
  deriving DecidableEq

/-- The name of an object of the log as the backend knows it. -/
def LogBackend.oid (lb : LogBackend) (oid : String) : String := lb.pfx ++ "." ++ oid

/-- `position + 1` in `uint64_t`. -/
def nextPosition (position : Nat) : Nat := (position + 1) % 2 ^ 64

/-- `Sequencer`; clients share it through pointers, here indices into `Shared.seqs`.  `position` is
    the initial value of `seq_` plus the number of draws; the atomic itself wraps (`tail`). -/
structure Sequencer where
  epoch : Nat
  position : Nat
  deriving DecidableEq

/-- What the `std::atomic<uint64_t>` holds: what `check_tail` returns. -/
def Sequencer.tail (seq : Sequencer) : Nat := seq.position % 2 ^ 64

/-- The sequencer after `check_tail(true)`. -/
def Sequencer.draw (seq : Sequencer) : Sequencer := { seq with position := seq.position + 1 }

structure VersionedView where
  epoch : Nat
  view : View
  seq : Option Nat
  deriving DecidableEq

def VersionedView.objectMap (v : VersionedView) : ObjectMap := v.view.objectMap

def VersionedView.seqConfig (v : VersionedView) : Option SequencerConfig := v.view.seqConfig

/-- `RefreshWaiter`; it is done when it is no longer in the list of waiters. -/
structure RefreshWaiter where
  id : Nat
  epoch : Nat
  deriving DecidableEq

/-- The memory shared by the threads of a client. -/
structure Shared where
  backend : Option LogBackend := none
  /-- `ViewReader::view_` -/
  view : Option VersionedView := none
  seqs : List Sequencer := []
  refreshWaiters : List RefreshWaiter := []
  nextWaiter : Nat := 0
  readerStarted : Bool := false
  readerShutdown : Bool := false
  managerStarted : Bool := false
  managerShutdown : Bool := false
  /-- `ViewManager::expand_pos_` -/
  expandPos : Option Nat := none
  /-- `ViewManager::stripe_init_pos_` -/
  stripeInitPos : List Nat := []
  /-- Threads that returned from their entry functions. -/
  refreshExited : Bool := false
  expanderExited : Bool := false
  stripeInitExited : Bool := false
  /-- The process died on a failed assertion. -/
  aborted : Bool := false
  deriving DecidableEq

/-! ## Moves -/

/-- The next step of a thread with control states `σ`. -/
inductive Move (σ : Type) : Type 1 where
  /-- One backend call. -/
  | backend {α : Type} (call : Call Fbs.View α) (next : α → σ)
  /-- One access to the shared memory. -/
  | memory (shared : Shared) (next : σ)
  /-- The process dies. -/
  | abort

/-- The outcome of a step inside a called function: it goes on, or it returns. -/
inductive Next (σ ρ : Type) where
  | goto (s : σ)
  | ret (r : ρ)

variable {σ τ ρ : Type}

def Next.elim (goto : σ → τ) (ret : ρ → τ) : Next σ ρ → τ
  | .goto s => goto s
  | .ret r => ret r

def Move.map (f : σ → τ) : Move σ → Move τ
  | .backend call next => .backend call (fun r => f (next r))
  | .memory shared next => .memory shared (f next)
  | .abort => .abort

/-- A step of a called function as a step of its caller. -/
def Move.inside (goto : σ → τ) (ret : ρ → τ) (m : Option (Move (Next σ ρ))) : Option (Move τ) :=
  m.map (Move.map (Next.elim goto ret))

/-- Reads `view_`; a null pointer is dereferenced at once by every reader. -/
def Shared.withView (sh : Shared) (k : VersionedView → Move σ) : Option (Move σ) :=
  match sh.view with
  | none => some .abort
  | some v => some (k v)

/-! ## Waiting for a newer view -/

/-- `ViewReader::wait_for_newer_view` -/
inductive WaitPc where
  | enter (epoch : Nat)
  | blocked (waiter : RefreshWaiter)
  deriving DecidableEq

def waitForNewerView (sh : Shared) : WaitPc → Option (Move (Next WaitPc Unit))
  | .enter epoch =>
    if sh.readerShutdown then some (.memory sh (.ret ()))
    else
      let waiter : RefreshWaiter := ⟨sh.nextWaiter, epoch⟩
      some (.memory
        { sh with refreshWaiters := sh.refreshWaiters ++ [waiter],
                  nextWaiter := sh.nextWaiter + 1 }
        (.goto (.blocked waiter)))
  | .blocked waiter =>
    if waiter ∈ sh.refreshWaiters then none else some (.memory sh (.ret ()))

end ZLog
