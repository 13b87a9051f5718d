import ZLog.Client.LogOps
import ZLog.Storage.Names
import ZLog.Lib.Transition

/-!
# Clients on one log

The whole system: the RAM backend and any number of clients that open one log.  An action is a
step of one thread of one client, a new client, a new operation on an open log, or the closing
of a log with no operation in flight.  Operations are recorded with the time of their
invocation and of their return, so that statements about the order of operations are statements
about one state.

The log exists from the start; the first client is the one that created it.  The backend is that of
`RAMBackend` without its option `blackhole`, with which it would drop the data of the entries.
-/

namespace ZLog

/-- The name of a host, which contains no NUL. -/
structure Host where
  text : String
  nulFree : '\x00' ∉ text.toList

/-- The control state of a thread. -/
inductive Pc where
  | opener (pc : OpenPc)
  | refresh (pc : RefreshPc)
  | expander (pc : ExpanderPc)
  | stripeInit (pc : StripeInitPc)
  | op (request : Request) (pc : OpPc)
  deriving DecidableEq

/-- The result of an operation that returned. -/
def Pc.result : Pc → Option (Ret Reply)
  | .op _ (.done result) => some result
  | _ => none

/-- A thread.  `created` records the entries that its backend calls created. -/
structure Thread where
  pc : Pc
  invokedAt : Nat
  doneAt : Option Nat := none
  created : List (String × Nat) := []
  deriving DecidableEq

structure Client where
  options : Options
  host : Host
  /-- This client created the log. -/
  created : Bool
  shared : Shared := {}
  threads : List Thread

structure World where
  name : String
  backend : RAMBackend Fbs.View
  clients : List Client
  clock : Nat := 0

/-! ## Threads -/

/-- The move of a thread of a client. -/
def Pc.move (name : String) (c : Client) : Pc → Option (Move Pc)
  | .opener pc =>
    (openEntry name c.host.text c.options c.created c.shared pc).map (Move.map .opener)
  | .refresh pc =>
    match c.shared.backend with
    | none => none
    | some lb => (refreshEntry lb c.shared pc).map (Move.map .refresh)
  | .expander pc =>
    match c.shared.backend with
    | none => none
    | some lb => (expanderEntry c.options lb c.shared pc).map (Move.map .expander)
  | .stripeInit pc =>
    match c.shared.backend with
    | none => none
    | some lb => (stripeInitEntry lb c.shared pc).map (Move.map .stripeInit)
  | .op request pc =>
    match c.shared.backend with
    | none => none
    | some lb => (request.run c.options lb c.shared pc).map (Move.map (.op request))

/-- The threads of a new client. -/
def Client.newThreads (pc : OpenPc) (clock : Nat) : List Thread :=
  [⟨.opener pc, clock, none, []⟩, ⟨.refresh .idle, clock, none, []⟩,
    ⟨.expander .idle, clock, none, []⟩, ⟨.stripeInit .idle, clock, none, []⟩]

/-- A client that starts to open the log. -/
def Client.new (options : Options) (host : Host) (clock : Nat) : Client :=
  ⟨options, host, false, {}, Client.newThreads .openLog clock⟩

/-- The log is open and the process is alive. -/
def Client.isOpen (c : Client) : Bool :=
  !c.shared.aborted && c.threads.any (fun t => t.pc = .opener .opened)

/-- Some operation has not returned yet. -/
def Client.busy (c : Client) : Bool :=
  c.threads.any (fun t => match t.pc with
    | .op _ (.done _) => false
    | .op _ _ => true
    | _ => false)

/-- The entries of all objects. -/
def entryKeys (b : RAMBackend Fbs.View) : List (String × Nat) :=
  b.objects.entries.flatMap fun object =>
    match object.2 with
    | .log o => o.entries.keys.map (fun position => (object.1, position))
    | _ => []

/-- The entries that exist after a call and did not exist before. -/
def newEntries (before after : RAMBackend Fbs.View) : List (String × Nat) :=
  (entryKeys after).filter (fun key => key ∉ entryKeys before)

/-- The thread after a step. -/
def Thread.goto (t : Thread) (clock : Nat) (pc : Pc) (created : List (String × Nat)) : Thread :=
  { t with pc := pc, doneAt := if pc.result.isSome then some clock else none,
           created := t.created ++ created }

/-! ## Actions -/

inductive Action where
  | «open» (options : Options) (host : Host)
  | invoke (client : Nat) (request : Request)
  | close (client : Nat)
  | run (client thread : Nat)

namespace World

/-- Replaces a client and advances the clock. -/
def setClient (w : World) (cid : Nat) (c : Client) : World :=
  { w with clients := w.clients.set cid c, clock := w.clock + 1 }

/-- Executes the move of a thread. -/
def runMove (w : World) (cid tid : Nat) (c : Client) (t : Thread) : Move Pc → World
  | .abort => w.setClient cid { c with shared := { c.shared with aborted := true } }
  | .memory shared pc =>
    w.setClient cid { c with shared := shared, threads := c.threads.set tid (t.goto w.clock pc []) }
  | .backend call next =>
    let (reply, backend) := w.backend.exec call
    { w.setClient cid { c with
        threads := c.threads.set tid
          (t.goto w.clock (next reply) (newEntries w.backend backend)) } with backend := backend }

/-- One action; `none` when it is not enabled. -/
def step (w : World) : Action → Option World
  | .open options host =>
    some { w with clients := w.clients ++ [Client.new options host w.clock], clock := w.clock + 1 }
  | .invoke cid request =>
    match w.clients[cid]? with
    | none => none
    | some c =>
      if c.isOpen then
        some (w.setClient cid
          { c with threads := c.threads ++ [⟨.op request request.enter, w.clock, none, []⟩] })
      else none
  | .close cid =>
    match w.clients[cid]? with
    | none => none
    | some c =>
      if c.isOpen && !c.busy then
        some (w.setClient cid
          { c with threads := c.threads.map (fun t =>
              if t.pc = .opener .opened then { t with pc := .opener .shutdownManager } else t) })
      else none
  | .run cid tid =>
    match w.clients[cid]? with
    | none => none
    | some c =>
      if c.shared.aborted then none
      else
        match c.threads[tid]? with
        | none => none
        | some t =>
          match t.pc.move w.name c with
          | none => none
          | some move => some (w.runMove cid tid c t move)

/-- The world in which the first client has just created the log.  The backend stores what it is
    given: its option `blackhole` is off. -/
def init (name : String) (uuid : Uuid) (options : Options) (host : Host) : Option World :=
  match View.createInitial options with
  | .error _ => none
  | .ok blob =>
    match ({} : RAMBackend Fbs.View).createLog name blob uuid.text with
    | (.ok (hoid, pfx), backend) =>
      some { name := name, backend := backend,
             clients := [⟨options, host, true, {},
               Client.newThreads (.uniqueId hoid pfx) 0⟩], clock := 1 }
    | (.error _, _) => none

end World

end ZLog
