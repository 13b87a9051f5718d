import ZLog.Storage.Backend
import ZLog.Lib.OrderedMap
import Mathlib.Data.List.AList

/-!
# The RAM backend

`RAMBackend` keeps one hash table from object names to links, head objects and log objects.
Every public method runs under `lock_`, so a method is one function on the whole state; only
`CreateLog` takes the lock twice and is kept as two functions.

The methods on log objects are split as in the source: the argument checks and `CheckEpoch`
here in `RAMBackend`, the part that works on the `LogObject` the check returned in `LogObject`.
-/

namespace ZLog

/-- One position of a log object. -/
structure LogEntry where
  trimmed : Bool := false
  invalidated : Bool := false
  data : String := ""
  deriving DecidableEq, Repr

/-- A log object: the entries of one object of one stripe. -/
structure LogObject where
  epoch : Nat := 0
  maxpos : Nat := 0
  entries : AList (fun _ : Nat => LogEntry) := ∅
  trimLimit : Option Nat := none

/-- A head object ("hoid"): the views of one log. -/
structure ProjectionObject (ν : Type) where
  epoch : Nat
  pfx : String
  projections : Lib.OrderedMap Nat ν

/-- The value of a key of `objects_`. -/
inductive Object (ν : Type) where
  | link (hoid : String)
  | projection (proj : ProjectionObject ν)
  | log (lobj : LogObject)

/-- The state of the RAM backend, with the static counter behind `uniqueId`. -/
structure RAMBackend (ν : Type) where
  blackhole : Bool := false
  nextUniqueId : Nat := 0
  objects : AList (fun _ : String => Object ν) := ∅

/-! ## Log objects -/

namespace LogObject

/-- `lobj->trim_limit && position <= *lobj->trim_limit` -/
def belowTrimLimit (o : LogObject) (position : Nat) : Bool :=
  match o.trimLimit with
  | some limit => position ≤ limit
  | none => false

/-- What `Read` does once the object is found and the epoch is right. -/
def read (o : LogObject) (position : Nat) : Ret String :=
  if o.belowTrimLimit position then .error .enodata
  else
    match o.entries.lookup position with
    | none => .error .erange
    | some entry =>
      if entry.trimmed || entry.invalidated then .error .enodata
      else .ok entry.data

/-- What `Write` does then. -/
def write (o : LogObject) (data : String) (position : Nat) : Ret Unit × LogObject :=
  if o.belowTrimLimit position then (.error .erofs, o)
  else
    match o.entries.lookup position with
    | none =>
      (.ok (), { o with entries := o.entries.insert position { data := data },
                        maxpos := max o.maxpos position })
    | some _ => (.error .erofs, o)

/-- The entry that `Fill` and `Trim` create at an unwritten position. -/
def junkEntry : LogEntry := { trimmed := true, invalidated := true }

/-- What `Fill` does then. -/
def fill (o : LogObject) (position : Nat) : Ret Unit × LogObject :=
  if o.belowTrimLimit position then (.ok (), o)
  else
    match o.entries.lookup position with
    | none =>
      (.ok (), { o with entries := o.entries.insert position junkEntry,
                        maxpos := max o.maxpos position })
    | some entry =>
      if entry.trimmed || entry.invalidated then (.ok (), o) else (.error .erofs, o)

/-- The first half of `Trim`: raise the trim limit. -/
def raiseTrimLimit (o : LogObject) (position : Nat) : LogObject :=
  match o.trimLimit with
  | some limit => { o with trimLimit := some (max position limit) }
  | none => { o with trimLimit := some position }

/-- The last half of `Trim`: invalidate a single position. -/
def trimEntry (o : LogObject) (position : Nat) : LogObject :=
  match o.entries.lookup position with
  | none =>
    { o with entries := o.entries.insert position junkEntry, maxpos := max o.maxpos position }
  | some entry =>
    { o with entries := o.entries.insert position { entry with trimmed := true, data := "" },
             maxpos := max o.maxpos position }

/-- `Trim` on an object whose epoch was checked; it always returns 0. -/
def trim (o : LogObject) (position : Nat) (trimLimit trimFull : Bool) : LogObject :=
  let o' := if trimLimit then o.raiseTrimLimit position else o
  if trimFull then { o' with entries := ∅ }
  else if o'.belowTrimLimit position then o'
  else o'.trimEntry position

/-- `MaxPos`; `none` when the object is reported empty. -/
def maxPos (o : LogObject) : Option Nat :=
  if o.entries.keys.isEmpty then o.trimLimit
  else
    match o.trimLimit with
    | some limit => some (max o.maxpos limit)
    | none => some o.maxpos

end LogObject

/-! ## Backend methods -/

namespace RAMBackend

variable {ν : Type}

/-- Replaces the log object stored under a key. -/
def setLog (b : RAMBackend ν) (oid : String) (o : LogObject) : RAMBackend ν :=
  { b with objects := b.objects.insert oid (.log o) }

/-- `UniqueId`: one counter for all logs. -/
def uniqueId (b : RAMBackend ν) (hoid : String) : Ret Nat × RAMBackend ν :=
  if hoid = "" then (.error .einval, b)
  else (.ok b.nextUniqueId, { b with nextUniqueId := b.nextUniqueId + 1 })

/-- First critical section of `CreateLog`: the head object of a fresh uuid. -/
def createHead (b : RAMBackend ν) (uuid : String) (view : ν) : Ret Unit × RAMBackend ν :=
  let hoid := "zlog.head." ++ uuid
  match b.objects.lookup hoid with
  | some _ => (.error .assertion, b)
  | none =>
    (.ok (), { b with objects := b.objects.insert hoid (.projection
      { epoch := 1, pfx := "zlog.data." ++ uuid, projections := .singleton 1 view }) })

/-- Second critical section of `CreateLog`: the link from the name to the head object. -/
def createLink (b : RAMBackend ν) (name uuid : String) : Ret Unit × RAMBackend ν :=
  match b.objects.lookup ("head." ++ name) with
  | some _ => (.error .eexist, b)
  | none =>
    (.ok (), { b with objects := b.objects.insert ("head." ++ name) (.link ("zlog.head." ++ uuid)) })

/-- `CreateLog`; `uuid` is the identifier drawn by the random generator. -/
def createLog (b : RAMBackend ν) (name : String) (view : ν) (uuid : String) :
    Ret (String × String) × RAMBackend ν :=
  if name = "" then (.error .einval, b)
  else
    match b.createHead uuid view with
    | (.error e, b) => (.error e, b)
    | (.ok (), b) =>
      match b.createLink name uuid with
      | (.error e, b) => (.error e, b)
      | (.ok (), b) => (.ok ("zlog.head." ++ uuid, "zlog.data." ++ uuid), b)

/-- `OpenLog`: the link, then the head object. -/
def openLog (b : RAMBackend ν) (name : String) : Ret (String × String) :=
  if name = "" then .error .einval
  else
    match b.objects.lookup ("head." ++ name) with
    | none => .error .enoent
    | some (.link hoid) =>
      match b.objects.lookup hoid with
      | none => .error .eio
      | some (.projection proj) => .ok (hoid, proj.pfx)
      | some _ => .error .badKind
    | some _ => .error .badKind

/-- `StartsWith` with `std::string::compare`: all characters of the prefix count. -/
def startsWith (s pfx : String) : Bool := pfx.toList.isPrefixOf s.toList

def listLinks (b : RAMBackend ν) : List String :=
  b.objects.keys.filter (fun key => startsWith key "head.")

/-- `ListHeads`: the keys below the prefix without a dot behind it. -/
def listHeads (b : RAMBackend ν) : List String :=
  b.objects.keys.filter fun key =>
    startsWith key "zlog.head." && !(key.toList.drop "zlog.head.".toList.length).contains '.'

/-- The loop of `ReadViews`: at most `maxViews` bindings, each checked to be the next epoch. -/
def readViewsFrom : List (Nat × ν) → Nat → Nat → Ret (List (Nat × ν))
  | _, _, 0 => .ok []
  | [], _, _ => .ok []
  | (key, view) :: rest, epoch, maxViews + 1 =>
    if key = epoch then
      match readViewsFrom rest (epoch + 1) maxViews with
      | .ok views => .ok ((epoch, view) :: views)
      | .error e => .error e
    else .error .assertion

/-- `ReadViews`: epoch 0 asks for the latest view. -/
def readViews (b : RAMBackend ν) (hoid : String) (epoch maxViews : Nat) :
    Ret (List (Nat × ν)) :=
  if hoid = "" then .error .einval
  else
    match b.objects.lookup hoid with
    | none => .error .enoent
    | some (.projection proj) =>
      if proj.epoch < epoch then .ok []
      else if epoch = 0 then .ok proj.projections.last?.toList
      else if (proj.projections.find? epoch).isNone then .error .eio
      else
        readViewsFrom (proj.projections.toList.dropWhile (fun kv => kv.1 ≠ epoch)) epoch maxViews
    | some _ => .error .badKind

/-- `ProposeView`: only the next epoch is accepted. -/
def proposeView (b : RAMBackend ν) (hoid : String) (epoch : Nat) (view : ν) :
    Ret Unit × RAMBackend ν :=
  if hoid = "" then (.error .einval, b)
  else if epoch = 0 then (.error .einval, b)
  else
    match b.objects.lookup hoid with
    | none => (.error .enoent, b)
    | some (.projection proj) =>
      if proj.epoch + 1 < epoch then (.error .einval, b)
      else if epoch ≠ proj.epoch + 1 then (.error .espipe, b)
      else if (proj.projections.find? epoch).isSome then (.error .eexist, b)
      else
        (.ok (), { b with objects := b.objects.insert hoid (.projection
          { proj with epoch := epoch, projections := proj.projections.emplace epoch view }) })
    | some _ => (.error .badKind, b)

/-- `CheckEpoch`: for equality, or for an epoch that is not old. -/
def checkEpoch (b : RAMBackend ν) (epoch : Nat) (oid : String) (eq : Bool) : Ret LogObject :=
  match b.objects.lookup oid with
  | none => .error .enoent
  | some (.log lobj) =>
    if eq then
      if epoch ≠ lobj.epoch then .error .espipe else .ok lobj
    else if epoch < lobj.epoch then .error .espipe
    else .ok lobj
  | some _ => .error .badKind

/-- The checks that `Read`, `Write`, `Trim` and `Fill` start with. -/
def checkIo (b : RAMBackend ν) (oid : String) (epoch : Nat) : Ret LogObject :=
  if oid = "" then .error .einval
  else if epoch = 0 then .error .einval
  else b.checkEpoch epoch oid false

def read (b : RAMBackend ν) (oid : String) (epoch position : Nat) : Ret String :=
  match b.checkIo oid epoch with
  | .error e => .error e
  | .ok lobj => lobj.read position

/-- `Write`: with the option `blackhole` the data is dropped. -/
def write (b : RAMBackend ν) (oid data : String) (epoch position : Nat) :
    Ret Unit × RAMBackend ν :=
  match b.checkIo oid epoch with
  | .error e => (.error e, b)
  | .ok lobj =>
    match lobj.write (if b.blackhole then "" else data) position with
    | (.ok (), lobj') => (.ok (), b.setLog oid lobj')
    | (.error e, _) => (.error e, b)

/-- `Trim`, with its flags. -/
def trim (b : RAMBackend ν) (oid : String) (epoch position : Nat) (trimLimit trimFull : Bool) :
    Ret Unit × RAMBackend ν :=
  if trimFull && !trimLimit then (.error .einval, b)
  else
    match b.checkIo oid epoch with
    | .error e => (.error e, b)
    | .ok lobj => (.ok (), b.setLog oid (lobj.trim position trimLimit trimFull))

def fill (b : RAMBackend ν) (oid : String) (epoch position : Nat) : Ret Unit × RAMBackend ν :=
  match b.checkIo oid epoch with
  | .error e => (.error e, b)
  | .ok lobj =>
    match lobj.fill position with
    | (.ok (), lobj') => (.ok (), b.setLog oid lobj')
    | (.error e, _) => (.error e, b)

/-- `Seal`: an existing object keeps its epoch unless the new one is larger. -/
def «seal» (b : RAMBackend ν) (oid : String) (epoch : Nat) : Ret Unit × RAMBackend ν :=
  if oid = "" then (.error .einval, b)
  else if epoch = 0 then (.error .einval, b)
  else
    match b.objects.lookup oid with
    | none => (.ok (), b.setLog oid { epoch := epoch })
    | some (.log lobj) =>
      if epoch ≤ lobj.epoch then (.error .espipe, b)
      else (.ok (), b.setLog oid { lobj with epoch := epoch })
    | some _ => (.error .badKind, b)

/-- `MaxPos`: the greatest entry, or the trim limit. -/
def maxPos (b : RAMBackend ν) (oid : String) : Ret (Option Nat) :=
  if oid = "" then .error .einval
  else
    match b.objects.lookup oid with
    | none => .error .enoent
    | some (.log lobj) => .ok lobj.maxPos
    | some _ => .error .badKind

/-- One call, as one atomic step. -/
def exec (b : RAMBackend ν) : {α : Type} → Call ν α → α × RAMBackend ν
  | _, .openLog name => (b.openLog name, b)
  | _, .uniqueId hoid => b.uniqueId hoid
  | _, .readViews hoid epoch maxViews => (b.readViews hoid epoch maxViews, b)
  | _, .proposeView hoid epoch view => b.proposeView hoid epoch view
  | _, .read oid epoch position => (b.read oid epoch position, b)
  | _, .write oid data epoch position => b.write oid data epoch position
  | _, .fill oid epoch position => b.fill oid epoch position
  | _, .trim oid epoch position trimLimit trimFull =>
    b.trim oid epoch position trimLimit trimFull
  | _, .seal oid epoch => b.seal oid epoch
  | _, .maxPos oid => (b.maxPos oid, b)
  | _, .skip => ((), b)

end RAMBackend

end ZLog
