import ZLog.Storage.Backend
import Mathlib.Data.List.AList

/-!
# The LMDB backend

`LMDBBackend` keeps everything in one ordered key/value database: a head record and one record
per view for each log, and for each log object an object record, a max-position record and one
record per entry.  The trim limit of the object record is a signed integer whose negative
values mean that there is none.

Every method runs in one transaction.  A transaction that is aborted leaves the database as it
was; one that is committed replaces it.  Records are read by casting the stored bytes, guarded
by assertions on their size; a record of another kind than expected is `badKind` here.
-/

namespace ZLog

/-- A record of the database. -/
inductive Record (ν : Type) where
  | link (hoid : String)
  | projection (epoch uniqueId : Nat) (pfx : String)
  | view (view : ν)
  | log (epoch : Nat) (trimLimit : Int)
  | maxPos (maxpos : Nat)
  | entry (trimmed invalidated : Bool) (position : Nat) (data : String)

/-- The content of the database `objs`. -/
structure LMDBBackend (ν : Type) where
  db : AList (fun _ : String => Record ν) := ∅

namespace LMDBBackend

variable {ν : Type}

/-! ## Keys -/

/-- The key of an entry. -/
def logEntryKey (oid : String) (position : Nat) : String :=
  oid ++ ".entry." ++ toString position

/-- The key of the maximum position. -/
def maxPosKey (oid : String) : String := oid ++ ".maxpos"

/-- The key of a view. -/
def projectionKey (hoid : String) (epoch : Nat) : String := hoid ++ "." ++ toString epoch

/-! ## Transactions -/

/-- The record under a key. -/
def get (b : LMDBBackend ν) (key : String) : Option (Record ν) := b.db.lookup key

/-- Puts a record, whether there is one or not. -/
def put (b : LMDBBackend ν) (key : String) (r : Record ν) : LMDBBackend ν :=
  { b with db := b.db.insert key r }

theorem get_put_self (b : LMDBBackend ν) (key : String) (r : Record ν) :
    (b.put key r).get key = some r := AList.lookup_insert _

theorem get_put_of_ne (b : LMDBBackend ν) {key key' : String} (hne : key' ≠ key) (r : Record ν) :
    (b.put key r).get key' = b.get key' := AList.lookup_insert_ne hne

theorem get_put_eq (b : LMDBBackend ν) (key key' : String) (r : Record ν) :
    (b.put key r).get key' = if key' = key then some r else b.get key' := by
  by_cases h : key' = key
  · rw [h, if_pos rfl, get_put_self]
  · rw [if_neg h, get_put_of_ne b h]

/-- `Put` with `exclusive` set: `none` is `-EEXIST`. -/
def putNew (b : LMDBBackend ν) (key : String) (r : Record ν) : Option (LMDBBackend ν) :=
  match b.get key with
  | some _ => none
  | none => some (b.put key r)

/-- `strncmp(s, t, n) == 0`, on the characters of two C strings. -/
def strncmpEq : Nat → List Char → List Char → Bool
  | 0, _, _ => true
  | _ + 1, [], [] => true
  | _ + 1, [], c :: _ => c == '\x00'
  | _ + 1, c :: _, [] => c == '\x00'
  | n + 1, c :: cs, d :: ds => c == d && (c == '\x00' || strncmpEq n cs ds)

/-- `StartsWith`: `strncmp` over the length of the prefix. -/
def startsWith (key pfx : String) : Bool :=
  pfx.toList.length ≤ key.toList.length && strncmpEq pfx.toList.length key.toList pfx.toList

/-- `GetAll`: the keys a cursor over the whole database finds below a prefix. -/
def getAll (b : LMDBBackend ν) (pfx : String) : List String :=
  b.db.keys.filter (fun key => startsWith key pfx)

/-- Deletes a record. -/
def delete (b : LMDBBackend ν) (key : String) : LMDBBackend ν := { b with db := b.db.erase key }

/-! ## Logs and views -/

/-- `UniqueId`: the counter is in the head object's record. -/
def uniqueId (b : LMDBBackend ν) (hoid : String) : Ret Nat × LMDBBackend ν :=
  if hoid = "" then (.error .einval, b)
  else
    match b.get hoid with
    | none => (.error .enoent, b)
    | some (.projection epoch id pfx) => (.ok id, b.put hoid (.projection epoch (id + 1) pfx))
    | some _ => (.error .badKind, b)

/-- `CreateLog`; `uuid` is the identifier drawn by the random generator. -/
def createLog (b : LMDBBackend ν) (name : String) (view : ν) (uuid : String) :
    Ret (String × String) × LMDBBackend ν :=
  if name = "" then (.error .einval, b)
  else
    let hoid := "zlog.head." ++ uuid
    let pfx := "zlog.data." ++ uuid
    match b.putNew hoid (.projection 1 0 pfx) with
    | none => (.error .eio, b)
    | some b₁ =>
      match b₁.putNew (projectionKey hoid 1) (.view view) with
      | none => (.error .eexist, b)
      | some b₂ =>
        match b₂.putNew ("head." ++ name) (.link hoid) with
        | none => (.error .eexist, b)
        | some b₃ => (.ok (hoid, pfx), b₃)

/-- `OpenLog`: the link, then the head object. -/
def openLog (b : LMDBBackend ν) (name : String) : Ret (String × String) :=
  if name = "" then .error .einval
  else
    match b.get ("head." ++ name) with
    | none => .error .enoent
    | some (.link hoid) =>
      match b.get hoid with
      | none => .error .enoent
      | some (.projection _ _ pfx) => .ok (hoid, pfx)
      | some _ => .error .badKind
    | some _ => .error .badKind

def listLinks (b : LMDBBackend ν) : List String := b.getAll "head."

/-- `ListHeads`: the keys below the prefix without a dot behind it. -/
def listHeads (b : LMDBBackend ν) : List String :=
  (b.getAll "zlog.head.").filter fun key =>
    !(key.toList.drop "zlog.head.".toList.length).contains '.'

/-- The loop of `ReadViews`, bounded by `maxViews`. -/
def readViewsFrom (b : LMDBBackend ν) (hoid : String) : Nat → Nat → Ret (List (Nat × ν))
  | _, 0 => .ok []
  | epoch, maxViews + 1 =>
    match b.get (projectionKey hoid epoch) with
    | none => .ok []
    | some (.view view) =>
      match readViewsFrom b hoid (epoch + 1) maxViews with
      | .ok views => .ok ((epoch, view) :: views)
      | .error e => .error e
    | some _ => .error .badKind

def readViews (b : LMDBBackend ν) (hoid : String) (epoch maxViews : Nat) :
    Ret (List (Nat × ν)) :=
  if hoid = "" then .error .einval
  else
    match b.get hoid with
    | none => .error .enoent
    | some (.projection current _ _) =>
      -- nothing newer than what the caller has
      if current < epoch then .ok []
      -- the latest view
      else if epoch = 0 then
        if current = 0 then .ok []
        else
          match b.get (projectionKey hoid current) with
          | none => .error .eio
          | some (.view view) => .ok [(current, view)]
          | some _ => .error .badKind
      else b.readViewsFrom hoid epoch maxViews
    | some _ => .error .badKind

/-- `ProposeView`, as one atomic and isolated transaction.  The code writes the epoch of the head
    record in place, in the page of the database, before it puts the view and commits; that a
    reader might see the epoch without its view is not modelled. -/
def proposeView (b : LMDBBackend ν) (hoid : String) (epoch : Nat) (view : ν) :
    Ret Unit × LMDBBackend ν :=
  if hoid = "" then (.error .einval, b)
  else if epoch = 0 then (.error .einval, b)
  else
    match b.get hoid with
    | none => (.error .enoent, b)
    | some (.projection current id pfx) =>
      -- an epoch from the future
      if current + 1 < epoch then (.error .einval, b)
      -- an epoch that is taken
      else if epoch ≠ current + 1 then (.error .espipe, b)
      else
        match b.putNew (projectionKey hoid epoch) (.view view) with
        | none => (.error .eexist, b)
        | some b₁ => (.ok (), b₁.put hoid (.projection epoch id pfx))
    | some _ => (.error .badKind, b)

/-! ## Log objects -/

/-- `CheckEpoch` and the read of the object record that follows it. -/
def checkEpoch (b : LMDBBackend ν) (epoch : Nat) (oid : String) (eq : Bool) : Ret (Nat × Int) :=
  match b.get oid with
  | none => .error .enoent
  | some (.log current trimLimit) =>
    if eq then
      if epoch ≠ current then .error .espipe else .ok (current, trimLimit)
    else if epoch < current then .error .espipe
    else .ok (current, trimLimit)
  | some _ => .error .badKind

/-- The checks that `Read`, `Write`, `Trim` and `Fill` start with. -/
def checkIo (b : LMDBBackend ν) (oid : String) (epoch : Nat) : Ret (Nat × Int) :=
  if oid = "" then .error .einval
  else if epoch = 0 then .error .einval
  else b.checkEpoch epoch oid false

/-- `lobj.trim_limit >= 0 && position <= uint64_t(lobj.trim_limit)` -/
def belowTrimLimit (trimLimit : Int) (position : Nat) : Bool :=
  0 ≤ trimLimit && position ≤ toUInt64 trimLimit

/-- The stored maximum position, 0 when there is no record. -/
def readMaxPos (b : LMDBBackend ν) (oid : String) : Ret Nat :=
  match b.get (maxPosKey oid) with
  | none => .ok 0
  | some (.maxPos pos) => .ok pos
  | some _ => .error .badKind

/-- Stores an entry and raises the maximum position. -/
def putEntry (b : LMDBBackend ν) (oid : String) (position : Nat) (r : Record ν) (pos : Nat) :
    LMDBBackend ν :=
  (b.put (maxPosKey oid) (.maxPos (max pos position))).put (logEntryKey oid position) r

/-- `Write`: the entry is put with `MDB_NOOVERWRITE`. -/
def write (b : LMDBBackend ν) (oid data : String) (epoch position : Nat) :
    Ret Unit × LMDBBackend ν :=
  match b.checkIo oid epoch with
  | .error e => (.error e, b)
  | .ok (_, trimLimit) =>
    if belowTrimLimit trimLimit position then (.error .erofs, b)
    else
      match b.readMaxPos oid with
      | .error e => (.error e, b)
      | .ok pos =>
        match b.putNew (logEntryKey oid position) (.entry false false position data) with
        | none => (.error .erofs, b)
        | some b₁ => (.ok (), b₁.put (maxPosKey oid) (.maxPos (max pos position)))

def read (b : LMDBBackend ν) (oid : String) (epoch position : Nat) : Ret String :=
  match b.checkIo oid epoch with
  | .error e => .error e
  | .ok (_, trimLimit) =>
    if belowTrimLimit trimLimit position then .error .enodata
    else
      match b.get (logEntryKey oid position) with
      | none => .error .erange
      | some (.entry trimmed invalidated position' data) =>
        if position' ≠ position then .error .assertion
        else if trimmed || invalidated then .error .enodata
        else .ok data
      | some _ => .error .badKind

/-- The last part of `Trim`: mark a single position. -/
def trimEntry (b : LMDBBackend ν) (oid : String) (position : Nat) : Ret (LMDBBackend ν) :=
  match b.get (logEntryKey oid position) with
  | none =>
    match b.readMaxPos oid with
    | .error e => .error e
    | .ok pos => .ok (b.putEntry oid position (.entry true false position "") pos)
  | some (.entry _ invalidated position' _) =>
    if position' ≠ position then .error .assertion
    else
      match b.readMaxPos oid with
      | .error e => .error e
      | .ok pos => .ok (b.putEntry oid position (.entry true invalidated position "") pos)
  | some _ => .error .badKind

def trim (b : LMDBBackend ν) (oid : String) (epoch position : Nat) (trimLimit trimFull : Bool) :
    Ret Unit × LMDBBackend ν :=
  if trimFull && !trimLimit then (.error .einval, b)
  else
    match b.checkIo oid epoch with
    | .error e => (.error e, b)
    | .ok (current, limit) =>
      -- the limit is stored in an `int64_t`, it only rises
      let limit' :=
        if trimLimit then
          if 0 ≤ limit then toInt64 (max position (toUInt64 limit)) else toInt64 position
        else limit
      let b₁ := b.put oid (.log current limit')
      -- the entries are deleted by a scan over their keys
      if trimFull then
        (.ok (), (b₁.getAll (oid ++ ".entry.")).foldl delete b₁)
      else if belowTrimLimit limit' position then (.ok (), b₁)
      -- `assert` of the source: the new limit covers the position
      else if trimLimit then (.error .assertion, b)
      else
        match b₁.trimEntry oid position with
        -- a single position
        | .error e => (.error e, b)
        | .ok b₂ => (.ok (), b₂)

def fill (b : LMDBBackend ν) (oid : String) (epoch position : Nat) :
    Ret Unit × LMDBBackend ν :=
  match b.checkIo oid epoch with
  | .error e => (.error e, b)
  | .ok (_, trimLimit) =>
    if belowTrimLimit trimLimit position then (.ok (), b)
    else
      match b.get (logEntryKey oid position) with
      | some (.entry trimmed invalidated position' _) =>
        -- `assert` of the source: the record is the one of this position
        if position' ≠ position then (.error .assertion, b)
        else if trimmed || invalidated then (.ok (), b)
        else (.error .erofs, b)
      | some _ => (.error .badKind, b)
      -- never written: a dead entry is stored
      | none =>
        match b.readMaxPos oid with
        | .error e => (.error e, b)
        | .ok pos => (.ok (), b.putEntry oid position (.entry true true position "") pos)

/-- `MaxPos`: the stored maximum and the limit, whichever is greater. -/
def maxPos (b : LMDBBackend ν) (oid : String) : Ret (Option Nat) :=
  if oid = "" then .error .einval
  else
    match b.get oid with
    | none => .error .enoent
    | some (.log _ trimLimit) =>
      match b.get (maxPosKey oid) with
      | none => if 0 ≤ trimLimit then .ok (some (toUInt64 trimLimit)) else .ok none
      | some (.maxPos pos) =>
        if 0 ≤ trimLimit then .ok (some (max pos (toUInt64 trimLimit))) else .ok (some pos)
      | some _ => .error .badKind
    | some _ => .error .badKind

/-- `Seal`: a new object starts without a trim limit. -/
def «seal» (b : LMDBBackend ν) (oid : String) (epoch : Nat) : Ret Unit × LMDBBackend ν :=
  if oid = "" then (.error .einval, b)
  else if epoch = 0 then (.error .einval, b)
  else
    match b.get oid with
    | none => (.ok (), b.put oid (.log epoch (-1)))
    | some (.log current trimLimit) =>
      if epoch ≤ current then (.error .espipe, b)
      else (.ok (), b.put oid (.log epoch trimLimit))
    | some _ => (.error .badKind, b)

/-- One call, as one transaction. -/
def exec (b : LMDBBackend ν) : {α : Type} → Call ν α → α × LMDBBackend ν
  | _, .openLog name => (b.openLog name, b)
  | _, .uniqueId hoid => b.uniqueId hoid
  | _, .readViews hoid epoch maxViews => (b.readViews hoid epoch maxViews, b)
  | _, .proposeView hoid epoch view => b.proposeView hoid epoch view
  | _, .read oid epoch position => (b.read oid epoch position, b)
  | _, .write oid data epoch position => b.write oid data epoch position
  | _, .fill oid epoch position => b.fill oid epoch position
  | _, .trim oid epoch position trimLimit trimFull =>
    b.trim oid epoch position trimLimit trimFull
  | _, .seal oid epoch => b.seal oid epoch
  | _, .maxPos oid => (b.maxPos oid, b)
  | _, .skip => ((), b)

end LMDBBackend

end ZLog
