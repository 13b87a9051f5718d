import ZLog.Storage.Backend
import ZLog.Lib.OrderedMap
import Mathlib.Data.List.AList
import Mathlib.Data.String.Basic

/-!
# The Ceph backend

A RADOS pool holds objects with extended attributes, an ordered map of keys ("omap") and a byte
stream.  The methods of the object class `cls_zlog` run inside one object; a method that returns
a negative value leaves the object as it was.  `CephBackend` calls them by name and, for a full
trim, walks the keys of an object from the client.

Attributes and map values are FlatBuffers tables, modelled by their fields.  The three attributes
of the class have fixed names, so an object has one field for each.  The bytes of an object are
the data of a log object, or the table of a link object, kept apart in `link`.

Two members that the class reads and stores without initialising them (`max_pos_` of a header
that was just created, `bytestream_` of an entry that does not exist) take whatever value the
memory held: `Indeterminate`.
-/

namespace ZLog

namespace Cls

/-! ## Tables and objects -/

namespace Fbs

/-- The table of a log entry, as it is stored in the omap. -/
structure LogEntry where
  invalid : Bool
  bytestream : Bool
  data : String
  offset : Nat
  length : Nat
  deriving DecidableEq

/-- The table in the header attribute of a log object. -/
structure LogObjectHeader where
  epoch : Nat
  empty : Bool
  maxPos : Nat
  omapMaxSize : Int
  trimLimit : Int
  deriving DecidableEq

/-- The table in the header attribute of a head object. -/
structure HeadObjectHeader where
  epoch : Nat
  pfx : String
  deriving DecidableEq

end Fbs

/-- A value of an object's map. -/
inductive OmapValue (ν : Type) where
  | entry (e : Fbs.LogEntry)
  | view (data : ν)

/-- An object of the pool. -/
structure RadosObject (ν : Type) where
  /-- `zlog.data.header` -/
  dataHeader : Option Fbs.LogObjectHeader := none
  /-- `zlog.head.header` -/
  headHeader : Option Fbs.HeadObjectHeader := none
  /-- `zlog.unique_id` -/
  uniqueId : Option Nat := none
  omap : Lib.OrderedMap String (OmapValue ν) := .empty
  bytes : List Char := []
  /-- The table written as the bytes of a link object: the name of a head object. -/
  link : Option String := none

/-- The values of members that are read before they are written. -/
structure Indeterminate where
  maxPos : Nat
  bytestream : Bool

variable {ν : Type}

/-- `prefix << std::setw(20) << std::setfill('0') << value` -/
def u64tostr (value : Nat) (pfx : String) : String :=
  pfx ++ String.ofList ((Nat.toDigits 10 value).leftpad 20 '0')

def entryKeyPrefix : String := "zlog.data.entry."

def viewKeyPrefix : String := "zlog.head.view."

def entryKey (position : Nat) : String := u64tostr position entryKeyPrefix

def viewKey (epoch : Nat) : String := u64tostr epoch viewKeyPrefix

/-! ## Headers of log objects -/

/-- The header while a method works on it: an optional limit, and the fields that the methods read
    through accessors. -/
structure LogObjectHeader where
  epoch : Nat
  empty : Bool
  maxPos_ : Nat
  omapMaxSize_ : Int
  trimLimit : Option Nat

namespace LogObjectHeader

/-- The constructor, with `set_epoch` applied: the header of an object that is created. -/
def new (junk : Indeterminate) (epoch : Nat) : LogObjectHeader :=
  ⟨epoch, true, junk.maxPos, -1, none⟩

/-- A header without a limit is stored with -1. -/
def read : Option (RadosObject ν) → Ret LogObjectHeader
  | none => .error .enoent
  | some obj =>
    match obj.dataHeader with
    | none => .error .eio
    | some h =>
      .ok ⟨h.epoch, h.empty, h.maxPos, h.omapMaxSize,
        if 0 ≤ h.trimLimit then some (toUInt64 h.trimLimit) else none⟩

/-- The limit goes through an `int64_t`. -/
def write (h : LogObjectHeader) (obj : RadosObject ν) : RadosObject ν :=
  let trimLimit : Int :=
    match h.trimLimit with
    | some limit => toInt64 limit
    | none => -1
  { obj with dataHeader := some ⟨h.epoch, h.empty, h.maxPos_, h.omapMaxSize_, trimLimit⟩ }

/-- The epochs of clients count from 1; an old one is stale. -/
def epochGuard (h : LogObjectHeader) (epoch : Nat) : Ret Unit :=
  if epoch < 1 then .error .einval
  else if epoch < h.epoch then .error .espipe
  else .ok ()

/-- There is no maximum while the header says `empty`. -/
def maxPos (h : LogObjectHeader) : Option Nat := if h.empty then none else some h.maxPos_

/-- The flag says whether the header changed. -/
def updateMaxPos (h : LogObjectHeader) (pos : Nat) : Bool × LogObjectHeader :=
  match h.maxPos with
  | none => (true, { h with maxPos_ := pos, empty := false })
  | some m =>
    if m < pos then (true, { h with maxPos_ := pos, empty := false }) else (false, h)

def omapMaxSize (h : LogObjectHeader) : Option Nat :=
  if 0 ≤ h.omapMaxSize_ then some h.omapMaxSize_.toNat else none

/-- A new limit is a position in use as well, so it raises the maximum. -/
def updateTrimLimit (h : LogObjectHeader) (position : Nat) : Bool × LogObjectHeader :=
  let raised := (true, ({ h with trimLimit := some position }.updateMaxPos position).2)
  match h.trimLimit with
  | none => raised
  | some limit => if limit < position then raised else (false, h)

/-- Positions up to the limit are trimmed. -/
def positionTrimmed (h : LogObjectHeader) (position : Nat) : Bool :=
  match h.trimLimit with
  | some limit => position ≤ limit
  | none => false

/-- `if (changed) header.write()` -/
def writeIf (change : Bool × LogObjectHeader) (obj : RadosObject ν) : RadosObject ν :=
  if change.1 then change.2.write obj else obj

end LogObjectHeader

/-! ## Log entries -/

/-- An entry while a method works on it; `exists` says whether the omap has it. -/
structure LogEntry where
  «exists» : Bool
  invalid : Bool
  bytestream : Bool
  data : String
  offset : Nat
  length : Nat

namespace LogEntry

/-- An entry that is not there leaves the flag `bytestream` as it was in memory. -/
def read (obj : RadosObject ν) (pos : Nat) (junk : Indeterminate) : Ret LogEntry :=
  match obj.omap.find? (entryKey pos) with
  | none => .ok ⟨false, false, junk.bytestream, "", 0, 0⟩
  | some (.entry e) => .ok ⟨true, e.invalid, e.bytestream, e.data, e.offset, e.length⟩
  | some (.view _) => .error .eio

/-- The entry is stored under the key of its position. -/
def write (entry : LogEntry) (obj : RadosObject ν) (pos : Nat) : RadosObject ν :=
  let table : Fbs.LogEntry :=
    ⟨entry.invalid, entry.bytestream, entry.data, entry.offset, entry.length⟩
  { obj with omap := obj.omap.set (entryKey pos) (.entry table) }

/-- `cls_cxx_write`: bytes at an offset; a gap reads as zeros. -/
def writeBytes (bytes : List Char) (offset : Nat) (data : List Char) : List Char :=
  bytes.takeD offset '\x00' ++ data ++ bytes.drop (offset + data.length)

/-- Large data goes to the byte stream, behind what is there; offset and length are 32 bits. -/
def setData (entry : LogEntry) (obj : RadosObject ν) (data : String)
    (omapMaxSize : Option Nat) : LogEntry × RadosObject ν :=
  let inline := ({ entry with bytestream := false, data := data }, obj)
  match omapMaxSize with
  | none => inline
  | some size =>
    if size ≤ data.toList.length then
      let offset := obj.bytes.length % 2 ^ 32
      let length := data.toList.length % 2 ^ 32
      ({ entry with bytestream := true, offset := offset, length := length },
        { obj with bytes := writeBytes obj.bytes offset (data.toList.take length) })
    else inline

/-- The payload, from the table or from the byte stream. -/
def readData (entry : LogEntry) (obj : RadosObject ν) : Ret String :=
  if entry.bytestream then
    if entry.data ≠ "" then .error .eio
    else if entry.length = 0 then .ok ""
    else .ok (String.ofList ((obj.bytes.drop entry.offset).take entry.length))
  else if entry.offset ≠ 0 ∨ entry.length ≠ 0 then .error .eio
  else .ok entry.data

end LogEntry

/-! ## Methods on log objects -/

/-- Positions that were trimmed and entries that are dead give the same answer. -/
def logEntryRead (epoch position : Nat) (junk : Indeterminate) (obj : Option (RadosObject ν)) :
    Ret String := do
  let header ← LogObjectHeader.read obj
  header.epochGuard epoch
  if header.positionTrimmed position then .error .enodata
  else
    let obj := obj.getD {}
    let entry ← LogEntry.read obj position junk
    if !entry.exists then .error .erange
    else if entry.invalid then .error .enodata
    else entry.readData obj

/-- An entry is written once, dead or alive. -/
def logEntryWrite (epoch position : Nat) (data : String) (junk : Indeterminate)
    (obj : Option (RadosObject ν)) : Ret (RadosObject ν) := do
  let header ← LogObjectHeader.read obj
  header.epochGuard epoch
  if header.positionTrimmed position then .error .erofs
  else
    let obj := obj.getD {}
    let entry ← LogEntry.read obj position junk
    if entry.exists then .error .erofs
    else
      let (entry, obj) := entry.setData obj data header.omapMaxSize
      let obj := entry.write obj position
      .ok (LogObjectHeader.writeIf (header.updateMaxPos position) obj)

/-- `Fill` is this method without `force`, `Trim` is it with `force`. -/
def logEntryInvalidate (epoch position : Nat) (force limit : Bool) (junk : Indeterminate)
    (obj : Option (RadosObject ν)) : Ret (RadosObject ν) :=
  if limit && !force then .error .eio
  else do
    let header ← LogObjectHeader.read obj
    header.epochGuard epoch
    let obj := obj.getD {}
    -- a range only moves the limit
    if limit then .ok (LogObjectHeader.writeIf (header.updateTrimLimit position) obj)
    else if header.positionTrimmed position then .ok obj
    else
      let entry ← LogEntry.read obj position junk
      -- dead already: nothing to do
      if entry.exists && entry.invalid then .ok obj
      -- `Fill` does not kill a live entry
      else if entry.exists && !force then .error .erofs
      else
        let obj := { entry with invalid := true }.write obj position
        .ok (LogObjectHeader.writeIf (header.updateMaxPos position) obj)

/-- `log_entry_seal`: the first seal creates the header. -/
def logEntrySeal (epoch : Nat) (omapMaxSize : Int) (junk : Indeterminate)
    (obj : Option (RadosObject ν)) : Ret (RadosObject ν) :=
  if epoch < 1 then .error .einval
  else
    match LogObjectHeader.read obj with
    | .ok header =>
      if epoch ≤ header.epoch then .error .espipe
      else .ok ({ header with omapMaxSize_ := omapMaxSize, epoch := epoch }.write (obj.getD {}))
    | .error .enoent =>
      .ok ({ LogObjectHeader.new junk epoch with omapMaxSize_ := omapMaxSize }.write (obj.getD {}))
    | .error e => .error e

/-- The maximum that the header keeps; no entry is looked at. -/
def logEntryMaxPosition (obj : Option (RadosObject ν)) : Ret (Option Nat) := do
  let header ← LogObjectHeader.read obj
  .ok header.maxPos

/-! ## Methods on head objects -/

/-- `HeadObject::initialize` -/
def HeadObject.initialize : Option (RadosObject ν) → Ret Fbs.HeadObjectHeader
  | none => .error .enoent
  | some obj =>
    match obj.headHeader with
    | none => .error .eio
    | some h => if h.pfx = "" then .error .eio else .ok h

/-- The head object is created with epoch 0: it has no view yet. -/
def headInit (pfx : String) (obj : Option (RadosObject ν)) : Ret (RadosObject ν) :=
  if pfx = "" then .error .einval
  else
    match obj with
    | some _ => .error .eexist
    | none => .ok { headHeader := some ⟨0, pfx⟩ }

/-- A view is stored only under the epoch after the stored one. -/
def viewCreate (epoch : Nat) (view : ν) (obj : Option (RadosObject ν)) : Ret (RadosObject ν) :=
  if epoch < 1 then .error .einval
  else do
    let head ← HeadObject.initialize obj
    let obj := obj.getD {}
    if epoch = head.epoch + 1 then
      .ok { obj with omap := obj.omap.set (viewKey epoch) (.view view),
                     headHeader := some { head with epoch := epoch } }
    else if head.epoch + 1 < epoch then .error .einval
    else .error .espipe

/-- The loop of `view_read`, bounded by the number of views still to read. -/
def viewReadFrom (obj : RadosObject ν) (current : Nat) : Nat → Nat → Ret (List (Nat × ν))
  | _, 0 => .ok []
  | epoch, maxViews + 1 =>
    if 0 < epoch ∧ epoch ≤ current then
      match obj.omap.find? (viewKey epoch) with
      | some (.view view) => do
        let views ← viewReadFrom obj current (epoch + 1) maxViews
        .ok ((epoch, view) :: views)
      | _ => .error .eio
    else .ok []

/-- `view_read`: epoch 0 asks for the latest view, and at most 100 views are returned. -/
def viewRead (epoch maxViews : Nat) (obj : Option (RadosObject ν)) : Ret (List (Nat × ν)) := do
  let head ← HeadObject.initialize obj
  viewReadFrom (obj.getD {}) head.epoch (if epoch = 0 then head.epoch else epoch)
    (min maxViews 100)

/-- `__unique_id_read` -/
def storedUniqueId : Option (RadosObject ν) → Ret Nat
  | none => .error .enoent
  | some obj =>
    match obj.uniqueId with
    | none => .error .enodata
    | some id => .ok id

/-- A stored id of 0 is an error, it counts from 1. -/
def uniqueIdRead (obj : Option (RadosObject ν)) : Ret Nat :=
  match storedUniqueId obj with
  | .error e => .error e
  | .ok id => if id = 0 then .error .eio else .ok id

/-- The write succeeds only for the successor of the stored id; a missing id counts as 0. -/
def uniqueIdWrite (id : Nat) (obj : Option (RadosObject ν)) : Ret (RadosObject ν) :=
  let store (stored : Nat) : Ret (RadosObject ν) :=
    let expected := (stored + 1) % 2 ^ 64
    if id ≠ expected then .error .estale
    else .ok { obj.getD {} with uniqueId := some expected }
  match storedUniqueId obj with
  | .ok stored => if stored = 0 then .error .eio else store stored
  | .error .enoent => store 0
  | .error .enodata => store 0
  | .error e => .error e

end Cls

/-! ## The pool -/

open Cls

/-- The objects of a pool. -/
abbrev Pool (ν : Type) := AList (fun _ : String => RadosObject ν)

namespace Pool

variable {ν : Type}

/-- `operate` with a method that reads. -/
def query {α : Type} (pool : Pool ν) (oid : String)
    (method : Option (RadosObject ν) → Ret α) : Ret α :=
  method (pool.lookup oid)

/-- `operate` with a method that writes: a negative return value leaves the object alone. -/
def operate (pool : Pool ν) (oid : String)
    (method : Option (RadosObject ν) → Ret (RadosObject ν)) : Ret Unit × Pool ν :=
  match method (pool.lookup oid) with
  | .error e => (.error e, pool)
  | .ok obj => (.ok (), pool.insert oid obj)

/-- `omap_get_keys` with a batch of one key. -/
def omapNextKey (pool : Pool ν) (oid startAfter : String) : Ret (Option String) :=
  pool.query oid fun
    | none => .error .enoent
    | some obj => .ok ((obj.omap.next? startAfter).map Prod.fst)

/-- `omap_rm_keys` with one key. -/
def omapRmKey (pool : Pool ν) (oid key : String) : Ret Unit × Pool ν :=
  pool.operate oid fun
    | none => .error .enoent
    | some obj => .ok { obj with omap := obj.omap.erase key }

/-- `trunc(oid, 0)` -/
def trunc (pool : Pool ν) (oid : String) : Ret Unit × Pool ν :=
  pool.operate oid fun
    | none => .error .enoent
    | some obj => .ok { obj with bytes := [] }

/-- A method that succeeds replaces the object. -/
theorem operate_ok {pool : Pool ν} {oid : String}
    {method : Option (RadosObject ν) → Ret (RadosObject ν)} {obj : RadosObject ν}
    (h : method (pool.lookup oid) = .ok obj) :
    pool.operate oid method = (.ok (), pool.insert oid obj) := by
  simp [operate, h]

/-- A method that fails changes nothing. -/
theorem operate_error {pool : Pool ν} {oid : String}
    {method : Option (RadosObject ν) → Ret (RadosObject ν)} {e : Errno}
    (h : method (pool.lookup oid) = .error e) : pool.operate oid method = (.error e, pool) := by
  simp [operate, h]

/-- A class method fails and leaves the pool, or stores an object. -/
theorem operate_cases (pool : Pool ν) (oid : String)
    (method : Option (RadosObject ν) → Ret (RadosObject ν)) :
    (∃ e, method (pool.lookup oid) = .error e ∧ pool.operate oid method = (.error e, pool)) ∨
    ∃ obj, method (pool.lookup oid) = .ok obj ∧
      pool.operate oid method = (.ok (), pool.insert oid obj) := by
  cases hm : method (pool.lookup oid) with
  | error e => exact Or.inl ⟨e, rfl, operate_error hm⟩
  | ok obj => exact Or.inr ⟨obj, rfl, operate_ok hm⟩

end Pool

/-! ## The backend -/

/-- The options of a backend instance, and the values its class calls find in the members that
    are not initialised. -/
structure CephBackend where
  omapMaxSize : Option Nat := none
  junk : Indeterminate

namespace CephBackend

variable {ν : Type}

/-- `std::string::find`: the first occurrence of `pat` in `s`. -/
def findSubstr (pat : List Char) : List Char → Option Nat
  | [] => if pat = [] then some 0 else none
  | c :: cs => if pat.isPrefixOf (c :: cs) then some 0 else (findSubstr pat cs).map (· + 1)

/-- `boost::lexical_cast<uint64_t>` of an unsigned decimal numeral. -/
def lexicalCast (s : List Char) : Option Nat :=
  if s ≠ [] ∧ s.all Char.isDigit ∧ Nat.ofDigitChars 10 s 0 < 2 ^ 64 then
    some (Nat.ofDigitChars 10 s 0)
  else none

/-- What the loop of a full trim does with a key: skip it, give up, or remove it. -/
inductive KeyAction where
  | skip | fail | remove
  deriving DecidableEq

/-- The key is parsed as the loop does it; a position above the one to trim is an error. -/
def keyAction (key : String) (position : Nat) : KeyAction :=
  match findSubstr entryKeyPrefix.toList key.toList with
  | none => .skip
  | some 0 =>
    match lexicalCast (key.toList.drop entryKeyPrefix.toList.length) with
    | none => .fail
    | some ipos => if position < ipos then .fail else .remove
  | some (_ + 1) => .fail

/-- The loop of a full trim.  Every round moves past one key, so more rounds than there are keys
    suffice (`CephBackend.trimEntries_ok`). -/
def trimEntries (oid : String) (position : Nat) :
    Nat → String → Pool ν → Ret Unit × Pool ν
  | 0, _, pool => (.error .outOfFuel, pool)
  | fuel + 1, startAfter, pool =>
    match pool.omapNextKey oid startAfter with
    | .error e => (.error e, pool)
    | .ok none => (.ok (), pool)
    | .ok (some key) =>
      match keyAction key position with
      | .skip => trimEntries oid position fuel key pool
      | .fail => (.error .eio, pool)
      | .remove =>
        match pool.omapRmKey oid key with
        | (.error e, pool) => (.error e, pool)
        | (.ok (), pool) => trimEntries oid position fuel key pool

/-- The number of keys in the map of an object. -/
def keyCount (pool : Pool ν) (oid : String) : Nat :=
  match pool.lookup oid with
  | none => 0
  | some obj => obj.omap.toList.length

def read (be : CephBackend) (pool : Pool ν) (oid : String) (epoch position : Nat) : Ret String :=
  if oid = "" then .error .einval
  else pool.query oid (logEntryRead epoch position be.junk)

def write (be : CephBackend) (pool : Pool ν) (oid data : String) (epoch position : Nat) :
    Ret Unit × Pool ν :=
  if oid = "" then (.error .einval, pool)
  else pool.operate oid (logEntryWrite epoch position data be.junk)

/-- `Fill`: an invalidation without `force`. -/
def fill (be : CephBackend) (pool : Pool ν) (oid : String) (epoch position : Nat) :
    Ret Unit × Pool ν :=
  if oid = "" then (.error .einval, pool)
  else pool.operate oid (logEntryInvalidate epoch position false false be.junk)

/-- `Trim`: a full trim also removes the entries and cuts the byte stream. -/
def trim (be : CephBackend) (pool : Pool ν) (oid : String) (epoch position : Nat)
    (trimLimit trimFull : Bool) : Ret Unit × Pool ν :=
  if trimFull && !trimLimit then (.error .einval, pool)
  else if oid = "" then (.error .einval, pool)
  else
    match pool.operate oid (logEntryInvalidate epoch position true trimLimit be.junk) with
    | (.error e, pool) => (.error e, pool)
    | (.ok (), pool) =>
      if !trimFull then (.ok (), pool)
      else
        match trimEntries oid position (keyCount pool oid + 1) "" pool with
        | (.error e, pool) => (.error e, pool)
        | (.ok (), pool) => pool.trunc oid

/-- The argument of `cls_zlog_seal`: the option as `int32_t`, -1 for none. -/
def sealSize (be : CephBackend) : Int :=
  match be.omapMaxSize with
  | some n => Int.bmod n (2 ^ 32)
  | none => -1

/-- `Seal`: the threshold for the byte stream is set with the epoch. -/
def «seal» (be : CephBackend) (pool : Pool ν) (oid : String) (epoch : Nat) :
    Ret Unit × Pool ν :=
  if oid = "" then (.error .einval, pool)
  else pool.operate oid (logEntrySeal epoch be.sealSize be.junk)

def maxPos (pool : Pool ν) (oid : String) : Ret (Option Nat) :=
  if oid = "" then .error .einval
  else pool.query oid logEntryMaxPosition

def readViews (pool : Pool ν) (hoid : String) (epoch maxViews : Nat) : Ret (List (Nat × ν)) :=
  if hoid = "" then .error .einval
  else pool.query hoid (viewRead epoch maxViews)

def proposeView (pool : Pool ν) (hoid : String) (epoch : Nat) (view : ν) : Ret Unit × Pool ν :=
  if hoid = "" then (.error .einval, pool)
  else pool.operate hoid (viewCreate epoch view)

/-! ### The steps of the calls that take several operations -/

/-- The object that a log name leads to. -/
def linkObjectName (name : String) : String := "zlog.link." ++ name

/-- `InitHeadObject` -/
def initHeadObject (pool : Pool ν) (hoid pfx : String) : Ret Unit × Pool ν :=
  pool.operate hoid (headInit pfx)

/-- `CreateLinkObject`: an exclusive create and a write, in one operation. -/
def createLinkObject (pool : Pool ν) (name hoid : String) : Ret Unit × Pool ν :=
  pool.operate (linkObjectName name) fun
    | some _ => .error .eexist
    | none => .ok { link := some hoid }

/-- The first operation of `OpenLog`: the head object that the link names. -/
def readLink (pool : Pool ν) (name : String) : Ret String :=
  pool.query (linkObjectName name) fun
    | none => .error .enoent
    | some obj =>
      match obj.link with
      | none => .error .eio
      | some hoid => .ok hoid

/-- The second operation of `OpenLog`: the prefix in the head object. -/
def readHead (pool : Pool ν) (hoid : String) : Ret String :=
  pool.query hoid fun
    | none => .error .eio
    | some obj =>
      match obj.headHeader with
      | none => .error .enodata
      | some h => if h.pfx = "" then .error .eio else .ok h.pfx

/-- The first operation of `uniqueId`: the id to ask for. -/
def nextUniqueId (pool : Pool ν) (hoid : String) : Ret Nat :=
  match pool.query hoid uniqueIdRead with
  | .ok id => .ok ((id + 1) % 2 ^ 64)
  | .error .enoent => .ok 1
  | .error .enodata => .ok 1
  | .error e => .error e

/-- The second operation of `uniqueId`; `-ESTALE` sends the loop around. -/
def claimUniqueId (pool : Pool ν) (hoid : String) (id : Nat) : Ret Unit × Pool ν :=
  pool.operate hoid (uniqueIdWrite id)

/-- The entry calls, with every other client at rest. -/
def exec (be : CephBackend) (pool : Pool ν) : {α : Type} → Call ν α → α × Pool ν
  | _, .openLog name =>
    if name = "" then (.error .einval, pool)
    else
      -- two operations: the link, then the head object behind it
      (match readLink pool name with
        | .error e => .error e
        | .ok hoid => (readHead pool hoid).map fun pfx => (hoid, pfx), pool)
  | _, .uniqueId hoid =>
    if hoid = "" then (.error .einval, pool)
    else
      -- read and claim are separate operations, another client may come between them
      match nextUniqueId pool hoid with
      | .error e => (.error e, pool)
      | .ok id =>
        match claimUniqueId pool hoid id with
        | (.error e, pool) => (.error e, pool)
        | (.ok (), pool) => (.ok id, pool)
  | _, .readViews hoid epoch maxViews => (readViews pool hoid epoch maxViews, pool)
  | _, .proposeView hoid epoch view => proposeView pool hoid epoch view
  | _, .read oid epoch position => (be.read pool oid epoch position, pool)
  | _, .write oid data epoch position => be.write pool oid data epoch position
  | _, .fill oid epoch position => be.fill pool oid epoch position
  | _, .trim oid epoch position trimLimit trimFull =>
    be.trim pool oid epoch position trimLimit trimFull
  | _, .seal oid epoch => be.seal pool oid epoch
  | _, .maxPos oid => (maxPos pool oid, pool)
  | _, .skip => ((), pool)

end CephBackend

end ZLog
