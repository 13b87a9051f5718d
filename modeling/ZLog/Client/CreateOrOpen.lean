import ZLog.Client.ViewReader
import ZLog.Storage.Names
import ZLog.Storage.Ram
import ZLog.Storage.Lmdb
import ZLog.Storage.Ceph

/-!
# `create_or_open`

Any number of clients run `create_or_open` on one name.  A step is one backend operation: a
critical section of the RAM backend, a transaction of the LMDB backend, an operation of the Ceph
backend.  `CreateLog` is two steps over RAM, one over LMDB and three over Ceph; `OpenLog` and
`uniqueId` are two steps over Ceph.

The random generator is an argument of the step that draws from it.
-/

namespace ZLog

/-- The backends. -/
inductive AnyStore (ν : Type) where
  | ram (b : RAMBackend ν)
  | lmdb (b : LMDBBackend ν)
  | ceph (pool : Pool ν)

/-- The options that `create_or_open` reads, the blob of `View::create_initial` for them, and the
    name of the client's host. -/
structure CreateOptions (ν : Type) where
  createIfMissing : Bool := true
  errorIfExists : Bool := false
  view : ν
  host : String

/-- What `create_or_open` returns with 0: the log backend, and the unique id in its token. -/
structure Opened where
  backend : LogBackend
  id : Nat
  deriving DecidableEq

/-- The control state of `create_or_open`.  `created` is the output parameter `created_out`. -/
inductive CreatePc where
  | openLog
  /-- Ceph: `OpenLog` has read the link. -/
  | readHead (hoid : String)
  | createLog
  /-- Ceph: `CreateLog` has made its head object. -/
  | proposeFirst (uuid : Uuid)
  /-- RAM and Ceph: `CreateLog` has stored its first view. -/
  | createLink (uuid : Uuid)
  | uniqueId (hoid pfx : String) (created : Bool)
  /-- Ceph: `uniqueId` has read the stored id. -/
  | claimId (hoid pfx : String) (created : Bool) (id : Nat)
  | done (result : Ret Opened) (created : Bool)
  deriving DecidableEq

namespace CreatePc

variable {ν : Type}

/-- `create_or_open` rejects the empty name at once. -/
def start (name : String) : CreatePc :=
  if name = "" then .done (.error .einval) false else .openLog

/-- The loop of `create_or_open` after `OpenLog`. -/
def afterOpen (opts : CreateOptions ν) : Ret (String × String) → CreatePc
  | .ok (hoid, pfx) =>
    if opts.errorIfExists then .done (.error .eexist) false else .uniqueId hoid pfx false
  | .error .enoent =>
    if opts.createIfMissing then .createLog else .done (.error .enoent) false
  | .error e => .done (.error e) false

/-- The loop of `create_or_open` after `CreateLog`. -/
def afterCreate (opts : CreateOptions ν) : Ret (String × String) → CreatePc
  | .ok (hoid, pfx) => .uniqueId hoid pfx true
  | .error .eexist => if opts.errorIfExists then .done (.error .eexist) false else .openLog
  | .error e => .done (.error e) false

/-- The end of `create_or_open`: the token and the log backend. -/
def afterId (name : String) (opts : CreateOptions ν) (hoid pfx : String) (created : Bool) :
    Ret Nat → CreatePc
  | .ok id => .done (.ok ⟨⟨hoid, pfx, makeToken name hoid opts.host id⟩, id⟩) created
  | .error e => .done (.error e) created

def stepRam (name : String) (opts : CreateOptions ν) (uuid : Uuid) (b : RAMBackend ν) :
    CreatePc → Option (CreatePc × RAMBackend ν)
  | .openLog => some (afterOpen opts (b.openLog name), b)
  | .createLog =>
    match b.createHead uuid.text opts.view with
    | (.ok (), b) => some (.createLink uuid, b)
    | (.error e, b) => some (afterCreate opts (.error e), b)
  | .createLink u =>
    match b.createLink name u.text with
    | (.ok (), b) => some (afterCreate opts (.ok (u.hoid, u.pfx)), b)
    | (.error e, b) => some (afterCreate opts (.error e), b)
  | .uniqueId hoid pfx created =>
    some (afterId name opts hoid pfx created (b.uniqueId hoid).1, (b.uniqueId hoid).2)
  | _ => none

def stepLmdb (name : String) (opts : CreateOptions ν) (uuid : Uuid) (b : LMDBBackend ν) :
    CreatePc → Option (CreatePc × LMDBBackend ν)
  | .openLog => some (afterOpen opts (b.openLog name), b)
  | .createLog =>
    some (afterCreate opts (b.createLog name opts.view uuid.text).1,
      (b.createLog name opts.view uuid.text).2)
  | .uniqueId hoid pfx created =>
    some (afterId name opts hoid pfx created (b.uniqueId hoid).1, (b.uniqueId hoid).2)
  | _ => none

def stepCeph (name : String) (opts : CreateOptions ν) (uuid : Uuid) (pool : Pool ν) :
    CreatePc → Option (CreatePc × Pool ν)
  | .openLog =>
    match CephBackend.readLink pool name with
    | .ok hoid => some (.readHead hoid, pool)
    | .error e => some (afterOpen opts (.error e), pool)
  | .readHead hoid =>
    some (afterOpen opts ((CephBackend.readHead pool hoid).map fun pfx => (hoid, pfx)), pool)
  | .createLog =>
    match CephBackend.initHeadObject pool uuid.hoid uuid.pfx with
    | (.ok (), pool) => some (.proposeFirst uuid, pool)
    -- the name is taken: draw another one
    | (.error .eexist, pool) => some (.createLog, pool)
    | (.error e, pool) => some (afterCreate opts (.error e), pool)
  | .proposeFirst u =>
    match CephBackend.proposeView pool u.hoid 1 opts.view with
    | (.ok (), pool) => some (.createLink u, pool)
    | (.error e, pool) => some (afterCreate opts (.error e), pool)
  | .createLink u =>
    match CephBackend.createLinkObject pool name u.hoid with
    | (.ok (), pool) => some (afterCreate opts (.ok (u.hoid, u.pfx)), pool)
    | (.error e, pool) => some (afterCreate opts (.error e), pool)
  | .uniqueId hoid pfx created =>
    if hoid = "" then some (afterId name opts hoid pfx created (.error .einval), pool)
    else
      match CephBackend.nextUniqueId pool hoid with
      | .ok id => some (.claimId hoid pfx created id, pool)
      | .error e => some (afterId name opts hoid pfx created (.error e), pool)
  | .claimId hoid pfx created id =>
    match CephBackend.claimUniqueId pool hoid id with
    | (.ok (), pool) => some (afterId name opts hoid pfx created (.ok id), pool)
    -- another client was faster: go around the loop
    | (.error .estale, pool) => some (.uniqueId hoid pfx created, pool)
    | (.error e, pool) => some (afterId name opts hoid pfx created (.error e), pool)
  | .done _ _ => none

/-- One backend operation; `none` after `create_or_open` has returned. -/
def step (name : String) (opts : CreateOptions ν) (uuid : Uuid) (store : AnyStore ν)
    (pc : CreatePc) : Option (CreatePc × AnyStore ν) :=
  match store with
  | .ram b => (stepRam name opts uuid b pc).map fun x => (x.1, .ram x.2)
  | .lmdb b => (stepLmdb name opts uuid b pc).map fun x => (x.1, .lmdb x.2)
  | .ceph pool => (stepCeph name opts uuid pool pc).map fun x => (x.1, .ceph x.2)

end CreatePc

/-- A client that runs `create_or_open`. -/
structure Creator (ν : Type) where
  opts : CreateOptions ν
  pc : CreatePc

/-- The clients and the backend they share. -/
structure Creation (ν : Type) where
  store : AnyStore ν
  clients : List (Creator ν)

namespace Creation

variable {ν : Type}

/-- All clients are about to call `create_or_open`. -/
def init (name : String) (store : AnyStore ν) (opts : List (CreateOptions ν)) : Creation ν :=
  ⟨store, opts.map fun o => ⟨o, .start name⟩⟩

/-- Client `a.1` makes one step; `a.2` is what the random generator would give it. -/
def step (name : String) (s : Creation ν) (a : Nat × Uuid) : Option (Creation ν) :=
  match s.clients[a.1]? with
  | none => none
  | some c =>
    match c.pc.step name c.opts a.2 s.store with
    | none => none
    | some (pc, store) => some ⟨store, s.clients.set a.1 { c with pc := pc }⟩

theorem step_eq_some {name : String} {s s' : Creation ν} {a : Nat × Uuid}
    (h : s.step name a = some s') :
    ∃ c pc, s.clients[a.1]? = some c ∧ c.pc.step name c.opts a.2 s.store = some (pc, s'.store) ∧
      s'.clients = s.clients.set a.1 { c with pc := pc } := by
  unfold step at h
  split at h
  · cases h
  · next c hc =>
    split at h
    · cases h
    · next pc store hs =>
      cases h
      exact ⟨c, pc, hc, hs, rfl⟩

end Creation

end ZLog
