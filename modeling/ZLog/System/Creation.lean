import ZLog.Client.CreateOrOpen
import ZLog.Storage.Creating
import ZLog.Lib.Transition

/-!
# One creator, one log

Clients that run `create_or_open` on a name nobody has used race to bind it.  Each backend makes
the head object with its first view before the name is bound, and binds the name in one exclusive
step, so the client whose step succeeds is the only creator and the others find a complete log.

The backends are compared on a few predicates: what the name is bound to, and which head objects
have their first view.  There is one lemma for each control state of `create_or_open` that says what
its step does in these terms; the invariant of a run is then the same for all backends.

## Main results

- `Creator.step_unlinked`, `Creator.step_linked`, `Creator.step_created`: what a step does while the
  name is free, and after it has been bound.
- `CreationOk.step`: the invariant of a run.
- `one_creator`: exactly one client creates the log, and all of them open it.
-/

namespace ZLog

open Cls

variable {ν : Type}

/-! ## What a backend holds -/

namespace AnyStore

/-- The name is not bound. -/
def Unlinked (name : String) : AnyStore ν → Prop
  | .ram b => b.objects.lookup ("head." ++ name) = none
  | .lmdb b => b.get ("head." ++ name) = none
  | .ceph pool => pool.lookup (CephBackend.linkObjectName name) = none

/-- The name is bound to the head object of `u`. -/
def LinkedTo (name : String) (u : Uuid) : AnyStore ν → Prop
  | .ram b => b.objects.lookup ("head." ++ name) = some (.link u.hoid)
  | .lmdb b => b.get ("head." ++ name) = some (.link u.hoid)
  | .ceph pool => ∃ obj, pool.lookup (CephBackend.linkObjectName name) = some obj ∧
      obj.link = some u.hoid

/-- No object has a name made from `u`. -/
def Unused (u : Uuid) : AnyStore ν → Prop
  | .ram b => b.objects.lookup u.hoid = none
  | .lmdb b => b.get u.hoid = none ∧ b.get (LMDBBackend.projectionKey u.hoid 1) = none
  | .ceph pool => pool.lookup u.hoid = none

/-- The head object of `u` exists and has no view yet. -/
def Blank (u : Uuid) : AnyStore ν → Prop
  | .ceph pool => ∃ obj, pool.lookup u.hoid = some obj ∧ obj.headHeader = some ⟨0, u.pfx⟩
  | _ => False

/-- The head object of `u` has the view `v` at epoch 1, and no other view. -/
def HasFirst (u : Uuid) (v : ν) : AnyStore ν → Prop
  | .ram b => b.objects.lookup u.hoid = some (RAMBackend.newHead u v)
  | .lmdb b => ∃ id, b.get u.hoid = some (.projection 1 id u.pfx) ∧
      b.get (LMDBBackend.projectionKey u.hoid 1) = some (.view v)
  | .ceph pool => ∃ obj, pool.lookup u.hoid = some obj ∧ obj.headHeader = some ⟨1, u.pfx⟩ ∧
      obj.omap.find? (viewKey 1) = some (.view v)

/-- `ReadViews` of the backend. -/
def readViews (hoid : String) (epoch maxViews : Nat) : AnyStore ν → Ret (List (Nat × ν))
  | .ram b => b.readViews hoid epoch maxViews
  | .lmdb b => b.readViews hoid epoch maxViews
  | .ceph pool => CephBackend.readViews pool hoid epoch maxViews

/-- What `HasFirst` says can be read back. -/
theorem HasFirst.readViews {store : AnyStore ν} {u : Uuid} {v : ν} (h : store.HasFirst u v) :
    store.readViews u.hoid 1 1 = .ok [(1, v)] := by
  cases store with
  | ram b =>
    have hl : b.objects.lookup u.hoid = some (RAMBackend.newHead u v) := h
    simp [AnyStore.readViews, RAMBackend.readViews, u.hoid_ne_empty, hl, RAMBackend.newHead,
      Lib.OrderedMap.find?_singleton, RAMBackend.readViewsFrom]
  | lmdb b =>
    obtain ⟨id, hhead, hview⟩ := h
    simp [AnyStore.readViews, LMDBBackend.readViews, u.hoid_ne_empty, hhead,
      LMDBBackend.readViewsFrom, hview]
  | ceph pool =>
    obtain ⟨obj, hobj, hhead, hview⟩ := h
    simp [AnyStore.readViews, CephBackend.readViews, u.hoid_ne_empty, Pool.query, hobj, viewRead,
      HeadObject.initialize, hhead, u.pfx_ne_empty, bind, Except.bind, viewReadFrom, hview]

/-- A step left alone what the name is bound to and the head objects other than that of `u`. -/
structure Frame (name : String) (u : Uuid) (store store' : AnyStore ν) : Prop where
  unlinked : store.Unlinked name → store'.Unlinked name
  linked : ∀ u', store.LinkedTo name u' → store'.LinkedTo name u'
  blank : ∀ u', u' ≠ u → store.Blank u' → store'.Blank u'
  first : ∀ u' v, u' ≠ u → store.HasFirst u' v → store'.HasFirst u' v

/-- A step bound the name and left the head objects alone. -/
structure Binds (name : String) (u : Uuid) (store store' : AnyStore ν) : Prop where
  unlinked : store.Unlinked name
  linked : store'.LinkedTo name u
  blank : ∀ u', store.Blank u' → store'.Blank u'
  first : ∀ u' v, store.HasFirst u' v → store'.HasFirst u' v

/-- A step changed nothing that the clients of the name can see. -/
structure Quiet (name : String) (store store' : AnyStore ν) : Prop where
  unlinked : store.Unlinked name → store'.Unlinked name
  linked : ∀ u, store.LinkedTo name u → store'.LinkedTo name u
  blank : ∀ u, store.Blank u → store'.Blank u
  first : ∀ u v, store.HasFirst u v → store'.HasFirst u v

/-- Nothing has changed. -/
theorem Quiet.refl (name : String) (store : AnyStore ν) : Quiet name store store :=
  ⟨fun h => h, fun _ h => h, fun _ h => h, fun _ _ h => h⟩

/-- A name is bound to one head object at most. -/
theorem LinkedTo.not_unlinked {name : String} {u : Uuid} {store : AnyStore ν}
    (h : store.LinkedTo name u) : ¬ store.Unlinked name := by
  intro hun
  cases store with
  | ram b =>
    have := Eq.trans (Eq.symm h) hun
    cases this
  | lmdb b =>
    have := Eq.trans (Eq.symm h) hun
    cases this
  | ceph pool =>
    obtain ⟨obj, hobj, -⟩ := h
    have := Eq.trans (Eq.symm hobj) hun
    cases this

/-- A log with a first view has used its id. -/
theorem HasFirst.not_unused {u : Uuid} {v : ν} {store : AnyStore ν} (h : store.HasFirst u v) :
    ¬ store.Unused u := by
  intro hun
  cases store with
  | ram b =>
    have := Eq.trans (Eq.symm h) hun
    cases this
  | lmdb b =>
    obtain ⟨id, hid, -⟩ := h
    have := Eq.trans (Eq.symm hid) hun.1
    cases this
  | ceph pool =>
    obtain ⟨obj, hobj, -⟩ := h
    have := Eq.trans (Eq.symm hobj) hun
    cases this

/-- So has a head object without a view. -/
theorem Blank.not_unused {u : Uuid} {store : AnyStore ν} (h : store.Blank u) :
    ¬ store.Unused u := by
  intro hun
  cases store with
  | ram b => exact h
  | lmdb b => exact h
  | ceph pool =>
    obtain ⟨obj, hobj, -⟩ := h
    have := Eq.trans (Eq.symm hobj) hun
    cases this

/-! ### The writes of `CreateLog` -/

/-- Binding an id on RAM leaves everything else. -/
theorem frame_bind (name : String) (u : Uuid) (b : RAMBackend ν) (x : Object ν) :
    Frame name u (.ram b) (.ram (b.bind u.hoid x)) := by
  have hlink : (b.bind u.hoid x).objects.lookup ("head." ++ name) =
      b.objects.lookup ("head." ++ name) := by
    rw [RAMBackend.lookup_bind, if_neg (link_ne_hoid name u)]
  refine ⟨fun h => hlink.trans h, fun _ h => hlink.trans h, fun _ _ h => h, fun u' v hne h => ?_⟩
  have hne' : u'.hoid ≠ u.hoid := fun he => hne (Uuid.hoid_injective he)
  exact (RAMBackend.lookup_bind ..).trans ((if_neg hne').trans h)

/-- Inserting a head object on Ceph leaves everything else. -/
theorem frame_insert (name : String) (u : Uuid) (pool : Pool ν) (obj : RadosObject ν) :
    Frame name u (.ceph pool) (.ceph (pool.insert u.hoid obj)) := by
  have hlink : (pool.insert u.hoid obj).lookup (CephBackend.linkObjectName name) =
      pool.lookup (CephBackend.linkObjectName name) :=
    AList.lookup_insert_ne (linkObjectName_ne_hoid name u)
  have hhead : ∀ u', u' ≠ u → (pool.insert u.hoid obj).lookup u'.hoid = pool.lookup u'.hoid :=
    fun u' hne => AList.lookup_insert_ne fun he => hne (Uuid.hoid_injective he)
  refine ⟨fun h => hlink.trans h, ?_, ?_, ?_⟩
  · rintro u' ⟨o, ho, hl⟩
    exact ⟨o, hlink.trans ho, hl⟩
  · rintro u' hne ⟨o, ho, hh⟩
    exact ⟨o, (hhead u' hne).trans ho, hh⟩
  · rintro u' v hne ⟨o, ho, hh⟩
    exact ⟨o, (hhead u' hne).trans ho, hh⟩

/-- Binding a free name on RAM. -/
theorem binds_bind {name : String} (u : Uuid) {b : RAMBackend ν}
    (h : b.objects.lookup ("head." ++ name) = none) :
    Binds name u (.ram b) (.ram (b.bind ("head." ++ name) (.link u.hoid))) := by
  refine ⟨h, ?_, fun _ hb => hb, fun u' v hf => ?_⟩
  · exact (RAMBackend.lookup_bind ..).trans (if_pos rfl)
  · exact (RAMBackend.lookup_bind ..).trans ((if_neg (link_ne_hoid name u').symm).trans hf)

/-- Inserting a link under a free name on Ceph. -/
theorem binds_insert {name : String} (u : Uuid) {pool : Pool ν}
    (h : pool.lookup (CephBackend.linkObjectName name) = none) :
    Binds name u (.ceph pool)
      (.ceph (pool.insert (CephBackend.linkObjectName name) { link := some u.hoid })) := by
  have hhead : ∀ u' : Uuid, (pool.insert (CephBackend.linkObjectName name)
      { link := some u.hoid }).lookup u'.hoid = pool.lookup u'.hoid :=
    fun u' => AList.lookup_insert_ne (linkObjectName_ne_hoid name u').symm
  refine ⟨h, ⟨_, AList.lookup_insert _, rfl⟩, ?_, ?_⟩
  · rintro u' ⟨o, ho, hh⟩
    exact ⟨o, (hhead u').trans ho, hh⟩
  · rintro u' v ⟨o, ho, hh⟩
    exact ⟨o, (hhead u').trans ho, hh⟩

/-- The transaction of LMDB binds the name. -/
theorem binds_withLog {name : String} {u : Uuid} {v : ν} {b : LMDBBackend ν}
    (hhead : b.get u.hoid = none) (hview : b.get (LMDBBackend.projectionKey u.hoid 1) = none)
    (hlink : b.get ("head." ++ name) = none) :
    Binds name u (.lmdb b) (.lmdb (b.withLog name u v)) := by
  -- the keys that were bound are not the new ones
  have hkeep : ∀ key x, b.get key = some x → (b.withLog name u v).get key = some x := by
    intro key x hx
    have hne : ∀ key', b.get key' = none → key ≠ key' := by
      rintro key' hk rfl
      rw [hx] at hk
      cases hk
    simp only [LMDBBackend.withLog, LMDBBackend.get_put_eq, hne _ hhead, hne _ hview, hne _ hlink,
      if_false, hx]
  refine ⟨hlink, ?_, fun _ hb => hb, ?_⟩
  · exact (LMDBBackend.get_put_eq ..).trans (if_pos rfl)
  · rintro u' v' ⟨id, hid, hv⟩
    exact ⟨id, hkeep _ _ hid, hkeep _ _ hv⟩

/-- And stores the first view with it. -/
theorem hasFirst_withLog (name : String) (u : Uuid) (v : ν) (b : LMDBBackend ν) :
    (AnyStore.lmdb (b.withLog name u v)).HasFirst u v := by
  have hkey : LMDBBackend.projectionKey u.hoid 1 = (Key.view u 1).name := (Key.view_name u 1).symm
  have hne : u.hoid ≠ LMDBBackend.projectionKey u.hoid 1 := by
    rw [hkey, ← Key.head_name]
    intro h
    cases Key.name_injective h
  have hne' : LMDBBackend.projectionKey u.hoid 1 ≠ "head." ++ name := by
    rw [hkey]
    exact link_ne_key name _
  refine ⟨0, ?_, ?_⟩
  · simp only [LMDBBackend.withLog, LMDBBackend.get_put_eq, (link_ne_hoid name u).symm, hne,
      if_false, if_true]
  · simp only [LMDBBackend.withLog, LMDBBackend.get_put_eq, hne', if_false, if_true]

/-- Drawing an id on RAM concerns no log. -/
theorem quiet_nextUniqueId (name : String) (b : RAMBackend ν) (id : Nat) :
    Quiet name (.ram b) (.ram { b with nextUniqueId := id }) :=
  ⟨fun h => h, fun _ h => h, fun _ h => h, fun _ _ h => h⟩

/-- Only the id of a projection changes, and links and views are not projections. -/
theorem quiet_put (name : String) {b : LMDBBackend ν} {hoid pfx : String} {epoch id : Nat}
    (h : b.get hoid = some (.projection epoch id pfx)) :
    Quiet name (.lmdb b) (.lmdb (b.put hoid (.projection epoch (id + 1) pfx))) := by
  -- the record of the counter is a head object's, so it is neither a link nor a view
  have hkeep : ∀ key, b.get key ≠ some (.projection epoch id pfx) →
      (b.put hoid (.projection epoch (id + 1) pfx)).get key = b.get key := by
    intro key hne
    rw [LMDBBackend.get_put_eq, if_neg]
    rintro rfl
    exact hne h
  refine ⟨fun hun => ?_, fun u hl => ?_, fun _ hb => hb, ?_⟩
  · have hun : b.get ("head." ++ name) = none := hun
    exact (hkeep _ (by rw [hun]; simp)).trans hun
  · have hl : b.get ("head." ++ name) = some (.link u.hoid) := hl
    exact (hkeep _ (by rw [hl]; simp)).trans hl
  · rintro u v ⟨id', hid, hv⟩
    have hv' := (hkeep _ (by rw [hv]; simp)).trans hv
    -- the log whose counter it is, or another one
    by_cases hu : u.hoid = hoid
    · rw [← hu, hid] at h
      cases h
      exact ⟨id + 1, (LMDBBackend.get_put_eq ..).trans (if_pos hu), hv'⟩
    · exact ⟨id', (LMDBBackend.get_put_eq ..).trans ((if_neg hu).trans hid), hv'⟩

/-- Only the id of a head object changes. -/
theorem quiet_insert (name : String) {pool : Pool ν} {u : Uuid} {obj : RadosObject ν}
    (h : pool.lookup u.hoid = some obj) (id : Option Nat) :
    Quiet name (.ceph pool) (.ceph (pool.insert u.hoid { obj with uniqueId := id })) := by
  have hframe := frame_insert name u pool { obj with uniqueId := id }
  have hself : (pool.insert u.hoid { obj with uniqueId := id }).lookup u.hoid =
      some { obj with uniqueId := id } := AList.lookup_insert _
  refine ⟨hframe.unlinked, hframe.linked, fun u' hb => ?_, fun u' v hf => ?_⟩
  · by_cases hu : u' = u
    · obtain ⟨o, ho, hh⟩ := hb
      rw [hu] at ho hh ⊢
      cases h.symm.trans ho
      exact ⟨_, hself, hh⟩
    · exact hframe.blank u' hu hb
  · by_cases hu : u' = u
    · obtain ⟨o, ho, hh⟩ := hf
      rw [hu] at ho hh ⊢
      cases h.symm.trans ho
      exact ⟨_, hself, hh⟩
    · exact hframe.first u' v hu hf

end AnyStore

/-! ## One step -/

/-- The write of an id keeps the rest of the object. -/
theorem uniqueIdWrite_frame {id : Nat} {obj obj' : RadosObject ν}
    (h : uniqueIdWrite id (some obj) = .ok obj') :
    obj' = { obj with uniqueId := obj'.uniqueId } := by
  unfold uniqueIdWrite at h
  cases hs : obj.uniqueId with
  | none =>
    simp only [storedUniqueId, hs] at h
    split at h <;> cases h
    rfl
  | some stored =>
    simp only [storedUniqueId, hs] at h
    split at h
    · cases h
    · split at h <;> cases h
      rfl

namespace CreatePc

variable {name : String} {opts : CreateOptions ν} {uuid : Uuid} {store store' : AnyStore ν}
  {pc' : CreatePc}

/-- A step on RAM. -/
theorem step_ram {b : RAMBackend ν} {pc : CreatePc}
    (h : step name opts uuid (.ram b) pc = some (pc', store')) :
    ∃ b', store' = .ram b' ∧ stepRam name opts uuid b pc = some (pc', b') := by
  obtain ⟨⟨pc₁, b'⟩, hs, heq⟩ := Option.map_eq_some_iff.mp h
  cases heq
  exact ⟨b', rfl, hs⟩

/-- A step on LMDB. -/
theorem step_lmdb {b : LMDBBackend ν} {pc : CreatePc}
    (h : step name opts uuid (.lmdb b) pc = some (pc', store')) :
    ∃ b', store' = .lmdb b' ∧ stepLmdb name opts uuid b pc = some (pc', b') := by
  obtain ⟨⟨pc₁, b'⟩, hs, heq⟩ := Option.map_eq_some_iff.mp h
  cases heq
  exact ⟨b', rfl, hs⟩

/-- A step on Ceph. -/
theorem step_ceph {pool : Pool ν} {pc : CreatePc}
    (h : step name opts uuid (.ceph pool) pc = some (pc', store')) :
    ∃ pool', store' = .ceph pool' ∧ stepCeph name opts uuid pool pc = some (pc', pool') := by
  obtain ⟨⟨pc₁, pool'⟩, hs, heq⟩ := Option.map_eq_some_iff.mp h
  cases heq
  exact ⟨pool', rfl, hs⟩

/-- `OpenLog` on a name that is not bound. -/
theorem step_openLog_unlinked (hname : name ≠ "") (hun : store.Unlinked name)
    (h : step name opts uuid store .openLog = some (pc', store')) :
    store' = store ∧ pc' = afterOpen opts (.error .enoent) := by
  -- the link is missing: every backend says so
  cases store with
  | ram b =>
    obtain ⟨b', rfl, hs⟩ := step_ram h
    cases hs
    have hun : b.objects.lookup ("head." ++ name) = none := hun
    simp [RAMBackend.openLog, hname, hun]
  | lmdb b =>
    obtain ⟨b', rfl, hs⟩ := step_lmdb h
    cases hs
    have hun : b.get ("head." ++ name) = none := hun
    simp [LMDBBackend.openLog, hname, hun]
  | ceph pool =>
    obtain ⟨pool', rfl, hs⟩ := step_ceph h
    have hun : pool.lookup (CephBackend.linkObjectName name) = none := hun
    simp only [stepCeph, CephBackend.readLink, Pool.query, hun] at hs
    cases hs
    exact ⟨rfl, rfl⟩

/-- `OpenLog` on a name that is bound to a complete log. -/
theorem step_openLog_linked (hname : name ≠ "") {u : Uuid} {v : ν} (hl : store.LinkedTo name u)
    (hf : store.HasFirst u v) (h : step name opts uuid store .openLog = some (pc', store')) :
    store' = store ∧ (pc' = afterOpen opts (.ok (u.hoid, u.pfx)) ∨ pc' = .readHead u.hoid) := by
  -- the link is there, and on RAM and LMDB the head object is looked at in the same step
  cases store with
  | ram b =>
    obtain ⟨b', rfl, hs⟩ := step_ram h
    cases hs
    have hl : b.objects.lookup ("head." ++ name) = some (.link u.hoid) := hl
    have hf : b.objects.lookup u.hoid = some (RAMBackend.newHead u v) := hf
    simp [RAMBackend.openLog, hname, hl, hf, RAMBackend.newHead]
  | lmdb b =>
    obtain ⟨b', rfl, hs⟩ := step_lmdb h
    cases hs
    have hl : b.get ("head." ++ name) = some (.link u.hoid) := hl
    obtain ⟨id, hid, -⟩ := hf
    simp [LMDBBackend.openLog, hname, hl, hid]
  -- on Ceph the head object is read by a step of its own
  | ceph pool =>
    obtain ⟨pool', rfl, hs⟩ := step_ceph h
    obtain ⟨obj, hobj, hlink⟩ := hl
    simp only [stepCeph, CephBackend.readLink, Pool.query, hobj, hlink] at hs
    cases hs
    exact ⟨rfl, Or.inr rfl⟩

/-- The second half of `OpenLog` over Ceph. -/
theorem step_readHead {u : Uuid} {v : ν} (hf : store.HasFirst u v)
    (h : step name opts uuid store (.readHead u.hoid) = some (pc', store')) :
    store' = store ∧ pc' = afterOpen opts (.ok (u.hoid, u.pfx)) := by
  cases store with
  | ram b => cases h
  | lmdb b => cases h
  | ceph pool =>
    obtain ⟨pool', rfl, hs⟩ := step_ceph h
    obtain ⟨obj, hobj, hhead, -⟩ := hf
    cases hs
    simp [CephBackend.readHead, Pool.query, hobj, hhead, u.pfx_ne_empty, Except.map]

/-- `CreateLog`, or its first operation, with a fresh uuid. -/
theorem step_createLog (hname : name ≠ "") (hfresh : store.Unused uuid)
    (h : step name opts uuid store .createLog = some (pc', store')) :
    (pc' = .createLink uuid ∧ AnyStore.Frame name uuid store store' ∧
      store'.HasFirst uuid opts.view) ∨
    (pc' = .proposeFirst uuid ∧ AnyStore.Frame name uuid store store' ∧ store'.Blank uuid) ∨
    (pc' = afterCreate opts (.ok (uuid.hoid, uuid.pfx)) ∧
      AnyStore.Binds name uuid store store' ∧ store'.HasFirst uuid opts.view) ∨
    (pc' = afterCreate opts (.error .eexist) ∧ store' = store ∧ ¬ store.Unlinked name) := by
  -- on RAM the head object is bound first, the link comes later
  cases store with
  | ram b =>
    obtain ⟨b', rfl, hs⟩ := step_ram h
    simp only [stepRam] at hs
    rcases b.createHead_cases uuid opts.view with ⟨hne, -⟩ | ⟨-, heq⟩
    · exact absurd hfresh hne
    · rw [heq] at hs
      cases hs
      exact Or.inl ⟨rfl, AnyStore.frame_bind name uuid b _,
        (RAMBackend.lookup_bind ..).trans (if_pos rfl)⟩
  -- LMDB does everything in one transaction
  | lmdb b =>
    obtain ⟨b', rfl, hs⟩ := step_lmdb h
    simp only [stepLmdb] at hs
    rcases b.createLog_cases hname uuid opts.view with ⟨e, heq, he⟩ | ⟨h₁, h₂, h₃, heq⟩ <;>
      rw [heq] at hs <;> cases hs
    · obtain ⟨rfl, hlink⟩ := he hfresh.1 hfresh.2
      exact Or.inr (Or.inr (Or.inr ⟨rfl, rfl, hlink⟩))
    · exact Or.inr (Or.inr (Or.inl ⟨rfl, AnyStore.binds_withLog h₁ h₂ h₃,
        AnyStore.hasFirst_withLog name uuid opts.view b⟩))
  -- on Ceph the head object is created without a view
  | ceph pool =>
    obtain ⟨pool', rfl, hs⟩ := step_ceph h
    have hfresh : pool.lookup uuid.hoid = none := hfresh
    simp only [stepCeph, CephBackend.initHeadObject, Pool.operate, headInit, hfresh,
      uuid.pfx_ne_empty, if_false] at hs
    cases hs
    exact Or.inr (Or.inl ⟨rfl, AnyStore.frame_insert name uuid pool _,
      _, AList.lookup_insert _, rfl⟩)

/-- The first view over Ceph. -/
theorem step_proposeFirst {u : Uuid} (hb : store.Blank u)
    (h : step name opts uuid store (.proposeFirst u) = some (pc', store')) :
    pc' = .createLink u ∧ AnyStore.Frame name u store store' ∧ store'.HasFirst u opts.view := by
  cases store with
  | ram b => cases h
  | lmdb b => cases h
  | ceph pool =>
    obtain ⟨pool', rfl, hs⟩ := step_ceph h
    obtain ⟨obj, hobj, hhead⟩ := hb
    simp only [stepCeph, CephBackend.proposeView, u.hoid_ne_empty, if_false, Pool.operate, hobj,
      viewCreate, HeadObject.initialize, hhead, u.pfx_ne_empty, bind, Except.bind,
      Option.getD_some, Nat.lt_irrefl, Nat.zero_add, if_true] at hs
    cases hs
    exact ⟨rfl, AnyStore.frame_insert name u pool _, _, AList.lookup_insert _, rfl,
      (Lib.OrderedMap.find?_set ..).trans (if_pos rfl)⟩

/-- The exclusive creation of the link. -/
theorem step_createLink {u : Uuid}
    (h : step name opts uuid store (.createLink u) = some (pc', store')) :
    (pc' = afterCreate opts (.ok (u.hoid, u.pfx)) ∧ AnyStore.Binds name u store store') ∨
    (pc' = afterCreate opts (.error .eexist) ∧ store' = store ∧ ¬ store.Unlinked name) := by
  -- the first client to come binds the name, later ones are refused
  cases store with
  | ram b =>
    obtain ⟨b', rfl, hs⟩ := step_ram h
    simp only [stepRam] at hs
    rcases b.createLink_cases name u with ⟨hne, heq⟩ | ⟨hun, heq⟩ <;> rw [heq] at hs <;> cases hs
    · exact Or.inr ⟨rfl, rfl, hne⟩
    · exact Or.inl ⟨rfl, AnyStore.binds_bind u hun⟩
  | lmdb b => cases h
  | ceph pool =>
    obtain ⟨pool', rfl, hs⟩ := step_ceph h
    simp only [stepCeph, CephBackend.createLinkObject, Pool.operate] at hs
    cases hl : pool.lookup (CephBackend.linkObjectName name) with
    | some obj =>
      rw [hl] at hs
      cases hs
      refine Or.inr ⟨rfl, rfl, fun hun => ?_⟩
      cases hl.symm.trans hun
    | none =>
      rw [hl] at hs
      cases hs
      exact Or.inl ⟨rfl, AnyStore.binds_insert u hl⟩

/-- Drawing an id. -/
theorem step_uniqueId {u : Uuid} {v : ν} (hf : store.HasFirst u v) {pfx : String} {created : Bool}
    {pc : CreatePc} (hpc : pc = .uniqueId u.hoid pfx created ∨ ∃ id, pc = .claimId u.hoid pfx created id)
    (h : step name opts uuid store pc = some (pc', store')) :
    AnyStore.Quiet name store store' ∧ (pc' = .uniqueId u.hoid pfx created ∨
      (∃ id, pc' = .claimId u.hoid pfx created id) ∨
      ∃ r, pc' = afterId name opts u.hoid pfx created r) := by
  cases store with
  | ram b =>
    obtain ⟨b', rfl, hs⟩ := step_ram h
    rcases hpc with rfl | ⟨id, rfl⟩
    · simp only [stepRam] at hs
      rcases b.uniqueId_cases u.hoid with ⟨-, heq⟩ | ⟨-, heq⟩ <;> rw [heq] at hs <;> cases hs
      · exact ⟨.refl name _, Or.inr (Or.inr ⟨_, rfl⟩)⟩
      · exact ⟨AnyStore.quiet_nextUniqueId name b _, Or.inr (Or.inr ⟨_, rfl⟩)⟩
    · cases hs
  | lmdb b =>
    obtain ⟨b', rfl, hs⟩ := step_lmdb h
    rcases hpc with rfl | ⟨id, rfl⟩
    · simp only [stepLmdb] at hs
      rcases b.uniqueId_cases u.hoid with ⟨e, heq⟩ | ⟨epoch, next, pfx', hget, heq⟩ <;>
        rw [heq] at hs <;> cases hs
      · exact ⟨.refl name _, Or.inr (Or.inr ⟨_, rfl⟩)⟩
      · exact ⟨AnyStore.quiet_put name hget, Or.inr (Or.inr ⟨_, rfl⟩)⟩
    · cases hs
  | ceph pool =>
    obtain ⟨pool', rfl, hs⟩ := step_ceph h
    obtain ⟨obj, hobj, -⟩ := hf
    rcases hpc with rfl | ⟨id, rfl⟩
    · simp only [stepCeph, u.hoid_ne_empty, if_false] at hs
      split at hs <;> cases hs
      · exact ⟨.refl name _, Or.inr (Or.inl ⟨_, rfl⟩)⟩
      · exact ⟨.refl name _, Or.inr (Or.inr ⟨_, rfl⟩)⟩
    · simp only [stepCeph, CephBackend.claimUniqueId] at hs
      rcases pool.operate_cases u.hoid (uniqueIdWrite id) with ⟨e, -, heq⟩ | ⟨obj', hm, heq⟩ <;>
        rw [heq] at hs
      · -- -ESTALE goes around the loop, every other error ends it
        by_cases he : e = .estale
        · rw [he] at hs
          cases hs
          exact ⟨.refl name _, Or.inl rfl⟩
        · have hs' : some (afterId name opts u.hoid pfx created (.error e), pool) =
              some (pc', pool') := by
            cases e <;> first | exact hs | exact absurd rfl he
          cases hs'
          exact ⟨.refl name _, Or.inr (Or.inr ⟨_, rfl⟩)⟩
      · cases hs
        rw [hobj] at hm
        rw [uniqueIdWrite_frame hm]
        exact ⟨AnyStore.quiet_insert name hobj _, Or.inr (Or.inr ⟨_, rfl⟩)⟩

/-- The uuid of the log that a client is making. -/
def holds : CreatePc → Option Uuid
  | .proposeFirst u => some u
  | .createLink u => some u
  | _ => none

end CreatePc

/-! ## The clients of a run -/

namespace Creator

/-- The client has nothing of the log that the name is bound to, and what it makes itself is as
    far as its control state says. -/
def Searching (store : AnyStore ν) (c : Creator ν) : Prop :=
  match c.pc with
  | .openLog => True
  | .createLog => True
  | .proposeFirst u => store.Blank u
  | .createLink u => store.HasFirst u c.opts.view
  | _ => False

/-- The client has bound the name to `u`. -/
def Created (u : Uuid) (c : Creator ν) : Prop :=
  match c.pc with
  | .uniqueId hoid pfx created => hoid = u.hoid ∧ pfx = u.pfx ∧ created = true
  | .claimId hoid pfx created _ => hoid = u.hoid ∧ pfx = u.pfx ∧ created = true
  | .done r created => created = true ∧
      ∀ o, r = .ok o → o.backend.hoid = u.hoid ∧ o.backend.pfx = u.pfx
  | _ => False

/-- The client has found the name bound to `u`. -/
def Found (u : Uuid) (c : Creator ν) : Prop :=
  match c.pc with
  | .readHead hoid => hoid = u.hoid
  | .uniqueId hoid pfx created =>
    hoid = u.hoid ∧ pfx = u.pfx ∧ created = false ∧ c.opts.errorIfExists = false
  | .claimId hoid pfx created _ =>
    hoid = u.hoid ∧ pfx = u.pfx ∧ created = false ∧ c.opts.errorIfExists = false
  | .done r created => created = false ∧
      (∀ o, r = .ok o → o.backend.hoid = u.hoid ∧ o.backend.pfx = u.pfx) ∧
      (c.opts.errorIfExists = true → r = .error .eexist)
  | _ => False

/-- A client that opens the log goes on with it. -/
theorem found_afterOpen (opts : CreateOptions ν) (u : Uuid) :
    Found u ⟨opts, .afterOpen opts (.ok (u.hoid, u.pfx))⟩ := by
  simp only [CreatePc.afterOpen]
  split
  · exact ⟨rfl, fun o ho => absurd ho (by simp), fun _ => rfl⟩
  · next he => exact ⟨rfl, rfl, rfl, by simpa using he⟩

/-- The client that has created the log goes on with it. -/
theorem created_afterCreate (opts : CreateOptions ν) (u : Uuid) :
    Created u ⟨opts, .afterCreate opts (.ok (u.hoid, u.pfx))⟩ := ⟨rfl, rfl, rfl⟩

/-- A client that lost the race gives up or opens the log of the winner. -/
theorem lost_afterCreate (store : AnyStore ν) (opts : CreateOptions ν) (u : Uuid) :
    (Searching store ⟨opts, .afterCreate opts (.error .eexist)⟩ ∧
      (CreatePc.afterCreate opts (.error .eexist)).holds ≠ some u) ∨
    Found u ⟨opts, .afterCreate opts (.error .eexist)⟩ := by
  simp only [CreatePc.afterCreate]
  split
  · exact Or.inr ⟨rfl, fun o ho => absurd ho (by simp), fun _ => rfl⟩
  · exact Or.inl ⟨trivial, by simp [CreatePc.holds]⟩

/-- The creator draws an id, and is done. -/
theorem created_afterId (name : String) (opts : CreateOptions ν) (u : Uuid) (r : Ret Nat) :
    Created u ⟨opts, .afterId name opts u.hoid u.pfx true r⟩ := by
  cases r with
  | error e => exact ⟨rfl, fun o ho => absurd ho (by simp)⟩
  | ok id =>
    refine ⟨rfl, fun o ho => ?_⟩
    cases ho
    exact ⟨rfl, rfl⟩

/-- A client that has opened the log draws an id, and is done. -/
theorem found_afterId (name : String) {opts : CreateOptions ν} (he : opts.errorIfExists = false)
    (u : Uuid) (r : Ret Nat) : Found u ⟨opts, .afterId name opts u.hoid u.pfx false r⟩ := by
  have hno : opts.errorIfExists = true → ∀ r : Ret Opened, r = .error .eexist := by
    intro h
    rw [he] at h
    cases h
  cases r with
  | error e => exact ⟨rfl, fun o ho => absurd ho (by simp), fun h => hno h _⟩
  | ok id =>
    refine ⟨rfl, fun o ho => ?_, fun h => hno h _⟩
    cases ho
    exact ⟨rfl, rfl⟩

/-- A client that is making a log has made the head object. -/
theorem Searching.not_unused {store : AnyStore ν} {c : Creator ν} (h : c.Searching store) {u : Uuid}
    (hu : c.pc.holds = some u) : ¬ store.Unused u := by
  obtain ⟨opts, pc⟩ := c
  cases pc with
  | proposeFirst u' =>
    cases hu
    exact AnyStore.Blank.not_unused h
  | createLink u' =>
    cases hu
    exact AnyStore.HasFirst.not_unused h
  | _ => cases hu

/-- What a step of one client means for the logs that the others are making. -/
structure Moves (store store' : AnyStore ν) (pc pc' : CreatePc) : Prop where
  blank : ∀ u, pc.holds ≠ some u → store.Blank u → store'.Blank u
  first : ∀ u v, pc.holds ≠ some u → store.HasFirst u v → store'.HasFirst u v
  held : ∀ u, pc'.holds = some u → pc.holds = some u ∨ store.Unused u

/-- A client that still searches is not disturbed by the others. -/
theorem Searching.moves {store store' : AnyStore ν} {pc pc' : CreatePc}
    (hm : Moves store store' pc pc') {c : Creator ν} (h : c.Searching store)
    (hne : ∀ u, c.pc.holds = some u → pc.holds ≠ some u) : c.Searching store' := by
  obtain ⟨opts, pc₁⟩ := c
  cases pc₁ with
  | proposeFirst u => exact hm.blank u (hne u rfl) h
  | createLink u => exact hm.first u opts.view (hne u rfl) h
  | _ => exact h

/-- A quiet step moves nothing. -/
theorem Moves.of_quiet {name : String} {store store' : AnyStore ν} {pc pc' : CreatePc}
    (h : AnyStore.Quiet name store store') (hheld : pc'.holds = none) :
    Moves store store' pc pc' :=
  ⟨fun u _ => h.blank u, fun u v _ => h.first u v, fun u hu => by rw [hheld] at hu; cases hu⟩

/-- A step that binds the name. -/
theorem Moves.of_binds {name : String} {u : Uuid} {store store' : AnyStore ν} {pc pc' : CreatePc}
    (h : AnyStore.Binds name u store store') (hheld : pc'.holds = none) :
    Moves store store' pc pc' :=
  ⟨fun u _ => h.blank u, fun u v _ => h.first u v, fun u hu => by rw [hheld] at hu; cases hu⟩

/-- The step of a client that starts on the log of `u` or goes on with it. -/
theorem Moves.of_frame {name : String} {u : Uuid} {store store' : AnyStore ν} {pc pc' : CreatePc}
    (h : AnyStore.Frame name u store store') (hheld : pc'.holds = some u)
    (hu : pc.holds = some u ∨ store.Unused u) : Moves store store' pc pc' := by
  refine ⟨fun u' hne hb => ?_, fun u' v hne hf => ?_, fun u' hu' => ?_⟩
  · refine h.blank u' ?_ hb
    rintro rfl
    rcases hu with hu | hu
    · exact hne hu
    · exact hb.not_unused hu
  · refine h.first u' v ?_ hf
    rintro rfl
    rcases hu with hu | hu
    · exact hne hu
    · exact hf.not_unused hu
  · rw [hheld] at hu'
    cases hu'
    exact hu

section

variable {name : String} {opts : CreateOptions ν} {uuid : Uuid} {store store' : AnyStore ν}
  {pc pc' : CreatePc}

/-- A step while the name is free. -/
theorem step_unlinked (hname : name ≠ "") (hcreate : opts.createIfMissing = true)
    (hun : store.Unlinked name) (hs : Searching store ⟨opts, pc⟩)
    (hfresh : pc = .createLog → store.Unused uuid)
    (h : pc.step name opts uuid store = some (pc', store')) :
    Moves store store' pc pc' ∧
      ((store'.Unlinked name ∧ Searching store' ⟨opts, pc'⟩) ∨
        ∃ u, store'.LinkedTo name u ∧ store'.HasFirst u opts.view ∧ Created u ⟨opts, pc'⟩ ∧
          (pc.holds = some u ∨ store.Unused u)) := by
  -- while the name is free: a client may create its objects, or bind the name and win
  cases pc with
  | openLog =>
    obtain ⟨rfl, rfl⟩ := CreatePc.step_openLog_unlinked hname hun h
    have hpc : CreatePc.afterOpen opts (.error .enoent) = .createLog := by
      simp [CreatePc.afterOpen, hcreate]
    rw [hpc]
    exact ⟨.of_quiet (.refl name _) rfl, Or.inl ⟨hun, trivial⟩⟩
  | createLog =>
    have hu := hfresh rfl
    rcases CreatePc.step_createLog hname hu h with
      ⟨rfl, hframe, hf⟩ | ⟨rfl, hframe, hb⟩ | ⟨rfl, hbinds, hf⟩ | ⟨-, -, hne⟩
    · exact ⟨.of_frame hframe rfl (Or.inr hu), Or.inl ⟨hframe.unlinked hun, hf⟩⟩
    · exact ⟨.of_frame hframe rfl (Or.inr hu), Or.inl ⟨hframe.unlinked hun, hb⟩⟩
    · exact ⟨.of_binds hbinds rfl,
        Or.inr ⟨uuid, hbinds.linked, hf, created_afterCreate opts uuid, Or.inr hu⟩⟩
    · exact absurd hun hne
  | proposeFirst u =>
    obtain ⟨rfl, hframe, hf⟩ := CreatePc.step_proposeFirst hs h
    exact ⟨.of_frame hframe rfl (Or.inl rfl), Or.inl ⟨hframe.unlinked hun, hf⟩⟩
  -- the one step that decides on RAM and Ceph
  | createLink u =>
    rcases CreatePc.step_createLink h with ⟨rfl, hbinds⟩ | ⟨-, -, hne⟩
    · exact ⟨.of_binds hbinds rfl, Or.inr ⟨u, hbinds.linked, hbinds.first u _ hs,
        created_afterCreate opts u, Or.inl rfl⟩⟩
    · exact absurd hun hne
  | _ => exact absurd hs id

/-- A client that draws its id, whether it created the log or found it. -/
theorem step_draw {u : Uuid} {v : ν} {created : Bool} (hl : store.LinkedTo name u)
    (hf : store.HasFirst u v)
    (hpc : pc = .uniqueId u.hoid u.pfx created ∨ ∃ id, pc = .claimId u.hoid u.pfx created id)
    (h : pc.step name opts uuid store = some (pc', store')) :
    (Moves store store' pc pc' ∧ store'.LinkedTo name u ∧ store'.HasFirst u v) ∧
      (pc' = .uniqueId u.hoid u.pfx created ∨ (∃ id, pc' = .claimId u.hoid u.pfx created id) ∨
        ∃ r, pc' = .afterId name opts u.hoid u.pfx created r) := by
  obtain ⟨hq, hpc'⟩ := CreatePc.step_uniqueId hf hpc h
  refine ⟨⟨.of_quiet hq ?_, hq.linked u hl, hq.first u v hf⟩, hpc'⟩
  rcases hpc' with rfl | ⟨id, rfl⟩ | ⟨r, rfl⟩
  · rfl
  · rfl
  · cases r <;> rfl

/-- A step of a client that did not bind the name. -/
theorem step_linked (hname : name ≠ "") {u : Uuid} {v : ν} (hl : store.LinkedTo name u)
    (hf : store.HasFirst u v)
    (hs : (Searching store ⟨opts, pc⟩ ∧ pc.holds ≠ some u) ∨ Found u ⟨opts, pc⟩)
    (hfresh : pc = .createLog → store.Unused uuid)
    (h : pc.step name opts uuid store = some (pc', store')) :
    (Moves store store' pc pc' ∧ store'.LinkedTo name u ∧ store'.HasFirst u v) ∧
      ((Searching store' ⟨opts, pc'⟩ ∧ pc'.holds ≠ some u) ∨ Found u ⟨opts, pc'⟩) := by
  have hdraw : ∀ created, opts.errorIfExists = false → created = false →
      (pc = .uniqueId u.hoid u.pfx created ∨ ∃ id, pc = .claimId u.hoid u.pfx created id) →
      (Moves store store' pc pc' ∧ store'.LinkedTo name u ∧ store'.HasFirst u v) ∧
        ((Searching store' ⟨opts, pc'⟩ ∧ pc'.holds ≠ some u) ∨ Found u ⟨opts, pc'⟩) := by
    rintro created he rfl hpc
    obtain ⟨hm, hpc'⟩ := step_draw hl hf hpc h
    refine ⟨hm, Or.inr ?_⟩
    rcases hpc' with rfl | ⟨id, rfl⟩ | ⟨r, rfl⟩
    · exact ⟨rfl, rfl, rfl, he⟩
    · exact ⟨rfl, rfl, rfl, he⟩
    · exact found_afterId name he u r
  have hopened : (CreatePc.afterOpen opts (.ok (u.hoid, u.pfx))).holds = none := by
    simp only [CreatePc.afterOpen]
    split <;> rfl
  have hlost : (CreatePc.afterCreate opts (.error .eexist)).holds = none := by
    simp only [CreatePc.afterCreate]
    split <;> rfl
  -- once the name is bound: a client that searches finds it, or loses with its own objects left
  -- behind
  rcases hs with ⟨hs, hheld⟩ | hs
  · cases pc with
    | openLog =>
      obtain ⟨rfl, rfl | rfl⟩ := CreatePc.step_openLog_linked hname hl hf h
      · exact ⟨⟨.of_quiet (.refl name _) hopened, hl, hf⟩, Or.inr (found_afterOpen opts u)⟩
      · exact ⟨⟨.of_quiet (.refl name _) rfl, hl, hf⟩, Or.inr rfl⟩
    | createLog =>
      have hu := hfresh rfl
      have hne : u ≠ uuid := by
        rintro rfl
        exact hf.not_unused hu
      have hheld' : some uuid ≠ some u := fun he => hne (Option.some.inj he).symm
      rcases CreatePc.step_createLog hname hu h with
        ⟨rfl, hframe, hfirst⟩ | ⟨rfl, hframe, hb⟩ | ⟨-, hbinds, -⟩ | ⟨rfl, rfl, -⟩
      · exact ⟨⟨.of_frame hframe rfl (Or.inr hu), hframe.linked u hl, hframe.first u v hne hf⟩,
          Or.inl ⟨hfirst, hheld'⟩⟩
      · exact ⟨⟨.of_frame hframe rfl (Or.inr hu), hframe.linked u hl, hframe.first u v hne hf⟩,
          Or.inl ⟨hb, hheld'⟩⟩
      · exact absurd hbinds.unlinked hl.not_unlinked
      · exact ⟨⟨.of_quiet (.refl name _) hlost, hl, hf⟩, lost_afterCreate store' opts u⟩
    | proposeFirst u' =>
      have hne : u ≠ u' := by
        rintro rfl
        exact hheld rfl
      obtain ⟨rfl, hframe, hfirst⟩ := CreatePc.step_proposeFirst hs h
      exact ⟨⟨.of_frame hframe rfl (Or.inl rfl), hframe.linked u hl, hframe.first u v hne hf⟩,
        Or.inl ⟨hfirst, hheld⟩⟩
    | createLink u' =>
      rcases CreatePc.step_createLink h with ⟨-, hbinds⟩ | ⟨rfl, rfl, -⟩
      · exact absurd hbinds.unlinked hl.not_unlinked
      · exact ⟨⟨.of_quiet (.refl name _) hlost, hl, hf⟩, lost_afterCreate store' opts u⟩
    | _ => exact absurd hs id
  · -- a client that has found the log draws an id
    cases pc with
    | readHead hoid =>
      have hhoid : hoid = u.hoid := hs
      subst hhoid
      obtain ⟨rfl, rfl⟩ := CreatePc.step_readHead hf h
      exact ⟨⟨.of_quiet (.refl name _) hopened, hl, hf⟩, Or.inr (found_afterOpen opts u)⟩
    | uniqueId hoid pfx created =>
      obtain ⟨rfl, rfl, hc, he⟩ := hs
      exact hdraw created he hc (Or.inl rfl)
    | claimId hoid pfx created id =>
      obtain ⟨rfl, rfl, hc, he⟩ := hs
      exact hdraw created he hc (Or.inr ⟨id, rfl⟩)
    | done r created => cases store <;> cases h
    | _ => exact absurd hs id

/-- A step of the client that bound the name. -/
theorem step_created {u : Uuid} {v : ν} (hl : store.LinkedTo name u) (hf : store.HasFirst u v)
    (hs : Created u ⟨opts, pc⟩) (h : pc.step name opts uuid store = some (pc', store')) :
    (Moves store store' pc pc' ∧ store'.LinkedTo name u ∧ store'.HasFirst u v) ∧
      Created u ⟨opts, pc'⟩ := by
  have hdraw : ∀ created, created = true →
      (pc = .uniqueId u.hoid u.pfx created ∨ ∃ id, pc = .claimId u.hoid u.pfx created id) →
      (Moves store store' pc pc' ∧ store'.LinkedTo name u ∧ store'.HasFirst u v) ∧
        Created u ⟨opts, pc'⟩ := by
    rintro created rfl hpc
    obtain ⟨hm, hpc'⟩ := step_draw hl hf hpc h
    refine ⟨hm, ?_⟩
    rcases hpc' with rfl | ⟨id, rfl⟩ | ⟨r, rfl⟩
    · exact ⟨rfl, rfl, rfl⟩
    · exact ⟨rfl, rfl, rfl⟩
    · exact created_afterId name opts u r
  -- the creator draws an id
  cases pc with
  | uniqueId hoid pfx created =>
    obtain ⟨rfl, rfl, hc⟩ := hs
    exact hdraw created hc (Or.inl rfl)
  | claimId hoid pfx created id =>
    obtain ⟨rfl, rfl, hc⟩ := hs
    exact hdraw created hc (Or.inr ⟨id, rfl⟩)
  | done r created => cases store <;> cases h
  | _ => exact absurd hs id

end

end Creator

/-! ## Whole runs -/

/-- The name is bound to `u`, and client `w` has bound it. -/
structure Bound (name : String) (s : Creation ν) (w : Nat) (u : Uuid) : Prop where
  linked : s.store.LinkedTo name u
  winner : ∃ c, s.clients[w]? = some c ∧ c.Created u ∧ s.store.HasFirst u c.opts.view
  others : ∀ i c, s.clients[i]? = some c → i ≠ w →
    (c.Searching s.store ∧ c.pc.holds ≠ some u) ∨ c.Found u

/-- What holds throughout a run: the clients make different logs, and the name is free or bound. -/
structure CreationOk (name : String) (s : Creation ν) : Prop where
  creates : ∀ c ∈ s.clients, c.opts.createIfMissing = true
  own : ∀ (i j : Nat) (c d : Creator ν) (u : Uuid), s.clients[i]? = some c →
    s.clients[j]? = some d → c.pc.holds = some u → d.pc.holds = some u → i = j
  phase : (s.store.Unlinked name ∧ ∀ c ∈ s.clients, c.Searching s.store) ∨
    ∃ w u, Bound name s w u

/-- A client that draws a uuid gets one that no object is named after. -/
def Creation.FreshDraw (s : Creation ν) (a : Nat × Uuid) : Prop :=
  ∀ c ∈ s.clients[a.1]?, c.pc = .createLog → s.store.Unused a.2

/-- The objects of the log are in use. -/
theorem CreationOk.not_unused {name : String} {s : Creation ν} (hi : CreationOk name s) {i : Nat}
    {c : Creator ν} {u : Uuid} (hc : s.clients[i]? = some c) (hu : c.pc.holds = some u) :
    ¬ s.store.Unused u := by
  rcases hi.phase with ⟨-, hall⟩ | ⟨w, u', hb⟩
  · exact (hall c (List.mem_of_getElem? hc)).not_unused hu
  · by_cases hw : i = w
    · obtain ⟨⟨opts, pc⟩, hcw, hcreated, -⟩ := hb.winner
      rw [hw, hcw] at hc
      cases hc
      cases pc <;> first | cases hu; done | exact absurd hcreated id
    · rcases hb.others i c hc hw with ⟨hs, -⟩ | hf
      · exact hs.not_unused hu
      · obtain ⟨opts, pc⟩ := c
        cases pc <;> first | cases hu; done | exact absurd hf id

/-- **One step** of a run. -/
theorem CreationOk.step {name : String} (hname : name ≠ "") {s s' : Creation ν} {a : Nat × Uuid}
    (hi : CreationOk name s) (hfresh : s.FreshDraw a) (h : s.step name a = some s') :
    CreationOk name s' := by
  obtain ⟨c, pc, hc, hs, hcl⟩ := Creation.step_eq_some h
  have hcreate := hi.creates c (List.mem_of_getElem? hc)
  have hlen : a.1 < s.clients.length := (List.getElem?_eq_some_iff.mp hc).1
  have hself : s'.clients[a.1]? = some ⟨c.opts, pc⟩ := by
    rw [hcl]
    exact List.getElem?_set_self hlen
  have hother : ∀ i d, s'.clients[i]? = some d → i ≠ a.1 → s.clients[i]? = some d := by
    intro i d hd hne
    rw [hcl, List.getElem?_set_ne (Ne.symm hne)] at hd
    exact hd
  have hcases : ∀ i d, s'.clients[i]? = some d →
      (i = a.1 ∧ d = ⟨c.opts, pc⟩) ∨ (i ≠ a.1 ∧ s.clients[i]? = some d) := by
    intro i d hd
    by_cases hia : i = a.1
    · rw [hia, hself] at hd
      cases hd
      exact Or.inl ⟨hia, rfl⟩
    · exact Or.inr ⟨hia, hother i d hd hia⟩
  have hcreates : ∀ d ∈ s'.clients, d.opts.createIfMissing = true := by
    intro d hd
    obtain ⟨i, hi'⟩ := List.mem_iff_getElem?.mp hd
    rcases hcases i d hi' with ⟨-, rfl⟩ | ⟨-, hd⟩
    · exact hcreate
    · exact hi.creates d (List.mem_of_getElem? hd)
  -- whatever the step was, the clients still make different logs
  have hown : Creator.Moves s.store s'.store c.pc pc →
      ∀ (i j : Nat) (d e : Creator ν) (u : Uuid), s'.clients[i]? = some d →
        s'.clients[j]? = some e → d.pc.holds = some u → e.pc.holds = some u → i = j := by
    intro hm i j d e u hd he hdu heu
    have hmoved : ∀ k x, k ≠ a.1 → s.clients[k]? = some x → x.pc.holds = some u →
        pc.holds ≠ some u := by
      intro k x hk hx hxu hpc
      rcases hm.held u hpc with hold | hun
      · exact hk (hi.own k a.1 x c u hx hc hxu hold)
      · exact hi.not_unused hx hxu hun
    rcases hcases i d hd with ⟨hia, rfl⟩ | ⟨hia, hd⟩
    · rcases hcases j e he with ⟨hja, -⟩ | ⟨hja, he⟩
      · rw [hia, hja]
      · exact absurd hdu (hmoved j e hja he heu)
    · rcases hcases j e he with ⟨hja, rfl⟩ | ⟨hja, he⟩
      · exact absurd heu (hmoved i d hia hd hdu)
      · exact hi.own i j d e u hd he hdu heu
  -- and the others are as far as they were
  have hsearch : Creator.Moves s.store s'.store c.pc pc → ∀ i d, s.clients[i]? = some d →
      i ≠ a.1 → d.Searching s.store → d.Searching s'.store := by
    intro hm i d hd hne hsd
    refine hsd.moves hm fun u hdu hcu => hne ?_
    exact hi.own i a.1 d c u hd hc hdu hcu
  rcases hi.phase with ⟨hun, hall⟩ | ⟨w, u, hb⟩
  · obtain ⟨hm, hres⟩ := Creator.step_unlinked hname hcreate hun
      (hall c (List.mem_of_getElem? hc)) (hfresh c hc) hs
    refine ⟨hcreates, hown hm, ?_⟩
    rcases hres with ⟨hun', hsc⟩ | ⟨u, hl, hf, hcreated, hu⟩
    · refine Or.inl ⟨hun', fun d hd => ?_⟩
      obtain ⟨i, hi'⟩ := List.mem_iff_getElem?.mp hd
      rcases hcases i d hi' with ⟨-, rfl⟩ | ⟨hia, hd⟩
      · exact hsc
      · exact hsearch hm i d hd hia (hall d (List.mem_of_getElem? hd))
    · refine Or.inr ⟨a.1, u, hl, ⟨_, hself, hcreated, hf⟩, fun i d hd hia => Or.inl ?_⟩
      have hd := hother i d hd hia
      refine ⟨hsearch hm i d hd hia (hall d (List.mem_of_getElem? hd)), fun hdu => ?_⟩
      rcases hu with hu | hu
      · exact hia (hi.own i a.1 d c u hd hc hdu hu)
      · exact hi.not_unused hd hdu hu
  · obtain ⟨cw, hcw, hcreated, hf⟩ := hb.winner
    by_cases hw : a.1 = w
    · rw [← hw, hc] at hcw
      cases hcw
      obtain ⟨⟨hm, hl', hf'⟩, hcreated'⟩ := Creator.step_created hb.linked hf hcreated hs
      refine ⟨hcreates, hown hm, Or.inr ⟨w, u, hl', ⟨_, hw ▸ hself, hcreated', hf'⟩, ?_⟩⟩
      intro i d hd hiw
      have hia : i ≠ a.1 := fun he => hiw (he.trans hw)
      have hd := hother i d hd hia
      rcases hb.others i d hd hiw with ⟨hsd, hne⟩ | hfound
      · exact Or.inl ⟨hsearch hm i d hd hia hsd, hne⟩
      · exact Or.inr hfound
    · obtain ⟨⟨hm, hl', hf'⟩, hlost⟩ := Creator.step_linked hname hb.linked hf
        (hb.others a.1 c hc hw) (hfresh c hc) hs
      have hcw' : s'.clients[w]? = some cw := by
        rw [hcl, List.getElem?_set_ne hw]
        exact hcw
      refine ⟨hcreates, hown hm, Or.inr ⟨w, u, hl', ⟨cw, hcw', hcreated, hf'⟩, ?_⟩⟩
      intro i d hd hiw
      rcases hcases i d hd with ⟨-, rfl⟩ | ⟨hia, hd⟩
      · exact hlost
      · rcases hb.others i d hd hiw with ⟨hsd, hne⟩ | hfound
        · exact Or.inl ⟨hsearch hm i d hd hia hsd, hne⟩
        · exact Or.inr hfound

/-- The options of the clients never change. -/
theorem Creation.map_opts {name : String} {store : AnyStore ν} {opts : List (CreateOptions ν)}
    {ok : Creation ν → Nat × Uuid → Prop} {s : Creation ν}
    (h : Lib.Run (Creation.step name) ok (Creation.init name store opts) s) :
    s.clients.map Creator.opts = opts := by
  refine h.invariant (I := fun s => s.clients.map Creator.opts = opts) ?_ ?_
  · intro t a t' ht _ hst
    obtain ⟨c, pc, hc, -, hcl⟩ := Creation.step_eq_some hst
    rw [hcl, List.map_set, ht]
    obtain ⟨hlen, hget⟩ := List.getElem?_eq_some_iff.mp hc
    apply List.ext_getElem?
    intro i
    rw [List.getElem?_set]
    split
    · next hia =>
      rw [← hia, ← ht, List.getElem?_map, hc, if_pos (by simpa using hlen)]
      rfl
    · rfl
  · simp [Creation.init, Function.comp_def]

/-- **One creator, one log**: when all clients have returned, one of them has created the log, the
    others that returned 0 have opened it, and its first view is the creator's.  A client that
    insists on creating the log and did not is told that it exists. -/
theorem one_creator (name : String) (hname : name ≠ "") (store : AnyStore ν)
    (hun : store.Unlinked name) (opts : List (CreateOptions ν)) (hne : opts ≠ [])
    (hcreate : ∀ o ∈ opts, o.createIfMissing = true) {s : Creation ν}
    (h : Lib.Run (Creation.step name) Creation.FreshDraw (Creation.init name store opts) s)
    (hdone : ∀ c ∈ s.clients, ∃ r created, c.pc = .done r created) :
    ∃ (w : Nat) (o : CreateOptions ν) (u : Uuid), opts[w]? = some o ∧
      (∀ (i : Nat) (c : Creator ν), s.clients[i]? = some c →
        ((∃ r, c.pc = .done r true) ↔ i = w)) ∧
      (∀ c ∈ s.clients, ∀ x created, c.pc = .done (.ok x) created →
        x.backend.hoid = u.hoid ∧ x.backend.pfx = u.pfx) ∧
      s.store.readViews u.hoid 1 1 = .ok [(1, o.view)] ∧
      ∀ (i : Nat) (c : Creator ν), s.clients[i]? = some c → i ≠ w →
        c.opts.errorIfExists = true → c.pc = .done (.error .eexist) false := by
  have hstart : CreatePc.start name = .openLog := if_neg hname
  have hinit : CreationOk name (Creation.init name store opts) := by
    have hpc : ∀ c ∈ (Creation.init name store opts).clients,
        c.pc = .openLog ∧ c.opts.createIfMissing = true := by
      intro c hc
      obtain ⟨o, ho, rfl⟩ := List.mem_map.mp hc
      exact ⟨hstart, hcreate o ho⟩
    refine ⟨fun c hc => (hpc c hc).2, fun i j c d u hc _ hu => ?_, Or.inl ⟨hun, fun c hc => ?_⟩⟩
    · rw [(hpc c (List.mem_of_getElem? hc)).1] at hu
      cases hu
    · unfold Creator.Searching
      rw [(hpc c hc).1]
      trivial
  have hok : CreationOk name s :=
    h.invariant (fun _ _ _ ht hfresh hst => ht.step hname hfresh hst) hinit
  have hopts : s.clients.map Creator.opts = opts := Creation.map_opts h
  rcases hok.phase with ⟨-, hall⟩ | ⟨w, u, hb⟩
  · -- a client that has returned is not searching any more
    obtain ⟨c, hc⟩ : ∃ c, c ∈ s.clients := by
      apply List.exists_mem_of_ne_nil
      rintro hnil
      rw [hnil] at hopts
      exact hne hopts.symm
    obtain ⟨r, created, hpc⟩ := hdone c hc
    have hs := hall c hc
    unfold Creator.Searching at hs
    rw [hpc] at hs
    exact absurd hs id
  · obtain ⟨cw, hcw, hcreated, hf⟩ := hb.winner
    -- the others have found the log
    have hothers : ∀ i c, s.clients[i]? = some c → i ≠ w →
        ∃ r, c.pc = .done r false ∧
          (∀ x, r = .ok x → x.backend.hoid = u.hoid ∧ x.backend.pfx = u.pfx) ∧
          (c.opts.errorIfExists = true → r = .error .eexist) := by
      intro i c hc hiw
      obtain ⟨r, created, hpc⟩ := hdone c (List.mem_of_getElem? hc)
      rcases hb.others i c hc hiw with ⟨hs, -⟩ | hfound
      · unfold Creator.Searching at hs
        rw [hpc] at hs
        exact absurd hs id
      · unfold Creator.Found at hfound
        rw [hpc] at hfound
        obtain ⟨rfl, hx, he⟩ := hfound
        exact ⟨r, hpc, hx, he⟩
    obtain ⟨rw, hwpc, hwx⟩ : ∃ r, cw.pc = .done r true ∧
        ∀ x, r = .ok x → x.backend.hoid = u.hoid ∧ x.backend.pfx = u.pfx := by
      obtain ⟨r, created, hpc⟩ := hdone cw (List.mem_of_getElem? hcw)
      unfold Creator.Created at hcreated
      rw [hpc] at hcreated
      obtain ⟨rfl, hx⟩ := hcreated
      exact ⟨r, hpc, hx⟩
    refine ⟨w, cw.opts, u, ?_, ?_, ?_, hf.readViews, ?_⟩
    · rw [← hopts, List.getElem?_map, hcw]
      rfl
    · intro i c hc
      constructor
      · rintro ⟨r, hpc⟩
        by_contra hiw
        obtain ⟨r', hpc', -⟩ := hothers i c hc hiw
        rw [hpc] at hpc'
        cases hpc'
      · rintro rfl
        rw [hcw] at hc
        cases hc
        exact ⟨rw, hwpc⟩
    · intro c hc x created hpc
      obtain ⟨i, hi⟩ := List.mem_iff_getElem?.mp hc
      by_cases hiw : i = w
      · rw [hiw, hcw] at hi
        cases hi
        rw [hwpc] at hpc
        cases hpc
        exact hwx x rfl
      · obtain ⟨r, hpc', hx, -⟩ := hothers i c hi hiw
        rw [hpc] at hpc'
        cases hpc'
        exact hx x rfl
    · intro i c hc hiw he
      obtain ⟨r, hpc, -, heexist⟩ := hothers i c hc hiw
      rw [hpc, heexist he]

section Sample

/-- Whether an id is unused can be computed. -/
instance AnyStore.decidableUnused (u : Uuid) : (store : AnyStore ν) → Decidable (store.Unused u)
  | .ram b => inferInstanceAs (Decidable (b.objects.lookup u.hoid = none))
  | .lmdb b => inferInstanceAs (Decidable
      (b.get u.hoid = none ∧ b.get (LMDBBackend.projectionKey u.hoid 1) = none))
  | .ceph pool => inferInstanceAs (Decidable (pool.lookup u.hoid = none))

/-- Whether a draw is fresh can be computed. -/
instance Creation.decidableFreshDraw (s : Creation ν) (a : Nat × Uuid) :
    Decidable (s.FreshDraw a) :=
  inferInstanceAs (Decidable (∀ c ∈ s.clients[a.1]?, c.pc = .createLog → s.store.Unused a.2))

/-- Three clients on an empty pool.  All find the name missing; the second one binds it first.
    The first insists on creating the log; the third opens it. -/
def createRace : Option (Creation Nat) :=
  Lib.exec (fun s a => if s.FreshDraw a then Creation.step "log" s a else none)
    (Creation.init "log" (.ceph ∅)
      [⟨true, true, 7, "a"⟩, ⟨true, false, 8, "b"⟩, ⟨true, false, 9, "c"⟩])
    [(0, .zero), (1, .zero), (0, .zero), (1, .one), (0, .zero), (1, .zero), (1, .zero), (0, .zero),
      (2, .zero), (2, .zero), (2, .zero), (1, .zero), (2, .zero), (1, .zero), (1, .zero),
      (1, .zero)]

theorem one_creator_createRace :
    ∃ s, createRace = some s ∧ ∃ (w : Nat) (u : Uuid),
      (∀ (i : Nat) (c : Creator Nat), s.clients[i]? = some c →
        ((∃ r, c.pc = .done r true) ↔ i = w)) ∧
      (∀ c ∈ s.clients, ∀ x created, c.pc = .done (.ok x) created →
        x.backend.hoid = u.hoid ∧ x.backend.pfx = u.pfx) ∧
      ∃ o, s.store.readViews u.hoid 1 1 = .ok [(1, o)] := by
  -- all clients have returned at the end of this run
  have hrun : (createRace.map fun s => s.clients.all fun c =>
      match c.pc with
      | .done _ _ => true
      | _ => false) = some true := by decide +kernel
  obtain ⟨s, hs, hall⟩ := Option.map_eq_some_iff.mp hrun
  have hdone : ∀ c ∈ s.clients, ∃ r created, c.pc = .done r created := by
    intro c hc
    have hpc := List.all_eq_true.mp hall c hc
    revert hpc
    cases c.pc <;> simp
  obtain ⟨w, o, u, -, hone, hsame, hview, -⟩ := one_creator "log" (by decide) (.ceph ∅) rfl _
    (by simp) (by simp) (Lib.run_of_exec_guard _ hs) hdone
  exact ⟨s, hs, w, u, hone, hsame, o.view, hview⟩

end Sample

end ZLog
