import ZLog.Client.CreateOrOpen
import ZLog.Lib.Transition
import ZLog.Storage.Creating

/-!
# Client tokens are unique

Over RAM and LMDB a unique id is a counter that one atomic step reads and increments.  Over Ceph
a client reads the stored id and then writes its successor, which the class accepts only while
the stored id is still the one that was read.  In all three an id that is handed out is recorded
in the same step, so that no later client can get it again.

## Main results

- `CreatePc.step_ids`: what one step does with the ids handed out before.
- `tokens_unique`: the ids and tokens of two clients of one log differ.
-/

namespace ZLog

open Cls

variable {ν : Type}

namespace AnyStore

/-- The backend has handed out `id` for the log of `hoid` and will not do so again. -/
def Passed (hoid : String) (id : Nat) : AnyStore ν → Prop
  | .ram b => id < b.nextUniqueId
  | .lmdb b => ∃ epoch next pfx, b.get hoid = some (.projection epoch next pfx) ∧ id < next
  | .ceph pool => ∃ obj stored, pool.lookup hoid = some obj ∧ obj.uniqueId = some stored ∧
      -- the class refuses to go on from a stored id of 0, which only a wrap can produce
      (stored = 0 ∨ (1 ≤ id ∧ id ≤ stored))

/-- Stored ids are 64-bit values. -/
def IdsFit : AnyStore ν → Prop
  | .ceph pool => ∀ oid obj id, pool.lookup oid = some obj → obj.uniqueId = some id → id < 2 ^ 64
  | _ => True

end AnyStore

/-! ## Ceph -/

namespace Pool

/-- The operation left the stored id of its object alone. -/
theorem passed_operate {pool : Pool ν} {oid : String}
    {method : Option (RadosObject ν) → Ret (RadosObject ν)}
    (hkeep : ∀ obj', method (pool.lookup oid) = .ok obj' →
      obj'.uniqueId = (pool.lookup oid).bind RadosObject.uniqueId) {hoid : String} {id : Nat}
    (h : (AnyStore.ceph pool).Passed hoid id) :
    (AnyStore.ceph (pool.operate oid method).2).Passed hoid id := by
  obtain ⟨obj, stored, hobj, hid, hle⟩ := h
  unfold operate
  cases hm : method (pool.lookup oid) with
  | error e => exact ⟨obj, stored, hobj, hid, hle⟩
  | ok obj' =>
    by_cases ho : hoid = oid
    · refine ⟨obj', stored, by rw [ho]; exact AList.lookup_insert _, ?_, hle⟩
      rw [hkeep obj' hm, ← ho, hobj]
      exact hid
    · exact ⟨obj, stored, by rw [AList.lookup_insert_ne ho]; exact hobj, hid, hle⟩

/-- A method that keeps the ids small keeps those of the pool small. -/
theorem idsFit_operate {pool : Pool ν} (oid : String)
    (method : Option (RadosObject ν) → Ret (RadosObject ν))
    (hfit : ∀ obj' id, method (pool.lookup oid) = .ok obj' → obj'.uniqueId = some id → id < 2 ^ 64)
    (h : (AnyStore.ceph pool).IdsFit) : (AnyStore.ceph (pool.operate oid method).2).IdsFit := by
  unfold operate
  cases hm : method (pool.lookup oid) with
  | error e => exact h
  | ok obj' =>
    intro key obj id hobj hid
    by_cases ho : key = oid
    · rw [ho] at hobj
      rw [show (pool.insert oid obj').lookup oid = some obj' from AList.lookup_insert _] at hobj
      cases hobj
      exact hfit obj' id hm hid
    · exact h key obj id (by rw [← hobj]; exact (AList.lookup_insert_ne ho).symm) hid

end Pool

/-- A new head object has no id. -/
theorem uniqueId_headInit {pfx : String} {obj : Option (RadosObject ν)} {obj' : RadosObject ν}
    (h : headInit pfx obj = .ok obj') : obj'.uniqueId = obj.bind RadosObject.uniqueId := by
  unfold headInit at h
  split at h
  · cases h
  · cases obj with
    | none =>
      cases h
      rfl
    | some o => cases h

/-- Proposing a view leaves the id as it is. -/
theorem uniqueId_viewCreate {epoch : Nat} {view : ν} {obj : Option (RadosObject ν)}
    {obj' : RadosObject ν} (h : viewCreate epoch view obj = .ok obj') :
    obj'.uniqueId = obj.bind RadosObject.uniqueId := by
  unfold viewCreate at h
  split at h
  · cases h
  · cases obj with
    | none => cases h
    -- the head object must be there, and the epoch the next one
    | some o =>
      cases hi : HeadObject.initialize (some o) with
      | error e =>
        rw [hi] at h
        cases h
      | ok head =>
        rw [hi] at h
        simp only [bind, Except.bind, Option.getD_some] at h
        split at h
        · cases h
          rfl
        · split at h <;> cases h

/-- A write that the class accepts stores the successor of what is there. -/
theorem uniqueIdWrite_ok {id : Nat} {obj : Option (RadosObject ν)} {obj' : RadosObject ν}
    (h : uniqueIdWrite id obj = .ok obj') :
    obj'.uniqueId = some id ∧
      ((obj.bind RadosObject.uniqueId = none ∧ id = 1) ∨
        ∃ stored, obj.bind RadosObject.uniqueId = some stored ∧ stored ≠ 0 ∧
          id = (stored + 1) % 2 ^ 64) := by
  have hstore : ∀ stored, (if id ≠ (stored + 1) % 2 ^ 64 then .error .estale
      else .ok { obj.getD {} with uniqueId := some ((stored + 1) % 2 ^ 64) } :
        Ret (RadosObject ν)) = .ok obj' →
      id = (stored + 1) % 2 ^ 64 ∧ obj'.uniqueId = some id := by
    intro stored hs
    split at hs
    · cases hs
    · next heq =>
      rw [ne_eq, not_not] at heq
      cases hs
      exact ⟨heq, by rw [heq]⟩
  unfold uniqueIdWrite at h
  cases obj with
  -- no object, or no id in it: the first id is 1
  | none =>
    obtain ⟨hid, hobj⟩ := hstore 0 h
    exact ⟨hobj, Or.inl ⟨rfl, hid⟩⟩
  | some o =>
    cases hs : o.uniqueId with
    | none =>
      simp only [storedUniqueId, hs] at h
      obtain ⟨hid, hobj⟩ := hstore 0 h
      exact ⟨hobj, Or.inl ⟨by simpa using hs, hid⟩⟩
    -- a stored id: only its successor is accepted
    | some stored =>
      simp only [storedUniqueId, hs] at h
      split at h
      · cases h
      · next hne =>
        obtain ⟨hid, hobj⟩ := hstore stored h
        exact ⟨hobj, Or.inr ⟨stored, by simpa using hs, hne, hid⟩⟩

/-! ## One step -/

/-- What a step does with the ids: none is forgotten, and one that is returned is new. -/
structure IdStep (name : String) (opts : CreateOptions ν) (store store' : AnyStore ν)
    (pc' : CreatePc) : Prop where
  passed : ∀ hoid id, store.Passed hoid id → store'.Passed hoid id
  fits : store.IdsFit → store'.IdsFit
  issued : ∀ o created, pc' = .done (.ok o) created →
    o.backend.token = makeToken name o.backend.hoid opts.host o.id ∧
      store'.Passed o.backend.hoid o.id ∧
      (store.IdsFit → ∀ id, store.Passed o.backend.hoid id → id ≠ o.id)

namespace CreatePc

/-- Opening a log returns no handle yet: the id comes first. -/
theorem afterOpen_ne_ok (opts : CreateOptions ν) (r : Ret (String × String)) (o : Opened)
    (created : Bool) : afterOpen opts r ≠ .done (.ok o) created := by
  unfold afterOpen
  split
  · split <;> simp
  · split <;> simp
  · simp

/-- Creating a log returns no handle yet: the id comes first. -/
theorem afterCreate_ne_ok (opts : CreateOptions ν) (r : Ret (String × String)) (o : Opened)
    (created : Bool) : afterCreate opts r ≠ .done (.ok o) created := by
  unfold afterCreate
  split
  · simp
  · split <;> simp
  · simp

/-- The handle has the id that was drawn. -/
theorem afterId_eq_ok {name : String} {opts : CreateOptions ν} {hoid pfx : String}
    {created created' : Bool} {r : Ret Nat} {o : Opened}
    (h : afterId name opts hoid pfx created r = .done (.ok o) created') :
    r = .ok o.id ∧ o.backend.hoid = hoid ∧
      o.backend.token = makeToken name o.backend.hoid opts.host o.id := by
  cases r with
  | error e => simp [afterId] at h
  | ok id =>
    simp only [afterId, done.injEq, Except.ok.injEq] at h
    obtain ⟨rfl, -⟩ := h
    exact ⟨rfl, rfl, rfl⟩

/-- One step on the RAM backend. -/
theorem stepRam_ids {name : String} {opts : CreateOptions ν} {uuid : Uuid} {b b' : RAMBackend ν}
    {pc pc' : CreatePc} (h : stepRam name opts uuid b pc = some (pc', b')) :
    IdStep name opts (.ram b) (.ram b') pc' := by
  -- only `uniqueId` moves the counter
  have hquiet : b'.nextUniqueId = b.nextUniqueId → (∀ o created, pc' ≠ .done (.ok o) created) →
      IdStep name opts (.ram b) (.ram b') pc' := fun hid hne =>
    ⟨fun _ id hp => show id < b'.nextUniqueId by rw [hid]; exact hp, fun _ => trivial,
      fun o created hpc => absurd hpc (hne o created)⟩
  cases pc with
  | openLog =>
    cases h
    exact hquiet rfl (afterOpen_ne_ok opts _)
  | createLog =>
    simp only [stepRam] at h
    rcases b.createHead_cases uuid opts.view with ⟨-, heq⟩ | ⟨-, heq⟩ <;> rw [heq] at h <;> cases h
    · exact hquiet rfl (afterCreate_ne_ok opts _)
    · exact hquiet rfl (by simp)
  | createLink u =>
    simp only [stepRam] at h
    rcases b.createLink_cases name u with ⟨-, heq⟩ | ⟨-, heq⟩ <;> rw [heq] at h <;> cases h
    · exact hquiet rfl (afterCreate_ne_ok opts _)
    · exact hquiet rfl (afterCreate_ne_ok opts _)
  | uniqueId hoid pfx created =>
    simp only [stepRam] at h
    rcases b.uniqueId_cases hoid with ⟨-, heq⟩ | ⟨-, heq⟩ <;> rw [heq] at h <;> cases h
    · exact hquiet rfl (by simp [afterId])
    · refine ⟨fun _ id hp => Nat.lt_succ_of_lt hp, fun _ => trivial, fun o created' hpc => ?_⟩
      obtain ⟨hr, -, htok⟩ := afterId_eq_ok hpc
      have hid : o.id = b.nextUniqueId := (Except.ok.inj hr).symm
      rw [hid] at htok ⊢
      exact ⟨htok, Nat.lt_succ_self _, fun _ id hp => Nat.ne_of_lt hp⟩
  | _ => cases h

/-- One step on LMDB. -/
theorem stepLmdb_ids {name : String} (hname : name ≠ "") {opts : CreateOptions ν} {uuid : Uuid}
    {b b' : LMDBBackend ν} {pc pc' : CreatePc}
    (h : stepLmdb name opts uuid b pc = some (pc', b')) :
    IdStep name opts (.lmdb b) (.lmdb b') pc' := by
  cases pc with
  | openLog =>
    cases h
    exact ⟨fun _ _ hp => hp, fun _ => trivial,
      fun o created hpc => absurd hpc (afterOpen_ne_ok opts _ o created)⟩
  | createLog =>
    simp only [stepLmdb] at h
    rcases b.createLog_cases hname uuid opts.view with ⟨e, heq, -⟩ | ⟨h₁, h₂, h₃, heq⟩ <;>
      rw [heq] at h <;> cases h
    · exact ⟨fun _ _ hp => hp, fun _ => trivial,
        fun o created hpc => absurd hpc (afterCreate_ne_ok opts _ o created)⟩
    · refine ⟨?_, fun _ => trivial,
        fun o created hpc => absurd hpc (afterCreate_ne_ok opts _ o created)⟩
      -- the new records go under keys that were free
      rintro hoid id ⟨epoch, next, pfx, hget, hlt⟩
      refine ⟨epoch, next, pfx, ?_, hlt⟩
      have hbound : ∀ key, b.get key = none → hoid ≠ key := by
        rintro key hkey rfl
        rw [hget] at hkey
        cases hkey
      simp only [LMDBBackend.withLog, LMDBBackend.get_put_eq, hbound _ h₁, hbound _ h₂,
        hbound _ h₃, if_false, hget]
  | uniqueId hoid pfx created =>
    simp only [stepLmdb] at h
    rcases b.uniqueId_cases hoid with ⟨e, heq⟩ | ⟨epoch, next, pfx', hget, heq⟩ <;>
      rw [heq] at h <;> cases h
    · exact ⟨fun _ _ hp => hp, fun _ => trivial, fun o created' hpc => by simp [afterId] at hpc⟩
    · refine ⟨?_, fun _ => trivial, fun o created' hpc => ?_⟩
      · rintro hoid' id ⟨epoch', next', pfx'', hget', hlt⟩
        by_cases ho : hoid' = hoid
        · rw [ho, hget] at hget'
          cases hget'
          exact ⟨epoch, next + 1, pfx', by rw [LMDBBackend.get_put_eq, if_pos ho], by omega⟩
        · exact ⟨epoch', next', pfx'', by rw [LMDBBackend.get_put_eq, if_neg ho]; exact hget', hlt⟩
      · obtain ⟨hr, hhoid, htok⟩ := afterId_eq_ok hpc
        have hid : o.id = next := (Except.ok.inj hr).symm
        refine ⟨htok, ⟨epoch, next + 1, pfx', by rw [LMDBBackend.get_put_eq, if_pos hhoid],
          by omega⟩, ?_⟩
        rintro - id ⟨epoch', next', pfx'', hget', hlt⟩
        rw [hhoid, hget] at hget'
        cases hget'
        omega
  | _ => cases h

/-- An operation of the Ceph backend that leaves the stored ids alone. -/
theorem idStep_operate {name : String} {opts : CreateOptions ν} {pool : Pool ν} {oid : String}
    {method : Option (RadosObject ν) → Ret (RadosObject ν)}
    (hkeep : ∀ obj', method (pool.lookup oid) = .ok obj' →
      obj'.uniqueId = (pool.lookup oid).bind RadosObject.uniqueId) {pc' : CreatePc}
    (hne : ∀ o created, pc' ≠ .done (.ok o) created) :
    IdStep name opts (.ceph pool) (.ceph (pool.operate oid method).2) pc' := by
  refine ⟨fun hoid id hp => Pool.passed_operate hkeep hp, fun hfit => ?_,
    fun o created hpc => absurd hpc (hne o created)⟩
  apply Pool.idsFit_operate oid method _ hfit
  intro obj' id hm hid
  rw [hkeep obj' hm] at hid
  obtain ⟨obj, hobj, hid⟩ := Option.bind_eq_some_iff.mp hid
  exact hfit oid obj id hobj hid

/-- A step that changes no id and returns no handle. -/
theorem idStep_refl {name : String} {opts : CreateOptions ν} {store : AnyStore ν} {pc' : CreatePc}
    (hne : ∀ o created, pc' ≠ .done (.ok o) created) : IdStep name opts store store pc' :=
  ⟨fun _ _ hp => hp, fun hfit => hfit, fun o created hpc => absurd hpc (hne o created)⟩

/-- The conditional write that the class accepts. -/
theorem claimId_ok {pool : Pool ν} {hoid : String} {id : Nat} {obj' : RadosObject ν}
    (hm : uniqueIdWrite id (pool.lookup hoid) = .ok obj') :
    (∀ hoid' id', (AnyStore.ceph pool).IdsFit → (AnyStore.ceph pool).Passed hoid' id' →
      (AnyStore.ceph (pool.insert hoid obj')).Passed hoid' id') ∧
    (AnyStore.ceph (pool.insert hoid obj')).Passed hoid id ∧
    ((AnyStore.ceph pool).IdsFit →
      ∀ id', (AnyStore.ceph pool).Passed hoid id' → id' ≠ id) := by
  obtain ⟨hid, hcases⟩ := uniqueIdWrite_ok hm
  have hself : (pool.insert hoid obj').lookup hoid = some obj' := AList.lookup_insert _
  refine ⟨?_, ?_, ?_⟩
  · rintro hoid' id' hfit ⟨obj, stored, hobj, hstored, hle⟩
    by_cases ho : hoid' = hoid
    · subst ho
      rw [hobj] at hcases
      refine ⟨obj', id, hself, hid, ?_⟩
      rcases hcases with ⟨hnone, -⟩ | ⟨stored', hs', hne, hnext⟩
      · rw [Option.bind_some, hstored] at hnone
        cases hnone
      · rw [Option.bind_some, hstored] at hs'
        cases hs'
        have := hfit hoid' obj stored hobj hstored
        -- past the wrap the stored id is 0, and the class accepts no write any more
        rcases Nat.lt_or_ge (stored + 1) (2 ^ 64) with hlt | hge
        · rw [Nat.mod_eq_of_lt hlt] at hnext
          omega
        · left
          rw [hnext, show stored + 1 = 2 ^ 64 by omega, Nat.mod_self]
    · exact ⟨obj, stored, by rw [AList.lookup_insert_ne ho]; exact hobj, hstored, hle⟩
  · refine ⟨obj', id, hself, hid, ?_⟩
    rcases Nat.eq_zero_or_pos id with h0 | hpos
    · exact Or.inl h0
    · exact Or.inr ⟨hpos, le_refl _⟩
  · rintro hfit id' ⟨obj, stored, hobj, hstored, hle⟩
    rw [hobj] at hcases
    rcases hcases with ⟨hnone, -⟩ | ⟨stored', hs', hne, hnext⟩
    · rw [Option.bind_some, hstored] at hnone
      cases hnone
    · rw [Option.bind_some, hstored] at hs'
      cases hs'
      have := hfit hoid obj stored hobj hstored
      rcases Nat.lt_or_ge (stored + 1) (2 ^ 64) with hlt | hge
      · rw [Nat.mod_eq_of_lt hlt] at hnext
        omega
      · have hzero : id = 0 := by rw [hnext, show stored + 1 = 2 ^ 64 by omega, Nat.mod_self]
        omega

/-- One step on Ceph: only the claim of an id changes one. -/
theorem stepCeph_ids {name : String} {opts : CreateOptions ν} {uuid : Uuid} {pool pool' : Pool ν}
    (hfit : (AnyStore.ceph pool).IdsFit) {pc pc' : CreatePc}
    (h : stepCeph name opts uuid pool pc = some (pc', pool')) :
    IdStep name opts (.ceph pool) (.ceph pool') pc' := by
  cases pc with
  | openLog =>
    simp only [stepCeph] at h
    split at h <;> cases h
    · exact idStep_refl (by simp)
    · exact idStep_refl (afterOpen_ne_ok opts _)
  | readHead hoid =>
    cases h
    exact idStep_refl (afterOpen_ne_ok opts _)
  | createLog =>
    have hstep : ∀ pc', (∀ o created, pc' ≠ .done (.ok o) created) →
        IdStep name opts (.ceph pool)
          (.ceph (CephBackend.initHeadObject pool uuid.hoid uuid.pfx).2) pc' :=
      fun pc' hne => idStep_operate (fun obj' hm => uniqueId_headInit hm) hne
    simp only [stepCeph] at h
    generalize CephBackend.initHeadObject pool uuid.hoid uuid.pfx = y at h hstep
    split at h <;> cases h
    · exact hstep _ (by simp)
    · exact hstep _ (by simp)
    · exact hstep _ (afterCreate_ne_ok opts _)
  | proposeFirst u =>
    -- proposing the first view
    have hstep : ∀ pc', (∀ o created, pc' ≠ .done (.ok o) created) →
        IdStep name opts (.ceph pool)
          (.ceph (CephBackend.proposeView pool u.hoid 1 opts.view).2) pc' := by
      intro pc' hne
      unfold CephBackend.proposeView
      rw [if_neg u.hoid_ne_empty]
      exact idStep_operate (fun obj' hm => uniqueId_viewCreate hm) hne
    simp only [stepCeph] at h
    generalize CephBackend.proposeView pool u.hoid 1 opts.view = y at h hstep
    split at h <;> cases h
    · exact hstep _ (by simp)
    · exact hstep _ (afterCreate_ne_ok opts _)
  | createLink u =>
    -- creating the link
    have hstep : ∀ pc', (∀ o created, pc' ≠ .done (.ok o) created) →
        IdStep name opts (.ceph pool)
          (.ceph (CephBackend.createLinkObject pool name u.hoid).2) pc' := by
      intro pc' hne
      refine idStep_operate (fun obj' hm => ?_) hne
      cases hl : pool.lookup (CephBackend.linkObjectName name) with
      | some obj =>
        rw [hl] at hm
        cases hm
      | none =>
        rw [hl] at hm
        cases hm
        rfl
    simp only [stepCeph] at h
    generalize CephBackend.createLinkObject pool name u.hoid = y at h hstep
    split at h <;> cases h
    · exact hstep _ (afterCreate_ne_ok opts _)
    · exact hstep _ (afterCreate_ne_ok opts _)
  | uniqueId hoid pfx created =>
    -- reading the id: the claim comes as a step of its own
    simp only [stepCeph] at h
    split at h
    · cases h
      exact idStep_refl (by simp [afterId])
    · split at h <;> cases h
      · exact idStep_refl (by simp)
      · exact idStep_refl (by simp [afterId])
  | claimId hoid pfx created id =>
    simp only [stepCeph, CephBackend.claimUniqueId] at h
    -- another client may have claimed the id since it was read
    rcases pool.operate_cases hoid (uniqueIdWrite id) with ⟨e, -, heq⟩ | ⟨obj', hm, heq⟩ <;>
      rw [heq] at h
    · split at h
      · next heq' => cases heq'
      · next heq' =>
        cases heq'
        cases h
        exact idStep_refl (by simp)
      · next heq' =>
        cases heq'
        cases h
        exact idStep_refl (by simp [afterId])
    · -- the claim went through: the id is the successor of the stored one
      cases h
      obtain ⟨hpassed, hnew, hne⟩ := claimId_ok hm
      refine ⟨fun hoid' id' hp => hpassed hoid' id' hfit hp, fun _ => ?_, fun o created' hpc => ?_⟩
      · have hids := Pool.idsFit_operate hoid (uniqueIdWrite id) ?_ hfit
        · rw [heq] at hids
          exact hids
        · intro obj'' id' hm' hid'
          obtain ⟨hid, hcases⟩ := uniqueIdWrite_ok hm'
          rw [hid] at hid'
          cases hid'
          rcases hcases with ⟨-, h1⟩ | ⟨stored, -, -, hnext⟩
          · rw [h1]
            norm_num
          · rw [hnext]
            exact Nat.mod_lt _ (by norm_num)
      · obtain ⟨hr, hhoid, htok⟩ := afterId_eq_ok hpc
        have hid : o.id = id := (Except.ok.inj hr).symm
        rw [hhoid, hid] at htok ⊢
        exact ⟨htok, hnew, hne⟩
  | done result created => cases h

/-- **One step** of `create_or_open`, over any backend. -/
theorem step_ids {name : String} (hname : name ≠ "") {opts : CreateOptions ν} {uuid : Uuid}
    {store store' : AnyStore ν} (hfit : store.IdsFit) {pc pc' : CreatePc}
    (h : step name opts uuid store pc = some (pc', store')) :
    IdStep name opts store store' pc' := by
  cases store with
  | ram b =>
    obtain ⟨⟨pc₁, b'⟩, hs, heq⟩ := Option.map_eq_some_iff.mp h
    cases heq
    exact stepRam_ids hs
  | lmdb b =>
    obtain ⟨⟨pc₁, b'⟩, hs, heq⟩ := Option.map_eq_some_iff.mp h
    cases heq
    exact stepLmdb_ids hname hs
  | ceph pool =>
    obtain ⟨⟨pc₁, pool'⟩, hs, heq⟩ := Option.map_eq_some_iff.mp h
    cases heq
    exact stepCeph_ids hfit hs

end CreatePc

/-! ## Whole runs -/

/-- Client `i` has returned 0 with `o`. -/
def Creation.Returned (s : Creation ν) (i : Nat) (o : Opened) : Prop :=
  ∃ c, s.clients[i]? = some c ∧ ∃ created, c.pc = .done (.ok o) created

/-- The ids that were returned are recorded and distinct, and the tokens end in them. -/
structure IdsOk (name : String) (s : Creation ν) : Prop where
  fits : s.store.IdsFit
  passed : ∀ i o, s.Returned i o → s.store.Passed o.backend.hoid o.id
  token : ∀ i o, s.Returned i o → ∃ host, o.backend.token = makeToken name o.backend.hoid host o.id
  distinct : ∀ i j o o', s.Returned i o → s.Returned j o' → i ≠ j →
    o.backend.hoid = o'.backend.hoid → o.id ≠ o'.id

/-- One step of any client keeps the ids apart. -/
theorem IdsOk.step {name : String} (hname : name ≠ "") {s s' : Creation ν} {a : Nat × Uuid}
    (hi : IdsOk name s) (h : s.step name a = some s') : IdsOk name s' := by
  obtain ⟨c, pc, hc, hs, hcl⟩ := Creation.step_eq_some h
  have hids := CreatePc.step_ids hname hi.fits hs
  have hlen : a.1 < s.clients.length := (List.getElem?_eq_some_iff.mp hc).1
  -- a client that has returned either had done so before, or is the one that moved
  have hcases : ∀ i o, s'.Returned i o →
      (s.Returned i o ∧ i ≠ a.1) ∨ (i = a.1 ∧ ∃ created, pc = .done (.ok o) created) := by
    rintro i o ⟨c', hc', created, hpc⟩
    rw [hcl] at hc'
    by_cases hia : i = a.1
    · rw [hia, List.getElem?_set_self hlen] at hc'
      cases hc'
      exact Or.inr ⟨hia, created, hpc⟩
    · rw [List.getElem?_set_ne (Ne.symm hia)] at hc'
      exact Or.inl ⟨⟨c', hc', created, hpc⟩, hia⟩
  refine ⟨hids.fits hi.fits, ?_, ?_, ?_⟩
  · intro i o hr
    rcases hcases i o hr with ⟨hr, -⟩ | ⟨-, created, hpc⟩
    · exact hids.passed _ _ (hi.passed i o hr)
    · exact (hids.issued o created hpc).2.1
  · intro i o hr
    rcases hcases i o hr with ⟨hr, -⟩ | ⟨-, created, hpc⟩
    · exact hi.token i o hr
    · exact ⟨_, (hids.issued o created hpc).1⟩
  · intro i j o o' hr hr' hne hhoid
    rcases hcases i o hr with ⟨hr, -⟩ | ⟨hia, created, hpc⟩
    · rcases hcases j o' hr' with ⟨hr', -⟩ | ⟨-, created', hpc'⟩
      · exact hi.distinct i j o o' hr hr' hne hhoid
      · exact (hids.issued o' created' hpc').2.2 hi.fits o.id (hhoid ▸ hi.passed i o hr)
    · rcases hcases j o' hr' with ⟨hr', -⟩ | ⟨hja, -⟩
      · exact Ne.symm ((hids.issued o created hpc).2.2 hi.fits o'.id
          (hhoid ▸ hi.passed j o' hr'))
      · exact absurd (hia.trans hja.symm) hne

/-- On the empty name `create_or_open` has returned an error before its first step. -/
theorem Creation.not_returned_empty {store : AnyStore ν} {opts : List (CreateOptions ν)}
    {s : Creation ν} (h : Lib.Reaches (Creation.step "") (Creation.init "" store opts) s) (i : Nat)
    (o : Opened) : ¬ s.Returned i o := by
  have hall : ∀ c ∈ s.clients, c.pc = .done (.error .einval) false := by
    refine h.invariant (I := fun s => ∀ c ∈ s.clients, c.pc = .done (.error .einval) false) ?_ ?_
    · intro t a u ht _ hst
      obtain ⟨c, pc, hc, hs, -⟩ := Creation.step_eq_some hst
      rw [ht c (List.mem_of_getElem? hc)] at hs
      cases hstore : t.store <;> rw [hstore] at hs <;> cases hs
    · intro c hc
      obtain ⟨o, -, rfl⟩ := List.mem_map.mp hc
      rfl
  rintro ⟨c, hc, created, hpc⟩
  rw [hall c (List.mem_of_getElem? hc)] at hpc
  cases hpc

/-- **Client tokens are unique**: two clients that opened the same log got different ids, and so
    have different tokens, whatever their hosts are called. -/
theorem tokens_unique (name : String) (store : AnyStore ν) (hfit : store.IdsFit)
    (opts : List (CreateOptions ν)) {s : Creation ν}
    (h : Lib.Reaches (Creation.step name) (Creation.init name store opts) s) {i j : Nat}
    {o o' : Opened} (hi : s.Returned i o) (hj : s.Returned j o') (hne : i ≠ j)
    (hlog : o.backend.hoid = o'.backend.hoid) :
    o.id ≠ o'.id ∧ o.backend.token ≠ o'.backend.token := by
  -- an empty name is refused before there is any id
  by_cases hname : name = ""
  · subst hname
    exact absurd hi (Creation.not_returned_empty h i o)
  -- at the start nobody has a handle
  have hinit : IdsOk name (Creation.init name store opts) := by
    have hnone : ∀ i o, ¬ (Creation.init name store opts).Returned i o := by
      rintro i o ⟨c, hc, created, hpc⟩
      obtain ⟨o', -, rfl⟩ := List.mem_map.mp (List.mem_of_getElem? hc)
      simp [CreatePc.start, hname] at hpc
    exact ⟨hfit, fun i o hr => absurd hr (hnone i o), fun i o hr => absurd hr (hnone i o),
      fun i j o o' hr => absurd hr (hnone i o)⟩
  have hok : IdsOk name s := h.invariant (fun _ _ _ ht _ hst => ht.step hname hst) hinit
  have hid := hok.distinct i j o o' hi hj hne hlog
  refine ⟨hid, fun htok => hid ?_⟩
  obtain ⟨host, hhost⟩ := hok.token i o hi
  obtain ⟨host', hhost'⟩ := hok.token j o' hj
  -- equal tokens would have equal ids in them
  rw [hhost, hhost', ← hlog] at htok
  exact makeToken_injective htok

/-- Two clients on an empty pool.  The first creates the log and reads that no id is stored; the
    second opens the log and takes id 1; the first is told so, and takes id 2. -/
def idRace : Option (Creation Nat) :=
  Lib.exec (Creation.step "log")
    (Creation.init "log" (.ceph ∅) [⟨true, false, 7, "h"⟩, ⟨true, false, 8, "h.1"⟩])
    ([0, 0, 0, 0, 0, 1, 1, 1, 1, 0, 0, 0].map fun i => (i, Uuid.zero))

/-- Two clients that open at the same time: the slower one claims again. -/
theorem tokens_unique_idRace :
    ∃ s o o', idRace = some s ∧ s.Returned 0 o ∧ s.Returned 1 o' ∧ o.id = 2 ∧ o'.id = 1 ∧
      o.backend.token ≠ o'.backend.token := by
  have h0 : (idRace.bind fun s => s.clients[0]?.map Creator.pc) =
      some (.done (.ok ⟨⟨Uuid.zero.hoid, Uuid.zero.pfx,
        makeToken "log" Uuid.zero.hoid "h" 2⟩, 2⟩) true) := by decide +kernel
  have h1 : (idRace.bind fun s => s.clients[1]?.map Creator.pc) =
      some (.done (.ok ⟨⟨Uuid.zero.hoid, Uuid.zero.pfx,
        makeToken "log" Uuid.zero.hoid "h.1" 1⟩, 1⟩) false) := by decide +kernel
  obtain ⟨s, hs, h0⟩ := Option.bind_eq_some_iff.mp h0
  rw [hs, Option.bind_some] at h1
  obtain ⟨c, hc, hpc⟩ := Option.map_eq_some_iff.mp h0
  obtain ⟨c', hc', hpc'⟩ := Option.map_eq_some_iff.mp h1
  refine ⟨s, _, _, hs, ⟨c, hc, _, hpc⟩, ⟨c', hc', _, hpc'⟩, rfl, rfl, ?_⟩
  have hfit : (AnyStore.ceph (∅ : Pool Nat)).IdsFit := fun oid obj id hobj => by cases hobj
  exact (tokens_unique "log" (.ceph ∅) hfit _ (Lib.run_of_exec _ hs) ⟨c, hc, _, hpc⟩
    ⟨c', hc', _, hpc'⟩ (by decide) rfl).2

end ZLog
