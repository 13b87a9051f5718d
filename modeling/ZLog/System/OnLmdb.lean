import ZLog.Storage.Listing
import ZLog.System.Backends
import ZLog.System.Atomic
import ZLog.Storage.Agree
import ZLog.Storage.Creating

/-!
# Clients over the LMDB backend

The clients of one log meet the premises of the agreement between the backends: they use the
names that `CreateLog` gave them, and a full trim covers every position that was touched on its
object, because every such position is mapped there and the range that is trimmed covers the
object.  What `Agrees` leaves out are the link of the log and the counter of unique ids.

## Main results

- `HoldsLog.exec`: every call of the clients is answered as the RAM backend answers it.
- `lmdb_runs_are_ram_runs`: every run over LMDB, with positions that fit the signed trim limit, is
  a run over RAM.
- `lmdb_linearizable`: the operations of the clients over LMDB are linearizable.
-/

namespace ZLog

/-! ## Records beside a data object -/

namespace LMDBBackend

variable {ν : Type} {l : LMDBBackend ν} {a : Oid} {key : String}

/-- The key is not one of the data object. -/
structure Beside (a : Oid) (key : String) : Prop where
  object : key ≠ a.name
  maxPos : key ≠ maxPosKey a.name
  below : ¬ startsWith key (a.name ++ ".entry.") = true

/-- A record that is not one of the object's is not an entry of it. -/
theorem Beside.entry (h : Beside a key) (p : Nat) : key ≠ logEntryKey a.name p := by
  rintro rfl
  apply h.below
  rw [logEntryKey_eq]
  exact (startsWith_entry_iff a _).mpr ⟨p, rfl⟩

/-- Head objects are beside every log object. -/
theorem beside_head (a : Oid) (u : Uuid) : Beside a u.hoid := by
  rw [← Key.head_name]
  refine ⟨?_, ?_, ?_⟩
  · rw [← Key.object_name]
    exact fun h => Key.noConfusion (Key.name_injective h)
  · rw [maxPosKey_eq]
    exact fun h => Key.noConfusion (Key.name_injective h)
  · rw [startsWith_entry_iff]
    rintro ⟨p, h⟩
    cases h

/-- A key that starts with a prefix starts with its first character. -/
theorem head_eq_of_startsWith {pfx : String} (h : startsWith key pfx = true) :
    pfx.toList.head? = none ∨ key.toList.head? = pfx.toList.head? := by
  unfold startsWith at h
  cases hp : pfx.toList with
  | nil => exact Or.inl rfl
  | cons d ds =>
    cases hk : key.toList with
    | nil => simp [hp, hk] at h
    | cons c cs =>
      simp only [hp, hk, List.length_cons, strncmpEq, Bool.and_eq_true, beq_iff_eq] at h
      exact Or.inr (congrArg some h.2.1)

/-- Links are beside every log object. -/
theorem beside_link (a : Oid) (name : String) : Beside a ("head." ++ name) := by
  refine ⟨?_, ?_, ?_⟩
  · rw [← Key.object_name]
    exact (link_ne_key name _).symm
  · rw [maxPosKey_eq]
    exact (link_ne_key name _).symm
  · intro h
    have hhead := head_eq_of_startsWith h
    simp [Oid.name, Uuid.pfx, String.toList_append] at hhead

/-- A record that is put leaves the others. -/
theorem putNew_beside {l' : LMDBBackend ν} {key' : String} {x : Record ν}
    (h : l.putNew key' x = some l') (hne : key ≠ key') : l'.get key = l.get key := by
  obtain ⟨-, rfl⟩ := putNew_eq_some.mp h
  exact get_put_of_ne l hne x

/-- Storing an entry leaves the records beside the object. -/
theorem putEntry_beside (hk : Beside a key) (p : Nat) (x : Record ν) (pos : Nat) :
    (l.putEntry a.name p x pos).get key = l.get key := by
  unfold putEntry
  rw [get_put_of_ne _ (hk.entry p), get_put_of_ne _ hk.maxPos]

/-- Deleting the entries leaves the records beside the object. -/
theorem deleteEntries_beside (hk : Beside a key) :
    ((l.getAll (a.name ++ ".entry.")).foldl delete l).get key = l.get key := by
  rw [get_foldl_delete, if_neg]
  exact fun hmem => hk.below (List.mem_filter.mp hmem).2

/-- `Write` leaves the records beside its object. -/
theorem write_beside (hk : Beside a key) (data : String) (e p : Nat) :
    (l.write a.name data e p).2.get key = l.get key := by
  unfold write
  split
  · rfl
  · split
    · rfl
    · split
      · rfl
      · split
        · rfl
        · next b h =>
          rw [get_put_of_ne _ hk.maxPos]
          exact putNew_beside h (hk.entry p)

/-- `Fill` leaves the records beside its object. -/
theorem fill_beside (hk : Beside a key) (e p : Nat) :
    (l.fill a.name e p).2.get key = l.get key := by
  unfold fill
  split
  · rfl
  · split
    · rfl
    · split
      · split
        · rfl
        · split <;> rfl
      · rfl
      · split
        · rfl
        · exact putEntry_beside hk p _ _

/-- Trimming one position leaves the records beside its object. -/
theorem trimEntry_beside (hk : Beside a key) {p : Nat} {l' : LMDBBackend ν}
    (h : l.trimEntry a.name p = .ok l') : l'.get key = l.get key := by
  unfold trimEntry at h
  split at h
  · split at h
    · cases h
    · cases h
      exact putEntry_beside hk p _ _
  · split at h
    · cases h
    · split at h
      · cases h
      · cases h
        exact putEntry_beside hk p _ _
  · cases h

/-- `Trim` leaves the records beside its object, whatever the flags. -/
theorem trim_beside (hk : Beside a key) (e p : Nat) (trimLimit trimFull : Bool) :
    (l.trim a.name e p trimLimit trimFull).2.get key = l.get key := by
  unfold trim
  split
  · rfl
  · split
    · rfl
    · next current limit _ =>
      have hput : ∀ t : Int, (l.put a.name (.log current t)).get key = l.get key :=
        fun t => get_put_of_ne l hk.object _
      dsimp only
      generalize (if trimLimit = true then
        if 0 ≤ limit then toInt64 (max p (toUInt64 limit)) else toInt64 p else limit) = t
      split
      · -- a full trim, a position that the limit covers, or a single one
        exact (deleteEntries_beside hk).trans (hput _)
      · split
        · exact hput _
        · split
          · rfl
          · split
            · rfl
            · next h => exact (trimEntry_beside hk h).trans (hput _)

/-- `Seal` leaves the records beside its object. -/
theorem seal_beside (hk : Beside a key) (e : Nat) :
    (l.seal a.name e).2.get key = l.get key := by
  unfold «seal»
  split
  · rfl
  · split
    · rfl
    · split
      · exact get_put_of_ne l hk.object _
      · split
        · rfl
        · exact get_put_of_ne l hk.object _
      · rfl

/-- **Frame**: a call on a data object leaves the other records alone. -/
theorem exec_beside (hk : Beside a key) {α : Type} {c : Call ν α} (hc : c.oid = some a.name) :
    (l.exec c).2.get key = l.get key := by
  cases c with
  | read => rfl
  | maxPos => rfl
  | write oid data e p =>
    cases hc
    exact write_beside hk data e p
  | fill oid e p =>
    cases hc
    exact fill_beside hk e p
  | trim oid e p trimLimit trimFull =>
    cases hc
    exact trim_beside hk e p trimLimit trimFull
  | «seal» oid e =>
    cases hc
    exact seal_beside hk e
  -- the other calls are not about a log object
  | openLog => cases hc
  | uniqueId => cases hc
  | readViews => cases hc
  | proposeView => cases hc
  | skip => cases hc

/-- A proposal keeps the counter and the prefix of the log, and the other records. -/
theorem proposeView_head_record {u : Uuid} {id : Nat} {pfx : String}
    (h : ∃ epoch, l.get u.hoid = some (.projection epoch id pfx)) (e : Nat) (view : ν) :
    ∃ epoch, (l.proposeView u.hoid e view).2.get u.hoid = some (.projection epoch id pfx) := by
  obtain ⟨epoch, hl⟩ := h
  unfold proposeView
  split
  · exact ⟨epoch, hl⟩
  · split
    · exact ⟨epoch, hl⟩
    · simp only [hl]
      split
      · exact ⟨epoch, hl⟩
      · split
        · exact ⟨epoch, hl⟩
        · split
          · exact ⟨epoch, hl⟩
          · exact ⟨e, get_put_self _ _ _⟩

/-- `ProposeView` leaves the links. -/
theorem proposeView_link (name : String) (u : Uuid) (e : Nat) (view : ν) :
    (l.proposeView u.hoid e view).2.get ("head." ++ name) = l.get ("head." ++ name) := by
  unfold proposeView
  split
  · rfl
  · split
    · rfl
    · split
      · rfl
      · split
        · rfl
        · split
          · rfl
          · split
            · rfl
            · next b h =>
              rw [get_put_of_ne _ (link_ne_hoid name u)]
              apply putNew_beside h
              rw [projectionKey_eq]
              exact (link_ne_key name _).symm
      · rfl

end LMDBBackend

/-! ## The counter of unique ids -/

/-- Only `UniqueId` counts. -/
theorem RAMBackend.nextUniqueId_object (r : Store) {α : Type} {c : Call Fbs.View α} {oid : String}
    (hc : c.oid = some oid) : (r.exec c).2.nextUniqueId = r.nextUniqueId := by
  cases c with
  | read => rfl
  | maxPos => rfl
  | write oid data e p =>
    show (r.write oid data e p).2.nextUniqueId = _
    rcases r.write_cases oid data e p with ⟨err, -, hw⟩ | ⟨o, -, -, hw⟩ | ⟨o, -, -, hw⟩ <;>
      simp only [hw, RAMBackend.setLog]
  | fill oid e p =>
    show (r.fill oid e p).2.nextUniqueId = _
    rcases r.fill_cases oid e p with ⟨err, -, hf⟩ | ⟨o, d, -, -, hf⟩ | ⟨o, -, -, hf⟩ |
      ⟨o, -, -, hf⟩ <;> simp only [hf, RAMBackend.setLog]
  | trim oid e p trimLimit trimFull =>
    show (r.trim oid e p trimLimit trimFull).2.nextUniqueId = _
    rcases r.trim_cases oid e p trimLimit trimFull with ⟨-, -, ht⟩ | ⟨err, -, ht⟩ |
      ⟨o, -, -, ht⟩ <;> simp only [ht, RAMBackend.setLog]
  | «seal» oid e =>
    show (r.seal oid e).2.nextUniqueId = _
    rcases r.seal_cases oid e with ⟨-, hs⟩ | ⟨-, -, -, hs⟩ | ⟨o, -, -, hs⟩ |
      ⟨o, -, -, -, hs⟩ | ⟨-, -, hs⟩ <;> simp only [hs, RAMBackend.setLog]
  | openLog => cases hc
  | uniqueId => cases hc
  | readViews => cases hc
  | proposeView => cases hc
  | skip => cases hc

/-- `ProposeView` does not count. -/
theorem RAMBackend.nextUniqueId_proposeView (r : Store) (hoid : String) (e : Nat)
    (view : Fbs.View) : (r.proposeView hoid e view).2.nextUniqueId = r.nextUniqueId := by
  unfold proposeView
  repeat' split
  all_goals rfl

/-! ## The log on both backends -/

/-- Both backends hold the log of the clients, after the calls of `h`. -/
structure HoldsLog (u : Uuid) (name : String) (h : List (Done Fbs.View)) (r : Store)
    (l : LMDBBackend Fbs.View) : Prop where
  agrees : Agrees h r l
  link : l.get ("head." ++ name) = some (.link u.hoid)
  ids : ∃ epoch, l.get u.hoid = some (.projection epoch r.nextUniqueId u.pfx)
  /-- The positions that were touched on an object are mapped there. -/
  mapped : ∀ s i, ∀ q ∈ touched (onOid (dataOid u s i) h), Mapped (viewsOf u r) q s i

section

variable {u : Uuid} {name : String} {h : List (Done Fbs.View)} {r : Store}
  {l : LMDBBackend Fbs.View}

/-- A full trim of the clients covers every position touched on its object. -/
theorem HoldsLog.fullTrimOk (hh : HoldsLog u name h r l) (hlog : LogOk u name r) {α : Type}
    {c : Call Fbs.View α} (hc : CallOk u name r c) : FullTrimOk h c := by
  cases hc with
  | openLog => trivial
  | uniqueId => trivial
  | readViews => trivial
  | proposeView => trivial
  | read => trivial
  | write => trivial
  | fill => trivial
  | trim => trivial
  | «seal» => trivial
  | maxPos => trivial
  | @trimRange e p s i v stripe full hv hs hmin hmem =>
    cases full with
    | false => trivial
    | true =>
      -- a full trim comes with a stripe of the log: it covers every position the object can
      -- have
      obtain ⟨L, hL⟩ := hlog.history.layout
      obtain ⟨-, hid, hw, hlo, hhi⟩ := (hL v hv.mem).stripeById_ok hs
      obtain ⟨j, -, hj, hcover⟩ := ObjectMap.mem_mapToObjects hid hw hlo hhi hmem
      obtain ⟨-, rfl⟩ := oidAt_injective hj
      intro q hq
      obtain ⟨hs, hi⟩ := (hh.mapped s i q hq).layout hL
      exact hcover rfl q hs.symm hi.symm

/-- A call on a data object. -/
theorem HoldsLog.exec_object (hh : HoldsLog u name h r l) (hlog : LogOk u name r) {α : Type}
    {c : Call Fbs.View α} (hc : CallOk u name r c) (hon : OnLogs c) {s i : Nat}
    (hoid : c.oid = some (dataOid u s i))
    (htouch : ∀ reply, ∀ q ∈ (⟨c, reply⟩ : Done Fbs.View).touches, Mapped (viewsOf u r) q s i) :
    (l.exec c).1 = (r.exec c).1 ∧ ∃ h', HoldsLog u name h' (r.exec c).2 (l.exec c).2 := by
  obtain ⟨heq, hg⟩ := hh.agrees.exec hon (hh.fullTrimOk hlog hc)
  have hgrows := (hc.exec hlog).grows.views
  -- the object's own records, by the agreement of the two backends
  refine ⟨heq.symm, _, hg, ?_, ?_, ?_⟩
  · -- the link and the head object are beside it
    rw [LMDBBackend.exec_beside (LMDBBackend.beside_link _ name) hoid]
    exact hh.link
  · rw [LMDBBackend.exec_beside (LMDBBackend.beside_head _ u) hoid,
      RAMBackend.nextUniqueId_object r hoid]
    exact hh.ids
  · -- what was touched is mapped, also what this call has touched
    intro s' i' q hq
    rw [touched_onOid_append] at hq
    rcases List.mem_append.mp hq with hold | hnew
    · exact (hh.mapped s' i' q hold).mono hgrows
    · by_cases hsame : c.oid = some (dataOid u s' i')
      · rw [if_pos hsame] at hnew
        obtain ⟨rfl, rfl⟩ := dataOid_injective (Option.some.inj (hoid.symm.trans hsame))
        exact (htouch _ q (Option.mem_toList.mp hnew)).mono hgrows
      · rw [if_neg hsame] at hnew
        exact absurd hnew List.not_mem_nil

/-- Both sides find the log under its name. -/
theorem HoldsLog.openLog (hh : HoldsLog u name h r l) (hname : name ≠ "") :
    l.openLog name = .ok (u.hoid, u.pfx) := by
  obtain ⟨epoch, hids⟩ := hh.ids
  unfold LMDBBackend.openLog
  rw [if_neg hname, hh.link]
  dsimp only
  rw [hids]

/-- The counters of the two backends go together. -/
theorem HoldsLog.uniqueId (hh : HoldsLog u name h r l) :
    (l.uniqueId u.hoid).1 = (r.uniqueId u.hoid).1 ∧
      HoldsLog u name h (r.uniqueId u.hoid).2 (l.uniqueId u.hoid).2 := by
  obtain ⟨epoch, hids⟩ := hh.ids
  -- both sides answer the counter and raise it
  have hl : l.uniqueId u.hoid = (.ok r.nextUniqueId,
      l.put u.hoid (.projection epoch (r.nextUniqueId + 1) u.pfx)) := by
    unfold LMDBBackend.uniqueId
    rw [if_neg u.hoid_ne_empty, hids]
  have hr : r.uniqueId u.hoid =
      (.ok r.nextUniqueId, { r with nextUniqueId := r.nextUniqueId + 1 }) := by
    unfold RAMBackend.uniqueId
    rw [if_neg u.hoid_ne_empty]
  rw [hl, hr]
  refine ⟨rfl, ?_, ?_, ⟨epoch, LMDBBackend.get_put_self _ _ _⟩, hh.mapped⟩
  · refine hh.agrees.set_head u rfl (fun _ _ _ => rfl) ?_ ?_
    · intro k hk _
      rw [← Key.head_name, LMDBBackend.get_put, if_neg hk]
    · -- the head object is there on both sides, with its views as before
      rcases hh.agrees.head_cases u with ⟨-, hnone, -⟩ | ⟨proj, id, vs, hp⟩
      · rw [Key.head_name, hids] at hnone
        cases hnone
      · have hhead := hp.head
        rw [Key.head_name, hids] at hhead
        have hrecord := Option.some.inj hhead
        injection hrecord with hepoch _ hpfx
        rw [Key.head_name, LMDBBackend.get_put_self, hp.ram, hepoch, hpfx]
        refine .present proj _ vs _ hp.ne_nil hp.epoch hp.views ?_
        intro e
        rw [← Key.head_name, LMDBBackend.get_put, if_neg (by simp)]
        exact hp.view e
  · rw [LMDBBackend.get_put_of_ne _ (link_ne_hoid name u)]
    exact hh.link

/-- **One call** of the clients is answered alike, and both backends still hold the log. -/
theorem HoldsLog.exec (hh : HoldsLog u name h r l) (hlog : LogOk u name r) {α : Type}
    {c : Call Fbs.View α} (hc : CallOk u name r c) (hpos : ∀ p ∈ c.position?, p < 2 ^ 63) :
    (l.exec c).1 = (r.exec c).1 ∧ ∃ h', HoldsLog u name h' (r.exec c).2 (l.exec c).2 := by
  have hok := hc
  cases hc with
  -- calls on the head object
  | openLog => exact ⟨(hh.openLog hlog.head.link.1).trans hlog.openLog.symm, h, hh⟩
  | uniqueId => exact ⟨hh.uniqueId.1, h, hh.uniqueId.2⟩
  | readViews e n => exact ⟨(hh.agrees.exec (.readViews u e n) trivial).1.symm, h, hh⟩
  | @proposeView e v v' hv hn =>
    obtain ⟨heq, hg⟩ := hh.agrees.exec (.proposeView u (e + 1) v'.encode) (hh.fullTrimOk hlog hok)
    refine ⟨heq.symm, _, hg, ?_, ?_, ?_⟩
    · exact (LMDBBackend.proposeView_link name u _ _).trans hh.link
    · show ∃ epoch, (l.proposeView u.hoid (e + 1) v'.encode).2.get u.hoid =
        some (.projection epoch (r.proposeView u.hoid (e + 1) v'.encode).2.nextUniqueId u.pfx)
      rw [RAMBackend.nextUniqueId_proposeView]
      exact LMDBBackend.proposeView_head_record hh.ids _ _
    · intro s i q hq
      rw [touched_onOid_append, if_neg nofun, List.append_nil] at hq
      exact (hh.mapped s i q hq).mono (hok.exec hlog).grows.views
  -- calls on the objects; what they touch is mapped by a view
  | @read e p s i =>
    exact hh.exec_object hlog hok (.read ⟨u, s, i⟩ e p (hpos p rfl)) rfl nofun
  | @write e p s i v last data hv hm =>
    refine hh.exec_object hlog hok (.write ⟨u, s, i⟩ data e p (hpos p rfl)) rfl ?_
    intro reply q hq
    cases reply with
    | error => cases hq
    | ok =>
      cases hq
      exact mapped_of_map hv hm
  | @fill e p s i v last hv hm =>
    refine hh.exec_object hlog hok (.fill ⟨u, s, i⟩ e p (hpos p rfl)) rfl ?_
    intro reply q hq
    cases reply with
    | error => cases hq
    | ok =>
      cases hq
      exact mapped_of_map hv hm
  | @trim e p s i v last hv hm =>
    refine hh.exec_object hlog hok (.trim ⟨u, s, i⟩ e p false false (hpos p rfl)) rfl ?_
    intro reply q hq
    cases reply with
    | error => cases hq
    | ok =>
      cases hq
      exact mapped_of_map hv hm
  | @trimRange e p s i v stripe full hv hs hmin hmem =>
    refine hh.exec_object hlog hok (.trim ⟨u, s, i⟩ e p true full (hpos p rfl)) rfl ?_
    intro reply q hq
    cases reply <;> cases hq
  | «seal» s i => exact hh.exec_object hlog hok (.seal ⟨u, s, i⟩ _) rfl nofun
  | maxPos s i => exact hh.exec_object hlog hok (.maxPos ⟨u, s, i⟩) rfl nofun

/-! ## Runs -/

/-- The client runs on LMDB as it does on RAM. -/
instance : Backend (LMDBBackend Fbs.View) where
  exec l := l.exec

/-- The backends answer alike as long as positions fit the signed trim limit. -/
theorem simulates_lmdb (u : Uuid) (name : String) :
    Simulates u name (2 ^ 63) (fun r l => ∃ h, HoldsLog u name h r l) where
  call := by
    rintro r l α c ⟨h, hh⟩ hlog hc hpos
    exact hh.exec hlog hc hpos

/-- The world over LMDB in which the first client has just created the log. -/
def LMDBBackend.world (name : String) (uuid : Uuid) (options : Options) (host : Host) :
    Option (WorldOver (LMDBBackend Fbs.View)) :=
  match View.createInitial options with
  | .error _ => none
  | .ok blob =>
    match ({} : LMDBBackend Fbs.View).createLog name blob uuid.text with
    | (.ok (hoid, pfx), backend) =>
      some { name := name, backend := backend,
             clients := [⟨options, host, true, {},
               Client.newThreads (.uniqueId hoid pfx) 0⟩], clock := 1 }
    | (.error _, _) => none

variable {options : Options} {host : Host} {v v₀ : WorldOver (LMDBBackend Fbs.View)}

/-- A fresh RAM backend takes every log. -/
theorem RAMBackend.createLog_empty (hname : name ≠ "") (u : Uuid) (blob : Fbs.View) :
    ∃ r, ({} : Store).createLog name blob u.text = (.ok (u.hoid, u.pfx), r) ∧
      r.nextUniqueId = 0 := by
  rcases createLog_fresh ({} : Store) hname (AList.lookup_empty u.hoid) blob with
    ⟨hbound, -⟩ | ⟨-, hcreate⟩
  · exact absurd (AList.lookup_empty _) hbound
  · exact ⟨_, hcreate, rfl⟩

/-- A log created on LMDB is one created on RAM. -/
theorem LMDBBackend.world_eq (h : LMDBBackend.world name u options host = some v₀) :
    ∃ w₀, World.init name u options host = some w₀ ∧ Mirrors w₀ v₀ ∧
      ∃ h, HoldsLog u name h w₀.backend v₀.backend := by
  unfold LMDBBackend.world at h
  split at h
  · cases h
  · next blob hblob =>
    split at h
    · next hoid pfx l hl =>
      cases h
      have hname : name ≠ "" := by
        rintro rfl
        cases hl
      rcases ({} : LMDBBackend Fbs.View).createLog_cases hname u blob with
        ⟨e, heq, -⟩ | ⟨-, -, -, heq⟩
      · cases heq.symm.trans hl
      · cases heq.symm.trans hl
        obtain ⟨r, hr, hid⟩ := RAMBackend.createLog_empty hname u blob
        have hinit : World.init name u options host = some
            { name := name, backend := r,
              clients := [⟨options, host, true, {},
                Client.newThreads (.uniqueId u.hoid u.pfx) 0⟩], clock := 1 } := by
          simp only [World.init, hblob, hr]
        -- both sides have the log that `CreateLog` made, and nothing else
        refine ⟨_, hinit, ⟨rfl, rfl, rfl⟩, [], ?_, ?_, ⟨1, ?_⟩, ?_⟩
        · exact Agrees.empty.createLog ⟨name, blob, u⟩ hr heq
        · exact LMDBBackend.get_put_self _ _ _
        · unfold LMDBBackend.withLog
          rw [LMDBBackend.get_put_of_ne _ (link_ne_hoid name u).symm,
            LMDBBackend.get_put_of_ne, LMDBBackend.get_put_self, hid]
          rw [LMDBBackend.projectionKey_eq, ← Key.head_name]
          exact fun h => Key.noConfusion (Key.name_injective h)
        · exact fun s i q hq => absurd hq List.not_mem_nil
    · cases h

/-- **Every run over LMDB is a run over RAM**: the actions that drive the clients over LMDB drive them
    over RAM, and after each of them the clients are the same and the same actions are enabled. -/
theorem lmdb_runs_are_ram_runs (h₀ : LMDBBackend.world name u options host = some v₀)
    {actions : List Action}
    (h : Lib.exec (WorldOver.stepBelow (2 ^ 63)) v₀ actions = some v) :
    ∃ w₀, World.init name u options host = some w₀ ∧ ∀ before after, actions = before ++ after →
      ∃ w₁ v₁, Lib.exec World.step w₀ before = some w₁ ∧
        Lib.exec (WorldOver.stepBelow (2 ^ 63)) v₀ before = some v₁ ∧ Mirrors w₁ v₁ ∧
        ∀ a, (v₁.step a).isSome = (w₁.step a).isSome := by
  obtain ⟨w₀, hw₀, hm, hr⟩ := LMDBBackend.world_eq h₀
  refine ⟨w₀, hw₀, ?_⟩
  rintro before after rfl
  exact (simulates_lmdb u name).drives (.init hw₀) hm hr h

/-! ## Histories -/

namespace WorldOver

variable {S : Type}

/-- Thread `tid` of client `cid`. -/
def thread? (v : WorldOver S) (cid tid : Nat) : Option Thread :=
  match v.clients[cid]? with
  | none => none
  | some c => c.threads[tid]?

/-- The operation is recorded in the world. -/
def Returned (v : WorldOver S) (x : OpRecord) : Prop :=
  ∃ t, v.thread? x.cid x.tid = some t ∧ t.pc = .op x.request (.done x.result) ∧
    t.invokedAt = x.invoked ∧ t.doneAt = some x.done

/-- The thread is in a `trimTo` that was under way at the time. -/
def Trimming (v : WorldOver S) (cid tid p time : Nat) : Prop :=
  ∃ t pc, v.thread? cid tid = some t ∧ t.pc = .op (.trimTo p) pc ∧ t.invokedAt < time ∧
    ∀ done, t.doneAt = some done → time < done

/-- The points at which the array of slots was looked at and changed, oldest first. -/
structure Linearized (v : WorldOver S) (points : List Point) : Prop where
  legal : ∃ slots, Lib.Legal Point.Step (fun _ => .unwritten) points slots
  stamped : Lib.Stamped Point.time points v.clock
  takes : ∀ x, .takes x ∈ points ↔ v.Returned x
  within : ∀ x, v.Returned x → x.invoked < x.done
  erases : ∀ cid tid p time, .erases cid tid p time ∈ points → v.Trimming cid tid p time

end WorldOver

section

variable {S : Type} {w : World} {v : WorldOver S}

/-- The threads are the same on both sides. -/
theorem Mirrors.thread? (hm : Mirrors w v) (cid tid : Nat) :
    v.thread? cid tid = (w.thread? cid tid).map Thread.forget := by
  unfold WorldOver.thread? World.thread?
  rw [hm.clients, List.getElem?_map]
  cases w.clients[cid]? with
  | none => rfl
  | some c => exact List.getElem?_map ..

/-- So are the operations that have returned. -/
theorem Mirrors.returned (hm : Mirrors w v) (x : OpRecord) : v.Returned x ↔ w.Returned x := by
  constructor
  · rintro ⟨t, ht, hpc, hinv, hdone⟩
    rw [hm.thread?] at ht
    obtain ⟨t₀, ht₀, rfl⟩ := Option.map_eq_some_iff.mp ht
    exact ⟨t₀, ht₀, hpc, hinv, hdone⟩
  · rintro ⟨t, ht, hpc, hinv, hdone⟩
    refine ⟨t.forget, ?_, hpc, hinv, hdone⟩
    rw [hm.thread?, ht]
    rfl

/-- And those that run. -/
theorem Mirrors.trimming (hm : Mirrors w v) {cid tid p time : Nat}
    (h : w.Trimming cid tid p time) : v.Trimming cid tid p time := by
  obtain ⟨t, pc, ht, hpc, hinv, hdone⟩ := h
  refine ⟨t.forget, pc, ?_, hpc, hinv, hdone⟩
  rw [hm.thread?, ht]
  rfl

/-- The points are those of the clients, whatever the backend. -/
theorem Mirrors.linearized {u : Uuid} {points : List Point} (hm : Mirrors w v)
    (h : Linearized u w points) : v.Linearized points where
  legal := ⟨_, h.legal⟩
  stamped := hm.clock ▸ h.stamped
  takes x := (h.takes x).trans (hm.returned x).symm
  within x hx := h.within x ((hm.returned x).mp hx)
  erases cid tid p time hmem := hm.trimming (h.erases cid tid p time hmem)

end

/-- **Linearizability over LMDB**: in every run, the operations that have returned took effect one
    at a time between their invocation and their return, with the answers of the array. -/
theorem lmdb_linearizable (h₀ : LMDBBackend.world name u options host = some v₀)
    (h : Lib.Run WorldOver.step (WorldOver.CallsBelow (2 ^ 63)) v₀ v) :
    ∃ points, v.Linearized points := by
  obtain ⟨w₀, hw₀, hm, hr⟩ := LMDBBackend.world_eq h₀
  obtain ⟨w, hw, hm', -⟩ := (simulates_lmdb u name).run hw₀ hm hr h
  obtain ⟨points, hl⟩ := (Linearized.init hw₀).run (Good.init hw₀) hw
  exact ⟨points, hm'.linearized hl⟩

end

/-- The world over LMDB after some actions. -/
def Sample.lmdb (actions : List Action) : Option (WorldOver (LMDBBackend Fbs.View)) :=
  (LMDBBackend.world "log" uuid options host).bind fun v =>
    Lib.exec (WorldOver.stepBelow (2 ^ 63)) v actions

/-- A client that trims over LMDB can take the same next steps as one over RAM. -/
theorem lmdb_runs_are_ram_runs_sample :
    ∃ v w₀, Sample.lmdb Sample.trimmed = some v ∧
      World.init "log" Sample.uuid Sample.options Sample.host = some w₀ ∧
      ∃ w₁, Lib.exec World.step w₀ Sample.trimmed = some w₁ ∧ Mirrors w₁ v ∧
        ∀ a, (v.step a).isSome = (w₁.step a).isSome := by
  have hrun : (Sample.lmdb Sample.trimmed).isSome = true := by decide +kernel
  obtain ⟨v, hv⟩ := Option.isSome_iff_exists.mp hrun
  obtain ⟨v₀, h₀, h⟩ := Option.bind_eq_some_iff.mp hv
  obtain ⟨w₀, hw₀, hprefix⟩ := lmdb_runs_are_ram_runs h₀ h
  obtain ⟨w₁, v₁, hw₁, hv₁, hm, henabled⟩ := hprefix Sample.trimmed [] (List.append_nil _).symm
  cases h.symm.trans hv₁
  exact ⟨v, w₀, hv, hw₀, w₁, hw₁, hm, henabled⟩

/-- A `trimTo` erases a position that has been appended, and a read over LMDB finds it erased. -/
theorem lmdb_linearizable_sample :
    ∃ v points, Sample.lmdb Sample.trimmed = some v ∧ v.Linearized points ∧
      .takes ⟨0, 6, .read 0, .error .enodata, 39, 42⟩ ∈ points := by
  have hrun : (Sample.lmdb Sample.trimmed).bind (fun v => v.thread? 0 6) =
      some ⟨.op (.read 0) (.done (.error .enodata)), 39, some 42, []⟩ := by decide +kernel
  obtain ⟨v, hv, ht⟩ := Option.bind_eq_some_iff.mp hrun
  obtain ⟨v₀, h₀, h⟩ := Option.bind_eq_some_iff.mp hv
  obtain ⟨points, hl⟩ := lmdb_linearizable h₀ (Lib.run_of_exec_guard _ h)
  exact ⟨v, points, hv, hl, (hl.takes _).mpr ⟨_, ht, rfl, rfl, rfl⟩⟩

end ZLog
