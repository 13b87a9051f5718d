import ZLog.Storage.Agree
import ZLog.Storage.Creating

/-!
# Failed creations and the listing of logs

`CreateLog` stores the head object, the first view and the link of a log, and finds out about a
name that is taken only at the last of them.  The LMDB backend aborts the transaction then; the RAM
backend has released its lock and leaves the head object behind.  `ListHeads` and `ListLinks` filter
the key space of the store, so they show what a failed creation left.

## Main result

- `createLog_noTrace`: on LMDB a failed creation never leaves a trace; on RAM it leaves none exactly
  when no name is used twice.
-/

namespace ZLog

variable {σ ν : Type}

/-! ## Stores that create and list logs -/

/-- The methods of a backend that create, open and list logs. -/
structure LogStore (σ ν : Type) where
  createLog : σ → String → ν → String → Ret (String × String) × σ
  openLog : σ → String → Ret (String × String)
  listHeads : σ → List String
  listLinks : σ → List String

/-- The RAM backend as a store of logs. -/
def RAMBackend.logStore : LogStore (RAMBackend ν) ν where
  createLog := RAMBackend.createLog
  openLog := RAMBackend.openLog
  listHeads := RAMBackend.listHeads
  listLinks := RAMBackend.listLinks

/-- The LMDB backend as a store of logs. -/
def LMDBBackend.logStore : LogStore (LMDBBackend ν) ν where
  createLog := LMDBBackend.createLog
  openLog := LMDBBackend.openLog
  listHeads := LMDBBackend.listHeads
  listLinks := LMDBBackend.listLinks

/-- The name and the uuid of a log, as they are recorded once it was created. -/
def NewLog.entry (log : NewLog ν) : String × Uuid := (log.name, log.uuid)

namespace LogStore

variable (S : LogStore σ ν)

/-- One `CreateLog` of the store. -/
def create (s : σ) (log : NewLog ν) : Ret (String × String) × σ :=
  S.createLog s log.name log.view log.uuid.text

/-- The store after a sequence of calls of `CreateLog`. -/
def run (s : σ) (logs : List (NewLog ν)) : σ := logs.foldl (fun s log => (S.create s log).2) s

/-- The names whose creation returned 0, in order. -/
def created (s : σ) : List (NewLog ν) → List String
  | [] => []
  | log :: logs =>
    match S.create s log with
    | (.ok _, s') => log.name :: created s' logs
    | (.error _, s') => created s' logs

/-- The head object that `OpenLog` finds for a name. -/
def hoidOf (s : σ) (name : String) : Option String :=
  match S.openLog s name with
  | .ok (hoid, _) => some hoid
  | .error _ => none

/-- A failed creation leaves no trace: the store is as it was, and the listings show exactly the
    logs that were created. -/
structure NoTrace (s : σ) (logs : List (NewLog ν)) : Prop where
  failed : ∀ done log rest, logs = done ++ log :: rest → ∀ e,
    (S.create (S.run s done) log).1 = .error e →
      (S.create (S.run s done) log).2 = S.run s done
  opens : ∀ name ∈ S.created s logs, ∃ x, S.openLog (S.run s logs) name = .ok x
  once : (S.created s logs).Nodup
  heads : (S.listHeads (S.run s logs)).Perm
    ((S.created s logs).filterMap (S.hoidOf (S.run s logs)))
  links : (S.listLinks (S.run s logs)).Perm ((S.created s logs).map ("head." ++ ·))

/-- A history of creations grows at its end. -/
theorem run_append (s : σ) (done : List (NewLog ν)) (log : NewLog ν) :
    S.run s (done ++ [log]) = (S.create (S.run s done) log).2 := by
  simp [run]

/-- A creation that succeeds adds its name to the logs created. -/
theorem created_append (s : σ) (done : List (NewLog ν)) (log : NewLog ν) :
    S.created s (done ++ [log]) = S.created s done ++
      (match (S.create (S.run s done) log).1 with
        | .ok _ => [log.name]
        | .error _ => []) := by
  induction done generalizing s with
  | nil =>
    simp only [List.nil_append, created, run, List.foldl_nil]
    split <;> next h => rw [h]
  | cons l done ih =>
    simp only [List.cons_append, created, run, List.foldl_cons]
    split <;> next h =>
      rw [h]
      simpa [run] using ih _

/-- The store holds exactly the logs `cs`. -/
structure Holds (s : σ) (cs : List (String × Uuid)) : Prop where
  opens : ∀ c ∈ cs, S.openLog s c.1 = .ok (c.2.hoid, c.2.pfx)
  heads : ∀ key, key ∈ S.listHeads s ↔ ∃ c ∈ cs, key = c.2.hoid
  links : ∀ key, key ∈ S.listLinks s ↔ ∃ c ∈ cs, key = "head." ++ c.1
  headsOnce : (S.listHeads s).Nodup
  linksOnce : (S.listLinks s).Nodup
  names : (cs.map Prod.fst).Nodup
  uuids : (cs.map Prod.snd).Nodup

variable {S}

/-- Two names with one link are the same. -/
theorem head_append_injective {m n : String} (h : "head." ++ m = "head." ++ n) : m = n := by
  have hl := congrArg String.toList h
  rw [String.toList_append, String.toList_append] at hl
  exact String.toList_inj.mp (List.append_cancel_left hl)

/-- The head objects of the logs that a store holds. -/
theorem Holds.hoids {s : σ} {cs : List (String × Uuid)} (h : S.Holds s cs) :
    (cs.map Prod.fst).filterMap (S.hoidOf s) = cs.map (fun c => c.2.hoid) := by
  rw [List.filterMap_map]
  have hall : ∀ c ∈ cs, (S.hoidOf s ∘ Prod.fst) c = some c.2.hoid := by
    intro c hc
    simp [hoidOf, h.opens c hc]
  rw [List.filterMap_congr hall]
  exact List.filterMap_eq_map_iff_forall_eq_some.mpr fun _ _ => rfl

/-- A store that holds exactly the created logs lists them and nothing else. -/
theorem Holds.noTrace {s : σ} {logs : List (NewLog ν)} {cs : List (String × Uuid)}
    (h : S.Holds (S.run s logs) cs) (hcs : S.created s logs = cs.map Prod.fst)
    (hfailed : ∀ done log rest, logs = done ++ log :: rest → ∀ e,
      (S.create (S.run s done) log).1 = .error e →
        (S.create (S.run s done) log).2 = S.run s done) : S.NoTrace s logs := by
  refine ⟨hfailed, ?_, ?_, ?_, ?_⟩
  · -- every log that was created can be opened
    intro name hname
    rw [hcs] at hname
    obtain ⟨c, hc, rfl⟩ := List.mem_map.mp hname
    exact ⟨_, h.opens c hc⟩
  · rw [hcs]
    exact h.names
  · -- the head objects are those of the logs, each listed once
    rw [hcs, h.hoids]
    have hnodup : (cs.map (fun c => c.2.hoid)).Nodup := by
      have hmap := h.uuids.map (fun _ _ => Uuid.hoid_injective)
      rwa [List.map_map] at hmap
    apply (List.perm_ext_iff_of_nodup h.headsOnce hnodup).mpr
    intro key
    rw [h.heads, List.mem_map]
    simp only [eq_comm]
  · -- and so are the links
    rw [hcs]
    have hnodup : ((cs.map Prod.fst).map ("head." ++ ·)).Nodup :=
      h.names.map fun _ _ => head_append_injective
    apply (List.perm_ext_iff_of_nodup h.linksOnce hnodup).mpr
    intro key
    rw [h.links, List.map_map, List.mem_map]
    simp only [Function.comp_apply, eq_comm]

/-- What one creation does to a store that holds the logs `cs`: it fails and changes nothing, or
    it adds the log. -/
def Adds (S : LogStore σ ν) (I : σ → List (String × Uuid) → Prop) (s : σ)
    (cs : List (String × Uuid)) (log : NewLog ν) : Prop :=
  (∃ e, S.create s log = (.error e, s)) ∨
  ∃ x s', S.create s log = (.ok x, s') ∧ I s' (cs ++ [log.entry])

/-- **Runs of creations**: when every creation adds its log or changes nothing, the store holds
    the created logs in the end. -/
theorem run_holds {I : σ → List (String × Uuid) → Prop} {s : σ} (hstart : I s [])
    (logs : List (NewLog ν))
    (hstep : ∀ done log rest, logs = done ++ log :: rest → ∀ t cs, I t cs →
      cs ⊆ done.map NewLog.entry → S.Adds I t cs log) :
    (∃ cs, I (S.run s logs) cs ∧ S.created s logs = cs.map Prod.fst) ∧
    ∀ done log rest, logs = done ++ log :: rest → ∀ e,
      (S.create (S.run s done) log).1 = .error e →
        (S.create (S.run s done) log).2 = S.run s done := by
  -- every initial part of the run keeps the invariant for the logs created in it
  have hpart : ∀ done rest, logs = done ++ rest →
      ∃ cs, I (S.run s done) cs ∧ S.created s done = cs.map Prod.fst ∧
        cs ⊆ done.map NewLog.entry := by
    intro done
    induction done using List.reverseRecOn with
    | nil =>
      intro rest _
      exact ⟨[], hstart, rfl, List.nil_subset _⟩
    | append_singleton done log ih =>
      intro rest heq
      rw [List.append_assoc, List.singleton_append] at heq
      obtain ⟨cs, hI, hcs, hsub⟩ := ih (log :: rest) heq
      have hmono : done.map NewLog.entry ⊆ (done ++ [log]).map NewLog.entry := by
        rw [List.map_append]
        exact List.subset_append_left _ _
      rw [run_append, created_append]
      rcases hstep done log rest heq _ cs hI hsub with ⟨e, hr⟩ | ⟨x, s', hr, hI'⟩
      · rw [hr]
        exact ⟨cs, hI, by rw [hcs, List.append_nil], fun c hc => hmono (hsub hc)⟩
      · rw [hr]
        refine ⟨cs ++ [log.entry], hI', ?_, ?_⟩
        · rw [hcs, List.map_append]
          rfl
        · intro c hc
          rcases List.mem_append.mp hc with hc | hc
          · exact hmono (hsub hc)
          · rw [List.mem_singleton.mp hc, List.map_append]
            exact List.mem_append_right _ (List.mem_singleton.mpr rfl)
  constructor
  · obtain ⟨cs, hI, hcs, -⟩ := hpart logs [] (List.append_nil _).symm
    exact ⟨cs, hI, hcs⟩
  · intro done log rest heq e he
    obtain ⟨cs, hI, -, hsub⟩ := hpart done (log :: rest) heq
    rcases hstep done log rest heq _ cs hI hsub with ⟨e', hr⟩ | ⟨x, s', hr, -⟩
    · rw [hr]
    · rw [hr] at he
      cases he

end LogStore

/-! ## Names in the key space -/

/-- The characters of a head object's name. -/
theorem toList_hoid (u : Uuid) : u.hoid.toList = "zlog.head.".toList ++ u.text.toList :=
  String.toList_append ..

/-- A head object is no link. -/
theorem hoid_ne_link (u : Uuid) (name : String) : u.hoid ≠ "head." ++ name := by
  rw [← Key.head_name]
  exact link_ne_key name _

/-- The key of a view is no link. -/
theorem view_ne_link (u : Uuid) (e : Nat) (name : String) :
    LMDBBackend.projectionKey u.hoid e ≠ "head." ++ name := by
  rw [LMDBBackend.projectionKey, ← Key.view_name]
  exact link_ne_key name _

/-- A head object is not the key of a view. -/
theorem hoid_ne_view (u v : Uuid) (e : Nat) : u.hoid ≠ LMDBBackend.projectionKey v.hoid e := by
  rw [LMDBBackend.projectionKey, ← Key.view_name, ← Key.head_name]
  intro h
  cases Key.name_injective h

/-- The key of a link. -/
def IsLinkKey (key : String) : Prop := "head.".toList <+: key.toList

/-- The key of a head object: the prefix and no dot behind it. -/
def IsHeadKey (key : String) : Prop :=
  "zlog.head.".toList <+: key.toList ∧ '.' ∉ key.toList.drop "zlog.head.".toList.length

/-- A link has the form of a link. -/
theorem isLinkKey_link (name : String) : IsLinkKey ("head." ++ name) := by
  unfold IsLinkKey
  rw [String.toList_append]
  exact List.prefix_append _ _

/-- What starts like a head object is no link. -/
theorem not_isLinkKey_of_head {key : String} (h : "zlog.head.".toList <+: key.toList) :
    ¬ IsLinkKey key := by
  intro hl
  have hpre := List.prefix_of_prefix_length_le hl h (by decide)
  exact absurd hpre (by decide)

/-- A link is no head object. -/
theorem not_isHeadKey_link (name : String) : ¬ IsHeadKey ("head." ++ name) :=
  fun h => not_isLinkKey_of_head h.1 (isLinkKey_link name)

/-- A head object has the form of one. -/
theorem isHeadKey_hoid (u : Uuid) : IsHeadKey u.hoid := by
  unfold IsHeadKey
  rw [toList_hoid]
  exact ⟨List.prefix_append _ _, by rw [List.drop_left]; exact u.dotFree⟩

/-- The key of a view starts like a head object. -/
theorem prefix_view (u : Uuid) (e : Nat) :
    "zlog.head.".toList <+: (LMDBBackend.projectionKey u.hoid e).toList := by
  unfold LMDBBackend.projectionKey
  rw [String.toList_append, String.toList_append, toList_hoid, List.append_assoc, List.append_assoc]
  exact List.prefix_append _ _

/-- The key of a view has a dot behind the name of its head object. -/
theorem not_isHeadKey_view (u : Uuid) (e : Nat) :
    ¬ IsHeadKey (LMDBBackend.projectionKey u.hoid e) := by
  rintro ⟨-, hdot⟩
  apply hdot
  unfold LMDBBackend.projectionKey
  rw [String.toList_append, String.toList_append, toList_hoid, List.append_assoc, List.append_assoc,
    List.drop_left]
  apply List.mem_append_right
  exact List.mem_append_left _ (by decide)

/-- `StartsWith` compares whole prefixes. -/
theorem RAMBackend.startsWith_iff (s pfx : String) :
    RAMBackend.startsWith s pfx = true ↔ pfx.toList <+: s.toList := List.isPrefixOf_iff_prefix

/-! ## The RAM backend -/

namespace RAMBackend

/-- `ListLinks` returns the keys that have the form of a link. -/
theorem mem_listLinks {b : RAMBackend ν} {key : String} :
    key ∈ b.listLinks ↔ key ∈ b.objects ∧ IsLinkKey key := by
  simp [listLinks, startsWith_iff, IsLinkKey, AList.mem_keys]

/-- `ListHeads` returns the keys that have the form of a head object. -/
theorem mem_listHeads {b : RAMBackend ν} {key : String} :
    key ∈ b.listHeads ↔ key ∈ b.objects ∧ IsHeadKey key := by
  simp [listHeads, startsWith_iff, IsHeadKey, AList.mem_keys]

/-- The keys of the logs `cs`, and what is bound to them. -/
structure Logs (b : RAMBackend ν) (cs : List (String × Uuid)) : Prop where
  bound : ∀ key, key ∈ b.objects ↔ ∃ c ∈ cs, key = "head." ++ c.1 ∨ key = c.2.hoid
  named : ∀ c ∈ cs, c.1 ≠ ""
  link : ∀ c ∈ cs, b.objects.lookup ("head." ++ c.1) = some (.link c.2.hoid)
  head : ∀ c ∈ cs, ∃ proj, b.objects.lookup c.2.hoid = some (.projection proj) ∧
    proj.pfx = c.2.pfx
  names : (cs.map Prod.fst).Nodup
  uuids : (cs.map Prod.snd).Nodup

/-- A RAM store that holds the logs lists and opens them. -/
theorem Logs.holds {b : RAMBackend ν} {cs : List (String × Uuid)} (h : b.Logs cs) :
    RAMBackend.logStore.Holds b cs := by
  refine ⟨?_, ?_, ?_, ?_, ?_, h.names, h.uuids⟩
  · -- `OpenLog` finds the link, and the head object behind it
    intro c hc
    obtain ⟨proj, hproj, hpfx⟩ := h.head c hc
    show b.openLog c.1 = _
    unfold openLog
    rw [if_neg (h.named c hc), h.link c hc]
    simp only [hproj, hpfx]
  · -- `ListHeads` skips the links
    intro key
    show key ∈ b.listHeads ↔ _
    rw [mem_listHeads, h.bound]
    constructor
    · rintro ⟨⟨c, hc, rfl | rfl⟩, hk⟩
      · exact absurd hk (not_isHeadKey_link _)
      · exact ⟨c, hc, rfl⟩
    · rintro ⟨c, hc, rfl⟩
      exact ⟨⟨c, hc, Or.inr rfl⟩, isHeadKey_hoid _⟩
  · -- `ListLinks` skips the head objects
    intro key
    show key ∈ b.listLinks ↔ _
    rw [mem_listLinks, h.bound]
    constructor
    · rintro ⟨⟨c, hc, rfl | rfl⟩, hk⟩
      · exact ⟨c, hc, rfl⟩
      · exact absurd hk (not_isLinkKey_of_head (isHeadKey_hoid _).1)
    · rintro ⟨c, hc, rfl⟩
      exact ⟨⟨c, hc, Or.inl rfl⟩, isLinkKey_link _⟩
  · exact (AList.keys_nodup b.objects).filter _
  · exact (AList.keys_nodup b.objects).filter _

/-- A store without objects holds no log. -/
theorem Logs.empty {b : RAMBackend ν} (hb : b.objects = ∅) : b.Logs [] := by
  refine ⟨?_, ?_, ?_, ?_, List.nodup_nil, List.nodup_nil⟩
  · intro key
    simp [hb, AList.notMem_empty]
  all_goals
    intro c hc
    cases hc

/-- The state after a creation that succeeds. -/
def withLog (b : RAMBackend ν) (name : String) (u : Uuid) (view : ν) : RAMBackend ν :=
  (b.bind u.hoid (newHead u view)).bind ("head." ++ name) (.link u.hoid)

/-- A creation with a fresh uuid: the head object is there before the name is looked at, so it
    stays when the name is taken. -/
theorem createLog_fresh (b : RAMBackend ν) {name : String} (hname : name ≠ "") {u : Uuid}
    (hu : b.objects.lookup u.hoid = none) (view : ν) :
    (b.objects.lookup ("head." ++ name) ≠ none ∧
      b.createLog name view u.text = (.error .eexist, b.bind u.hoid (newHead u view))) ∨
    (b.objects.lookup ("head." ++ name) = none ∧
      b.createLog name view u.text = (.ok (u.hoid, u.pfx), b.withLog name u view)) := by
  unfold createLog
  rw [if_neg hname]
  rcases b.createHead_cases u view with ⟨hne, -⟩ | ⟨-, hhead⟩
  · -- the head object is new: `CreateLog` binds it before it looks at the link
    exact absurd hu hne
  · rw [hhead]
    have hlookup : (b.bind u.hoid (newHead u view)).objects.lookup ("head." ++ name) =
        b.objects.lookup ("head." ++ name) := by
      rw [lookup_bind, if_neg (hoid_ne_link u name).symm]
    rcases (b.bind u.hoid (newHead u view)).createLink_cases name u with ⟨hl, hr⟩ | ⟨hl, hr⟩
    · -- the name is taken, and the head object stays behind
      rw [hlookup] at hl
      exact Or.inl ⟨hl, by simp only [hr]⟩
    · -- the name is free
      rw [hlookup] at hl
      exact Or.inr ⟨hl, by simp only [hr]; rfl⟩

/-- The head object of an id that no log has is missing. -/
theorem Logs.head_none {b : RAMBackend ν} {cs : List (String × Uuid)} (h : b.Logs cs) {u : Uuid}
    (hu : u ∉ cs.map Prod.snd) : b.objects.lookup u.hoid = none := by
  rw [AList.lookup_eq_none, h.bound]
  rintro ⟨c, hc, hk | hk⟩
  · exact hoid_ne_link u _ hk
  · rw [Uuid.hoid_injective hk] at hu
    exact hu (List.mem_map_of_mem hc)

/-- The link of a name that no log has is missing. -/
theorem Logs.link_none {b : RAMBackend ν} {cs : List (String × Uuid)} (h : b.Logs cs)
    {name : String} (hnew : name ∉ cs.map Prod.fst) :
    b.objects.lookup ("head." ++ name) = none := by
  rw [AList.lookup_eq_none, h.bound]
  rintro ⟨c, hc, hk | hk⟩
  · rw [LogStore.head_append_injective hk] at hnew
    exact hnew (List.mem_map_of_mem hc)
  · exact hoid_ne_link _ _ hk.symm

/-- `CreateLog` with a new name and a new id adds one log. -/
theorem Logs.withLog {b : RAMBackend ν} {cs : List (String × Uuid)} (h : b.Logs cs)
    {name : String} (hname : name ≠ "") (hnew : name ∉ cs.map Prod.fst) {u : Uuid}
    (hu : u ∉ cs.map Prod.snd) (view : ν) : (b.withLog name u view).Logs (cs ++ [(name, u)]) := by
  have hlookup : ∀ key, (b.withLog name u view).objects.lookup key =
      if key = "head." ++ name then some (.link u.hoid)
      else if key = u.hoid then some (newHead u view) else b.objects.lookup key := by
    intro key
    unfold RAMBackend.withLog
    rw [lookup_bind, lookup_bind]
  -- what is bound: the two objects of the new log, and those of the logs before
  refine ⟨?_, ?_, ?_, ?_, ?_, ?_⟩
  · intro key
    unfold RAMBackend.withLog bind
    rw [AList.mem_insert, AList.mem_insert, h.bound]
    have hlast : (name, u) ∈ cs ++ [(name, u)] :=
      List.mem_append_right _ (List.mem_singleton.mpr rfl)
    constructor
    · rintro (hk | hk | ⟨c, hc, hk⟩)
      · exact ⟨_, hlast, Or.inl hk⟩
      · exact ⟨_, hlast, Or.inr hk⟩
      · exact ⟨c, List.mem_append_left _ hc, hk⟩
    · rintro ⟨c, hc, hk⟩
      rcases List.mem_append.mp hc with hc | hc
      · exact Or.inr (Or.inr ⟨c, hc, hk⟩)
      · rw [List.mem_singleton.mp hc] at hk
        rcases hk with hk | hk
        · exact Or.inl hk
        · exact Or.inr (Or.inl hk)
  · intro c hc
    rcases List.mem_append.mp hc with hc | hc
    · exact h.named c hc
    · rw [List.mem_singleton.mp hc]
      exact hname
  · -- the links of the logs before are in their place, since the name is new
    intro c hc
    rw [hlookup]
    rcases List.mem_append.mp hc with hc | hc
    · have hne : "head." ++ c.1 ≠ "head." ++ name := by
        intro heq
        rw [← LogStore.head_append_injective heq] at hnew
        exact hnew (List.mem_map_of_mem hc)
      rw [if_neg hne, if_neg (hoid_ne_link _ _).symm]
      exact h.link c hc
    · rw [List.mem_singleton.mp hc, if_pos rfl]
  · -- and so are their head objects, since the id is new
    intro c hc
    rw [hlookup, if_neg (hoid_ne_link _ _)]
    rcases List.mem_append.mp hc with hc | hc
    · have hne : c.2.hoid ≠ u.hoid := by
        intro heq
        rw [← Uuid.hoid_injective heq] at hu
        exact hu (List.mem_map_of_mem hc)
      rw [if_neg hne]
      exact h.head c hc
    · rw [List.mem_singleton.mp hc, if_pos rfl]
      exact ⟨_, rfl, rfl⟩
  · rw [List.map_append]
    exact List.nodup_append_comm.mp (List.nodup_cons.mpr ⟨hnew, h.names⟩)
  · rw [List.map_append]
    exact List.nodup_append_comm.mp (List.nodup_cons.mpr ⟨hu, h.uuids⟩)

/-- A creation with a name that is not taken adds the log. -/
theorem Logs.adds {b : RAMBackend ν} {cs : List (String × Uuid)} (h : b.Logs cs) (log : NewLog ν)
    (hu : log.uuid ∉ cs.map Prod.snd) (hnew : log.name ≠ "" → log.name ∉ cs.map Prod.fst) :
    RAMBackend.logStore.Adds Logs b cs log := by
  show (∃ e, b.createLog log.name log.view log.uuid.text = _) ∨
    ∃ x s', b.createLog log.name log.view log.uuid.text = _ ∧ _
  by_cases hname : log.name = ""
  · left
    exact ⟨.einval, by unfold createLog; rw [if_pos hname]⟩
  · have hfree := hnew hname
    rcases b.createLog_fresh hname (h.head_none hu) log.view with ⟨hl, -⟩ | ⟨-, hr⟩
    · exact absurd (h.link_none hfree) hl
    · exact Or.inr ⟨_, _, hr, h.withLog hname hfree hu log.view⟩

/-- What every run of creations with fresh uuids does to the keys: a name that was used is taken,
    and a uuid that was not drawn is free. -/
structure Used (b : RAMBackend ν) (done : List (NewLog ν)) : Prop where
  taken : ∀ log ∈ done, log.name ≠ "" → b.objects.lookup ("head." ++ log.name) ≠ none
  free : ∀ u, u ∉ done.map NewLog.uuid → b.objects.lookup u.hoid = none

/-- A store without objects has used no id. -/
theorem Used.empty {b : RAMBackend ν} (hb : b.objects = ∅) : b.Used [] := by
  constructor
  · intro log hlog
    cases hlog
  · intro u _
    rw [hb]
    rfl

/-- A creation uses its own id, whether it succeeds or not. -/
theorem Used.create {b : RAMBackend ν} {done : List (NewLog ν)} (h : b.Used done) (log : NewLog ν)
    (hu : log.uuid ∉ done.map NewLog.uuid) :
    (RAMBackend.logStore.create b log).2.Used (done ++ [log]) := by
  -- every key that was bound stays bound, and the only new head is that of the new uuid
  have hkeep : ∀ b' : RAMBackend ν,
      (log.name ≠ "" → b'.objects.lookup ("head." ++ log.name) ≠ none) →
      (∀ name, b.objects.lookup ("head." ++ name) ≠ none →
        b'.objects.lookup ("head." ++ name) ≠ none) →
      (∀ u : Uuid, u ≠ log.uuid → b.objects.lookup u.hoid = none →
        b'.objects.lookup u.hoid = none) → b'.Used (done ++ [log]) := by
    intro b' hnew htaken hfree
    constructor
    · intro l hl hname
      rcases List.mem_append.mp hl with hl | hl
      · exact htaken _ (h.taken l hl hname)
      · rw [List.mem_singleton.mp hl] at hname ⊢
        exact hnew hname
    · intro u hu'
      rw [List.map_append, List.mem_append, not_or] at hu'
      apply hfree u
      · rintro rfl
        exact hu'.2 (List.mem_singleton.mpr rfl)
      · exact h.free u hu'.1
  show (b.createLog log.name log.view log.uuid.text).2.Used (done ++ [log])
  by_cases hname : log.name = ""
  · have hr : b.createLog log.name log.view log.uuid.text = (.error .einval, b) := by
      unfold createLog
      rw [if_pos hname]
    rw [hr]
    exact hkeep b (fun hne => absurd hname hne) (fun _ hb => hb) (fun _ _ hb => hb)
  · rcases b.createLog_fresh hname (h.free _ hu) log.view with ⟨hl, hr⟩ | ⟨-, hr⟩ <;> rw [hr]
    · apply hkeep
      · intro _
        rwa [lookup_bind, if_neg (hoid_ne_link _ _).symm]
      · intro name hb
        rwa [lookup_bind, if_neg (hoid_ne_link _ _).symm]
      · intro u hne hb
        rwa [lookup_bind, if_neg fun heq => hne (Uuid.hoid_injective heq)]
    · apply hkeep
      · intro _
        unfold RAMBackend.withLog
        rw [lookup_bind, if_pos rfl]
        simp
      · intro name hb
        unfold RAMBackend.withLog
        rw [lookup_bind]
        split
        · simp
        · rwa [lookup_bind, if_neg (hoid_ne_link _ _).symm]
      · intro u hne hb
        unfold RAMBackend.withLog
        rwa [lookup_bind, if_neg (hoid_ne_link _ _), lookup_bind,
          if_neg fun heq => hne (Uuid.hoid_injective heq)]

end RAMBackend

/-! ## The LMDB backend -/

namespace LMDBBackend

/-- `ListLinks` returns the keys that have the form of a link. -/
theorem mem_listLinks {b : LMDBBackend ν} {key : String} :
    key ∈ b.listLinks ↔ key ∈ b.db ∧ IsLinkKey key := by
  simp [listLinks, getAll, startsWith_iff, IsLinkKey, AList.mem_keys]

/-- `ListHeads` returns the keys that have the form of a head object. -/
theorem mem_listHeads {b : LMDBBackend ν} {key : String} :
    key ∈ b.listHeads ↔ key ∈ b.db ∧ IsHeadKey key := by
  simp [listHeads, getAll, startsWith_iff, IsHeadKey, AList.mem_keys]
  tauto

/-- The keys of the logs `cs`, and what is bound to them. -/
structure Logs (b : LMDBBackend ν) (cs : List (String × Uuid)) : Prop where
  bound : ∀ key, key ∈ b.db ↔
    ∃ c ∈ cs, key = "head." ++ c.1 ∨ key = c.2.hoid ∨ key = projectionKey c.2.hoid 1
  named : ∀ c ∈ cs, c.1 ≠ ""
  link : ∀ c ∈ cs, b.get ("head." ++ c.1) = some (.link c.2.hoid)
  head : ∀ c ∈ cs, ∃ epoch id, b.get c.2.hoid = some (.projection epoch id c.2.pfx)
  names : (cs.map Prod.fst).Nodup
  uuids : (cs.map Prod.snd).Nodup

/-- An LMDB store that holds the logs lists and opens them. -/
theorem Logs.holds {b : LMDBBackend ν} {cs : List (String × Uuid)} (h : b.Logs cs) :
    LMDBBackend.logStore.Holds b cs := by
  refine ⟨?_, ?_, ?_, ?_, ?_, h.names, h.uuids⟩
  · -- `OpenLog` finds the link, and the head object behind it
    intro c hc
    obtain ⟨epoch, id, hproj⟩ := h.head c hc
    show b.openLog c.1 = _
    unfold openLog
    rw [if_neg (h.named c hc), h.link c hc]
    simp only [hproj]
  · -- `ListHeads` skips the links and the views
    intro key
    show key ∈ b.listHeads ↔ _
    rw [mem_listHeads, h.bound]
    constructor
    · rintro ⟨⟨c, hc, rfl | rfl | rfl⟩, hk⟩
      · exact absurd hk (not_isHeadKey_link _)
      · exact ⟨c, hc, rfl⟩
      · exact absurd hk (not_isHeadKey_view _ _)
    · rintro ⟨c, hc, rfl⟩
      exact ⟨⟨c, hc, Or.inr (Or.inl rfl)⟩, isHeadKey_hoid _⟩
  · -- `ListLinks` skips the head objects and the views
    intro key
    show key ∈ b.listLinks ↔ _
    rw [mem_listLinks, h.bound]
    constructor
    · rintro ⟨⟨c, hc, rfl | rfl | rfl⟩, hk⟩
      · exact ⟨c, hc, rfl⟩
      · exact absurd hk (not_isLinkKey_of_head (isHeadKey_hoid _).1)
      · exact absurd hk (not_isLinkKey_of_head (prefix_view _ _))
    · rintro ⟨c, hc, rfl⟩
      exact ⟨⟨c, hc, Or.inl rfl⟩, isLinkKey_link _⟩
  · exact ((AList.keys_nodup b.db).filter _).filter _
  · exact (AList.keys_nodup b.db).filter _

/-- An empty database holds no log. -/
theorem Logs.empty : ({} : LMDBBackend ν).Logs [] := by
  refine ⟨?_, ?_, ?_, ?_, List.nodup_nil, List.nodup_nil⟩
  · intro key
    simp [AList.notMem_empty]
  all_goals
    intro c hc
    cases hc

/-- A name that is not taken has no link. -/
theorem Logs.link_none_iff {b : LMDBBackend ν} {cs : List (String × Uuid)} (h : b.Logs cs)
    (name : String) : b.get ("head." ++ name) = none ↔ name ∉ cs.map Prod.fst := by
  show b.db.lookup _ = none ↔ _
  rw [AList.lookup_eq_none, h.bound, List.mem_map]
  apply not_congr
  constructor
  · rintro ⟨c, hc, hk | hk | hk⟩
    · exact ⟨c, hc, (LogStore.head_append_injective hk).symm⟩
    · exact absurd hk.symm (hoid_ne_link _ _)
    · exact absurd hk.symm (view_ne_link _ _ _)
  · rintro ⟨c, hc, rfl⟩
    exact ⟨c, hc, Or.inl rfl⟩

/-- `CreateLog` with a new name and a new id adds one log. -/
theorem Logs.withLog {b : LMDBBackend ν} {cs : List (String × Uuid)} (h : b.Logs cs)
    {name : String} (hname : name ≠ "") (hnew : name ∉ cs.map Prod.fst) {u : Uuid}
    (hu : u ∉ cs.map Prod.snd) (view : ν) : (b.withLog name u view).Logs (cs ++ [(name, u)]) := by
  have hget : ∀ key, (b.withLog name u view).get key =
      if key = "head." ++ name then some (.link u.hoid)
      else if key = projectionKey u.hoid 1 then some (.view view)
      else if key = u.hoid then some (.projection 1 0 u.pfx) else b.get key := by
    intro key
    unfold LMDBBackend.withLog
    rw [get_put_eq, get_put_eq, get_put_eq]
  -- what is bound: head object, view and link of the new log, and what was there before
  refine ⟨?_, ?_, ?_, ?_, ?_, ?_⟩
  · intro key
    unfold LMDBBackend.withLog put
    rw [AList.mem_insert, AList.mem_insert, AList.mem_insert, h.bound]
    have hlast : (name, u) ∈ cs ++ [(name, u)] :=
      List.mem_append_right _ (List.mem_singleton.mpr rfl)
    constructor
    · rintro (hk | hk | hk | ⟨c, hc, hk⟩)
      · exact ⟨_, hlast, Or.inl hk⟩
      · exact ⟨_, hlast, Or.inr (Or.inr hk)⟩
      · exact ⟨_, hlast, Or.inr (Or.inl hk)⟩
      · exact ⟨c, List.mem_append_left _ hc, hk⟩
    · rintro ⟨c, hc, hk⟩
      rcases List.mem_append.mp hc with hc | hc
      · exact Or.inr (Or.inr (Or.inr ⟨c, hc, hk⟩))
      · rw [List.mem_singleton.mp hc] at hk
        rcases hk with hk | hk | hk
        · exact Or.inl hk
        · exact Or.inr (Or.inr (Or.inl hk))
        · exact Or.inr (Or.inl hk)
  · intro c hc
    rcases List.mem_append.mp hc with hc | hc
    · exact h.named c hc
    · rw [List.mem_singleton.mp hc]
      exact hname
  · -- the links of the logs before are in their place, since the name is new
    intro c hc
    rw [hget]
    rcases List.mem_append.mp hc with hc | hc
    · have hne : "head." ++ c.1 ≠ "head." ++ name := by
        intro heq
        rw [← LogStore.head_append_injective heq] at hnew
        exact hnew (List.mem_map_of_mem hc)
      rw [if_neg hne, if_neg (view_ne_link _ _ _).symm, if_neg (hoid_ne_link _ _).symm]
      exact h.link c hc
    · rw [List.mem_singleton.mp hc, if_pos rfl]
  · -- and so are their head objects, since the id is new
    intro c hc
    rw [hget, if_neg (hoid_ne_link _ _), if_neg (hoid_ne_view _ _ _)]
    rcases List.mem_append.mp hc with hc | hc
    · have hne : c.2.hoid ≠ u.hoid := by
        intro heq
        rw [← Uuid.hoid_injective heq] at hu
        exact hu (List.mem_map_of_mem hc)
      rw [if_neg hne]
      exact h.head c hc
    · rw [List.mem_singleton.mp hc, if_pos rfl]
      exact ⟨1, 0, rfl⟩
  · rw [List.map_append]
    exact List.nodup_append_comm.mp (List.nodup_cons.mpr ⟨hnew, h.names⟩)
  · rw [List.map_append]
    exact List.nodup_append_comm.mp (List.nodup_cons.mpr ⟨hu, h.uuids⟩)

/-- The transaction of a creation adds the whole log or nothing. -/
theorem Logs.adds {b : LMDBBackend ν} {cs : List (String × Uuid)} (h : b.Logs cs) (log : NewLog ν)
    (hu : log.uuid ∉ cs.map Prod.snd) : LMDBBackend.logStore.Adds Logs b cs log := by
  show (∃ e, b.createLog log.name log.view log.uuid.text = _) ∨
    ∃ x s', b.createLog log.name log.view log.uuid.text = _ ∧ _
  by_cases hname : log.name = ""
  · left
    exact ⟨.einval, by unfold createLog; rw [if_pos hname]⟩
  · rcases b.createLog_cases hname log.uuid log.view with ⟨e, hr, -⟩ | ⟨-, -, hlink, hr⟩
    · exact Or.inl ⟨e, hr⟩
    · exact Or.inr ⟨_, _, hr, h.withLog hname ((h.link_none_iff _).mp hlink) hu log.view⟩

end LMDBBackend

/-! ## Whole sequences of creations -/

/-- The names of the creations that are not refused for an empty name. -/
def usedNames (logs : List (NewLog ν)) : List String := (logs.map NewLog.name).filter (· ≠ "")

/-- In a run with distinct uuids the next one was not drawn before. -/
theorem uuid_fresh {logs done rest : List (NewLog ν)} {log : NewLog ν}
    (hu : (logs.map NewLog.uuid).Nodup) (heq : logs = done ++ log :: rest) :
    log.uuid ∉ done.map NewLog.uuid := by
  rw [heq, List.map_append, List.map_cons] at hu
  intro hmem
  exact (List.nodup_append.mp hu).2.2 _ hmem _ (List.mem_cons_self ..) rfl

/-- The ids of the logs that were created are among those used. -/
theorem snd_mem_entries {cs : List (String × Uuid)} {done : List (NewLog ν)}
    (hsub : cs ⊆ done.map NewLog.entry) {u : Uuid} (hu : u ∉ done.map NewLog.uuid) :
    u ∉ cs.map Prod.snd := by
  intro hmem
  obtain ⟨c, hc, rfl⟩ := List.mem_map.mp hmem
  obtain ⟨log, hlog, rfl⟩ := List.mem_map.mp (hsub hc)
  exact hu (List.mem_map_of_mem hlog)

/-- **LMDB**: whatever the names, a `CreateLog` that fails leaves no trace. -/
theorem lmdb_noTrace (logs : List (NewLog ν)) (hu : (logs.map NewLog.uuid).Nodup) :
    LMDBBackend.logStore.NoTrace ({} : LMDBBackend ν) logs := by
  obtain ⟨⟨cs, hlogs, hcs⟩, hfailed⟩ := LogStore.run_holds (S := LMDBBackend.logStore)
    LMDBBackend.Logs.empty logs (by
      intro done log rest heq b cs hb hsub
      exact hb.adds log (snd_mem_entries hsub (uuid_fresh hu heq)))
  exact hlogs.holds.noTrace hcs hfailed

/-- Without repeated names the RAM backend only creates logs. -/
theorem ram_noTrace {b : RAMBackend ν} (hb : b.objects = ∅) {logs : List (NewLog ν)}
    (hu : (logs.map NewLog.uuid).Nodup) (hnames : (usedNames logs).Nodup) :
    RAMBackend.logStore.NoTrace b logs := by
  obtain ⟨⟨cs, hlogs, hcs⟩, hfailed⟩ := LogStore.run_holds (S := RAMBackend.logStore)
    (RAMBackend.Logs.empty hb) logs (by
      -- only this creation can fail for its name, and no earlier one has used it
      intro done log rest heq b' cs hb' hsub
      apply hb'.adds log (snd_mem_entries hsub (uuid_fresh hu heq))
      intro hname hmem
      obtain ⟨c, hc, hcn⟩ := List.mem_map.mp hmem
      obtain ⟨l, hl, rfl⟩ := List.mem_map.mp (hsub hc)
      have hln : l.name ≠ "" := by
        show l.entry.1 ≠ ""
        rw [hcn]
        exact hname
      have hmem' : log.name ∈ usedNames done := by
        rw [← hcn]
        exact List.mem_filter.mpr ⟨List.mem_map_of_mem hl, decide_eq_true hln⟩
      rw [heq] at hnames
      unfold usedNames at hnames hmem'
      rw [List.map_append, List.filter_append, List.map_cons,
        List.filter_cons_of_pos (by simpa using hname)] at hnames
      exact (List.nodup_append.mp hnames).2.2 _ hmem' _ (List.mem_cons_self ..) rfl)
  exact hlogs.holds.noTrace hcs hfailed

/-- What RAM holds after the creations before: the ids and names they have used. -/
theorem ram_used {b : RAMBackend ν} (hb : b.objects = ∅) {logs : List (NewLog ν)}
    (hu : (logs.map NewLog.uuid).Nodup) {done rest : List (NewLog ν)} (heq : logs = done ++ rest) :
    (RAMBackend.logStore.run b done).Used done := by
  induction done using List.reverseRecOn generalizing rest with
  | nil => exact RAMBackend.Used.empty hb
  | append_singleton done log ih =>
    rw [List.append_assoc, List.singleton_append] at heq
    rw [LogStore.run_append]
    exact (ih heq).create log (uuid_fresh hu heq)

/-- A repeated name leaves the head object of the second creation behind. -/
theorem ram_repeated_leaves {b : RAMBackend ν} (hb : b.objects = ∅) {logs : List (NewLog ν)}
    (hu : (logs.map NewLog.uuid).Nodup) {done rest : List (NewLog ν)} {log : NewLog ν}
    (heq : logs = done ++ log :: rest) (hname : log.name ≠ "") (hmem : log.name ∈ usedNames done) :
    (RAMBackend.logStore.create (RAMBackend.logStore.run b done) log).1 = .error .eexist ∧
      (RAMBackend.logStore.create (RAMBackend.logStore.run b done) log).2 ≠
        RAMBackend.logStore.run b done := by
  have hused := ram_used hb hu heq
  generalize RAMBackend.logStore.run b done = b' at hused
  have hfree : b'.objects.lookup log.uuid.hoid = none := hused.free _ (uuid_fresh hu heq)
  have htaken : b'.objects.lookup ("head." ++ log.name) ≠ none := by
    obtain ⟨l, hl, hln⟩ := List.mem_map.mp (List.mem_filter.mp hmem).1
    rw [← hln] at hname ⊢
    exact hused.taken l hl hname
  show (b'.createLog log.name log.view log.uuid.text).1 = _ ∧
    (b'.createLog log.name log.view log.uuid.text).2 ≠ b'
  rcases b'.createLog_fresh hname hfree log.view with ⟨-, hr⟩ | ⟨hn, -⟩
  · -- the name is taken: the new head object is what stays behind
    rw [hr]
    refine ⟨rfl, ?_⟩
    intro hsame
    have hlookup := congrArg (fun s => RAMBackend.objects s |>.lookup log.uuid.hoid) hsame
    dsimp only at hlookup
    rw [RAMBackend.lookup_bind, if_pos rfl, hfree] at hlookup
    cases hlookup
  · exact absurd hn htaken

/-- **Failed creations**, for every sequence of calls with distinct uuids on an empty store.  On the
    LMDB backend they leave no trace.  On the RAM backend they leave none exactly when no name is
    used twice. -/
theorem createLog_noTrace (logs : List (NewLog ν)) (hu : (logs.map NewLog.uuid).Nodup) :
    LMDBBackend.logStore.NoTrace ({} : LMDBBackend ν) logs ∧
    ∀ b : RAMBackend ν, b.objects = ∅ →
      (RAMBackend.logStore.NoTrace b logs ↔ (usedNames logs).Nodup) := by
  refine ⟨lmdb_noTrace logs hu, ?_⟩
  intro b hb
  refine ⟨?_, ram_noTrace hb hu⟩
  intro htrace
  -- by induction on the calls made so far: a name used again would leave a trace
  have hpart : ∀ done rest, logs = done ++ rest → (usedNames done).Nodup := by
    intro done
    induction done using List.reverseRecOn with
    | nil =>
      intro rest _
      exact List.nodup_nil
    | append_singleton done log ih =>
      intro rest heq
      rw [List.append_assoc, List.singleton_append] at heq
      have hdone := ih (log :: rest) heq
      unfold usedNames
      rw [List.map_append, List.filter_append]
      by_cases hname : log.name = ""
      · have hnil : ([log].map NewLog.name).filter (· ≠ "") = [] := by simp [hname]
        rw [hnil, List.append_nil]
        exact hdone
      · have hnew : log.name ∉ usedNames done := by
          intro hmem
          obtain ⟨herr, hne⟩ := ram_repeated_leaves hb hu heq hname hmem
          exact hne (htrace.failed done log rest heq _ herr)
        have hlast : ([log].map NewLog.name).filter (· ≠ "") = [log.name] := by simp [hname]
        rw [hlast]
        exact List.nodup_append_comm.mp (List.nodup_cons.mpr ⟨hnew, hdone⟩)
  exact hpart logs [] (List.append_nil _).symm

/-- Two creations of one name. -/
def repeatedLogs : List (NewLog Unit) := [⟨"log", (), .zero⟩, ⟨"log", (), .one⟩]

/-- A name used twice and an empty one. -/
theorem createLog_noTrace_repeated :
    LMDBBackend.logStore.NoTrace ({} : LMDBBackend Unit) repeatedLogs ∧
      LMDBBackend.logStore.created ({} : LMDBBackend Unit) repeatedLogs = ["log"] := by
  exact ⟨(createLog_noTrace repeatedLogs (by decide)).1, by decide⟩

/-- The head object of the second creation is listed beside the one of the log. -/
theorem ram_createLog_repeated :
    (repeatedLogs.map NewLog.uuid).Nodup ∧
      ¬ RAMBackend.logStore.NoTrace ({} : RAMBackend Unit) repeatedLogs := by
  refine ⟨by decide, ?_⟩
  intro h
  have hlength := h.heads.length_eq
  exact absurd hlength (by decide)

end ZLog
