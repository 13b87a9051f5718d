import ZLog.Client.Memory
import ZLog.Storage.Listing

/-!
# The keys of the LMDB database

`LMDBBackend` keeps six kinds of records in one flat key space.  Their keys are concatenations: of
fixed words, of the name of a log, of the uuid that `CreateLog` draws, and of decimal numbers.  No
key stands for two records, and a scan for a prefix finds what it is meant to find.

All that matters of a uuid is that it contains no dot.  A scan also compares C strings, so the
uuid of the scanned object must contain no NUL; the text of a uuid has hexadecimal digits and
dashes.

## Main results

- `DbItem.key_injective`: a key stands for one record.
- `DbItem.Keyed.exec`: the backend stores nothing else.
- `lmdb_keys_unambiguous`: keys and scans.
-/

namespace ZLog

/-! ## Names -/

/-- The name that `CreateLog` gives the head object. -/
def headName (uuid : String) : String := "zlog.head." ++ uuid

/-- The prefix that `CreateLog` gives the data objects. -/
def dataPrefix (uuid : String) : String := "zlog.data." ++ uuid

/-- The prefixed name of a data object, as `LogBackend` passes it on. -/
def objectName (uuid : String) (stripe index : Nat) : String :=
  LogBackend.oid ⟨headName uuid, dataPrefix uuid, ""⟩ (Stripe.oidAt stripe index)

/-- What a key of the database stands for. -/
inductive DbItem where
  | link (name : String)
  | head (uuid : String)
  | projection (uuid : String) (epoch : Nat)
  | object (uuid : String) (stripe index : Nat)
  | entry (uuid : String) (stripe index position : Nat)
  | maxPos (uuid : String) (stripe index : Nat)
  deriving DecidableEq

namespace DbItem

/-- The key, as the backend builds it. -/
def key : DbItem → String
  | .link name => "head." ++ name
  | .head uuid => headName uuid
  | .projection uuid epoch => LMDBBackend.projectionKey (headName uuid) epoch
  | .object uuid stripe index => objectName uuid stripe index
  | .entry uuid stripe index position =>
    LMDBBackend.logEntryKey (objectName uuid stripe index) position
  | .maxPos uuid stripe index => LMDBBackend.maxPosKey (objectName uuid stripe index)

/-- The uuid in the key. -/
def uuid? : DbItem → Option String
  | .link _ => none
  | .head uuid => some uuid
  | .projection uuid _ => some uuid
  | .object uuid _ _ => some uuid
  | .entry uuid _ _ _ => some uuid
  | .maxPos uuid _ _ => some uuid

/-- The uuid contains no dot. -/
def DotFree (x : DbItem) : Prop := ∀ uuid ∈ x.uuid?, Lib.DotFree uuid

/-- The components of the key of a record that is not a link. -/
def components : DbItem → List String
  | .link name => ["head", name]
  | .head uuid => ["zlog", "head", uuid]
  | .projection uuid epoch => ["zlog", "head", uuid, toString epoch]
  | .object uuid stripe index => ["zlog", "data", uuid, toString stripe, toString index]
  | .entry uuid stripe index position =>
    ["zlog", "data", uuid, toString stripe, toString index, "entry", toString position]
  | .maxPos uuid stripe index =>
    ["zlog", "data", uuid, toString stripe, toString index, "maxpos"]

/-- A key is its parts with dots between them. -/
theorem key_eq_dotted (x : DbItem) : x.key = Lib.dotted x.components := by
  apply String.toList_inj.mp
  cases x <;>
    simp [key, components, Lib.dotted, headName, dataPrefix, objectName, LogBackend.oid,
      Stripe.oidAt, LMDBBackend.projectionKey, LMDBBackend.logEntryKey, LMDBBackend.maxPosKey,
      String.toList_append]

/-- A record that is not a link of a name. -/
def IsRecord : DbItem → Prop
  | .link _ => False
  | _ => True

/-- The parts of a record's key have no dots in them. -/
theorem dotFree_components {x : DbItem} (hx : x.DotFree) (hr : x.IsRecord) :
    ∀ s ∈ x.components, Lib.DotFree s := by
  have hlit : ∀ s ∈ ["zlog", "head", "data", "maxpos", "entry"], Lib.DotFree s := by decide
  have hword : ∀ s ∈ x.components, s ∈ ["zlog", "head", "data", "maxpos", "entry"] ∨
      s ∈ x.uuid? ∨ ∃ n : Nat, s = toString n := by
    intro s hs
    cases x with
    | link name => exact hr.elim
    | _ =>
      simp only [components, List.mem_cons, List.not_mem_nil, or_false] at hs
      simp only [uuid?, Option.mem_def, Option.some.injEq]
      grind
  intro s hs
  rcases hword s hs with hs | hs | ⟨n, rfl⟩
  · exact hlit s hs
  · exact hx s hs
  · exact Lib.dotFree_repr n

/-- Every record has parts. -/
theorem components_ne_nil (x : DbItem) : x.components ≠ [] := by
  cases x <;> simp [components]

/-- A record is given by its parts. -/
theorem components_injective {x y : DbItem} (hx : x.IsRecord) (hy : y.IsRecord)
    (h : x.components = y.components) : x = y := by
  have hne : ("head" : String) ≠ "data" := by decide
  cases x <;> cases y <;>
    simp only [components, List.cons.injEq, hne, hne.symm, true_and, and_true, reduceCtorEq,
      and_false] at h
  · exact hx.elim
  · rw [h]
  · rw [h.1, Lib.toString_nat_injective h.2]
  · rw [h.1, Lib.toString_nat_injective h.2.1, Lib.toString_nat_injective h.2.2]
  · rw [h.1, Lib.toString_nat_injective h.2.1, Lib.toString_nat_injective h.2.2.1,
      Lib.toString_nat_injective h.2.2.2]
  · rw [h.1, Lib.toString_nat_injective h.2.1, Lib.toString_nat_injective h.2.2]

/-- The key of a record that is not a link is no link key. -/
theorem not_isLinkKey {x : DbItem} (hx : x.IsRecord) : ¬ IsLinkKey x.key := by
  rintro ⟨r, hr⟩
  rw [key_eq_dotted] at hr
  cases x <;> first
    | exact hx.elim
    | simp [components, Lib.dotted, String.toList_append] at hr

/-- **A key stands for one record.** -/
theorem key_injective {x y : DbItem} (hx : x.DotFree) (hy : y.DotFree) (h : x.key = y.key) :
    x = y := by
  -- two records: their parts are the same
  by_cases hxl : x.IsRecord
  · by_cases hyl : y.IsRecord
    · apply components_injective hxl hyl
      rw [key_eq_dotted, key_eq_dotted] at h
      exact Lib.dotted_injective (dotFree_components hx hxl) (dotFree_components hy hyl)
        x.components_ne_nil y.components_ne_nil h
    · -- a link is told from a record by its first word
      cases y with
      | link name =>
        refine absurd ?_ (not_isLinkKey hxl)
        rw [h]
        exact isLinkKey_link name
      | _ => exact absurd trivial hyl
  · cases x with
    | link name =>
      by_cases hyl : y.IsRecord
      · refine absurd ?_ (not_isLinkKey hyl)
        rw [← h]
        exact isLinkKey_link name
      · -- two links: their names are the same
        cases y with
        | link name' => rw [LogStore.head_append_injective h]
        | _ => exact absurd trivial hyl
    | _ => exact absurd trivial hxl

/-! ## Scans -/

/-- The keys below the entry directory of an object are those of its entries. -/
theorem prefix_entries {uuid : String} (hu : Lib.DotFree uuid) {stripe index : Nat} {x : DbItem}
    (hx : x.DotFree)
    (h : (objectName uuid stripe index ++ ".entry.").toList <+: x.key.toList) :
    ∃ position, x = .entry uuid stripe index position := by
  have hobj : (object uuid stripe index).DotFree := by
    rintro v hv
    cases hv
    exact hu
  have hdir : objectName uuid stripe index ++ ".entry." =
      Lib.dotted ((object uuid stripe index).components ++ ["entry"]) ++ "." := by
    rw [Lib.dotted_append (components_ne_nil _) (by simp), ← key_eq_dotted]
    simp [key, Lib.dotted, String.append_assoc]
  have hfree : ∀ s ∈ (object uuid stripe index).components ++ ["entry"], Lib.DotFree s := by
    intro s hs
    rcases List.mem_append.mp hs with hs | hs
    · exact dotFree_components hobj trivial s hs
    · rw [List.mem_singleton.mp hs]
      decide
  by_cases hr : x.IsRecord
  · rw [hdir, key_eq_dotted x] at h
    obtain ⟨d, ds, hk⟩ := Lib.dotted_prefix hfree (dotFree_components hx hr) (by simp) h
    cases x with
    | link name => exact hr.elim
    | head v => simp [components] at hk
    | projection v e => simp [components] at hk
    | object v s i => simp [components] at hk
    | maxPos v s i =>
      simp only [components, List.cons_append, List.nil_append, List.cons.injEq, true_and] at hk
      exact absurd hk.2.2.2.1 (by decide)
    | entry v s i p =>
      simp only [components, List.cons_append, List.nil_append, List.cons.injEq, true_and] at hk
      refine ⟨p, ?_⟩
      rw [hk.1, Lib.toString_nat_injective hk.2.1, Lib.toString_nat_injective hk.2.2.1]
  · -- links begin with another letter
    cases x with
    | link name =>
      obtain ⟨r, hr⟩ := h
      simp [key, objectName, LogBackend.oid, dataPrefix, String.toList_append] at hr
    | _ => exact absurd trivial hr

/-- What `ListHeads` looks for are the head objects. -/
theorem isHeadKey_iff {x : DbItem} (hx : x.DotFree) : IsHeadKey x.key ↔ ∃ uuid, x = .head uuid := by
  constructor
  · rintro ⟨hp, hdot⟩
    cases x with
    -- links have another prefix
    | link name => exact absurd ⟨hp, hdot⟩ (not_isHeadKey_link name)
    | head uuid => exact ⟨uuid, rfl⟩
    -- views have a dot behind the id
    | projection uuid e =>
      refine absurd ?_ hdot
      simp [key, LMDBBackend.projectionKey, headName, String.toList_append]
    -- the keys of objects start with other words
    | object uuid s i =>
      obtain ⟨r, hr⟩ := hp
      simp [key, objectName, LogBackend.oid, dataPrefix, String.toList_append] at hr
    | entry uuid s i p =>
      obtain ⟨r, hr⟩ := hp
      simp [key, LMDBBackend.logEntryKey, objectName, LogBackend.oid, dataPrefix,
        String.toList_append] at hr
    | maxPos uuid s i =>
      obtain ⟨r, hr⟩ := hp
      simp [key, LMDBBackend.maxPosKey, objectName, LogBackend.oid, dataPrefix,
        String.toList_append] at hr
  · rintro ⟨uuid, rfl⟩
    have hu : Lib.DotFree uuid := hx uuid rfl
    refine ⟨?_, ?_⟩
    · simp only [key, headName, String.toList_append]
      exact List.prefix_append _ _
    · simpa [key, headName, String.toList_append, Lib.DotFree] using hu

/-- What `ListLinks` looks for are the links. -/
theorem isLinkKey_iff (x : DbItem) : IsLinkKey x.key ↔ ∃ name, x = .link name := by
  constructor
  · intro h
    cases x with
    | link name => exact ⟨name, rfl⟩
    | _ => exact absurd h (not_isLinkKey trivial)
  · rintro ⟨name, rfl⟩
    exact isLinkKey_link name

/-- The database holds no other keys. -/
def Keyed {ν : Type} (b : LMDBBackend ν) : Prop := ∀ k ∈ b.db, ∃ x : DbItem, x.DotFree ∧ k = x.key

end DbItem

/-! ## The database -/

variable {ν : Type}

/-- The keys that a call may add. -/
def Call.Puts : {α : Type} → Call ν α → String → Prop
  | _, .uniqueId hoid, k => k = hoid
  | _, .proposeView hoid epoch _, k => k = hoid ∨ k = LMDBBackend.projectionKey hoid epoch
  | _, .write oid _ _ position, k =>
    k = LMDBBackend.logEntryKey oid position ∨ k = LMDBBackend.maxPosKey oid
  | _, .fill oid _ position, k =>
    k = LMDBBackend.logEntryKey oid position ∨ k = LMDBBackend.maxPosKey oid
  | _, .trim oid _ position _ _, k =>
    k = oid ∨ k = LMDBBackend.logEntryKey oid position ∨ k = LMDBBackend.maxPosKey oid
  | _, .seal oid _, k => k = oid
  | _, _, _ => False

namespace LMDBBackend

/-- The keys after a record was put. -/
theorem mem_put {b : LMDBBackend ν} {key k : String} {r : Record ν} :
    k ∈ (b.put key r).db ↔ k = key ∨ k ∈ b.db := AList.mem_insert b.db

/-- The keys after a record was deleted. -/
theorem mem_delete {b : LMDBBackend ν} {key k : String} :
    k ∈ (b.delete key).db ↔ k ≠ key ∧ k ∈ b.db := AList.mem_erase

/-- The keys after an entry was stored. -/
theorem mem_putEntry {b : LMDBBackend ν} {oid k : String} {position pos : Nat} {r : Record ν} :
    k ∈ (b.putEntry oid position r pos).db ↔
      k = logEntryKey oid position ∨ k = maxPosKey oid ∨ k ∈ b.db := by
  unfold putEntry
  rw [mem_put, mem_put]

/-- Deleting adds no key. -/
theorem mem_foldl_delete {keys : List String} {b : LMDBBackend ν} {k : String}
    (h : k ∈ (keys.foldl delete b).db) : k ∈ b.db := by
  induction keys generalizing b with
  | nil => exact h
  | cons key keys ih => exact (mem_delete.mp (ih h)).2

/-- Trimming one position adds the keys of its entry and the maximum. -/
theorem mem_trimEntry {b b' : LMDBBackend ν} {oid k : String} {position : Nat}
    (h : b.trimEntry oid position = .ok b') (hk : k ∈ b'.db) :
    k = logEntryKey oid position ∨ k = maxPosKey oid ∨ k ∈ b.db := by
  unfold trimEntry at h
  split at h
  · split at h
    · cases h
    · cases h
      exact mem_putEntry.mp hk
  · split at h
    · cases h
    · split at h
      · cases h
      · cases h
        exact mem_putEntry.mp hk
  · cases h

/-- A call adds the keys of its own records only. -/
theorem mem_exec (b : LMDBBackend ν) {α : Type} (c : Call ν α) {k : String}
    (hk : k ∈ (b.exec c).2.db) : k ∈ b.db ∨ c.Puts k := by
  cases c with
  -- these calls only read
  | openLog name => exact Or.inl hk
  | readViews hoid epoch maxViews => exact Or.inl hk
  | read oid epoch position => exact Or.inl hk
  | maxPos oid => exact Or.inl hk
  | skip => exact Or.inl hk
  -- the counter is put into the head object's record
  | uniqueId hoid =>
    simp only [exec, uniqueId] at hk
    split at hk
    · exact Or.inl hk
    · split at hk
      · exact Or.inl hk
      · exact (mem_put.mp hk).symm
      · exact Or.inl hk
  -- a proposal puts the view and the head object's record
  | proposeView hoid epoch view =>
    simp only [exec, proposeView] at hk
    split at hk
    · exact Or.inl hk
    · split at hk
      · exact Or.inl hk
      · split at hk
        · exact Or.inl hk
        · split at hk
          · exact Or.inl hk
          · split at hk
            · exact Or.inl hk
            · split at hk
              · exact Or.inl hk
              · next b₁ hput =>
                obtain ⟨-, rfl⟩ := putNew_eq_some.mp hput
                rcases mem_put.mp hk with hk | hk
                · exact Or.inr (Or.inl hk)
                · rcases mem_put.mp hk with hk | hk
                  · exact Or.inr (Or.inr hk)
                  · exact Or.inl hk
        · exact Or.inl hk
  -- the entry and the maximum
  | write oid data epoch position =>
    simp only [exec, write] at hk
    split at hk
    · exact Or.inl hk
    · split at hk
      · exact Or.inl hk
      · split at hk
        · exact Or.inl hk
        · split at hk
          · exact Or.inl hk
          · next b₁ hput =>
            obtain ⟨-, rfl⟩ := putNew_eq_some.mp hput
            rcases mem_put.mp hk with hk | hk
            · exact Or.inr (Or.inr hk)
            · rcases mem_put.mp hk with hk | hk
              · exact Or.inr (Or.inl hk)
              · exact Or.inl hk
  | fill oid epoch position =>
    simp only [exec, fill] at hk
    split at hk
    · exact Or.inl hk
    · split at hk
      · exact Or.inl hk
      · split at hk
        · split at hk
          · exact Or.inl hk
          · split at hk
            · exact Or.inl hk
            · exact Or.inl hk
        · exact Or.inl hk
        · split at hk
          · exact Or.inl hk
          · rcases mem_putEntry.mp hk with hk | hk | hk
            · exact Or.inr (Or.inl hk)
            · exact Or.inr (Or.inr hk)
            · exact Or.inl hk
  -- the object's record, and for a single position its entry and the maximum
  | trim oid epoch position trimLimit trimFull =>
    have hput : ∀ {r : Record ν}, k ∈ (b.put oid r).db → k ∈ b.db ∨ k = oid :=
      fun h => (mem_put.mp h).symm
    simp only [exec, trim] at hk
    split at hk
    · exact Or.inl hk
    · split at hk
      · exact Or.inl hk
      · generalize (if trimLimit = true then _ else _ : Int) = limit at hk
        split at hk
        · exact (hput (mem_foldl_delete hk)).imp_right Or.inl
        · split at hk
          · exact (hput hk).imp_right Or.inl
          · split at hk
            · exact Or.inl hk
            · split at hk
              · exact Or.inl hk
              · next b₂ htrim =>
                rcases mem_trimEntry htrim hk with hk | hk | hk
                · exact Or.inr (Or.inr (Or.inl hk))
                · exact Or.inr (Or.inr (Or.inr hk))
                · exact (hput hk).imp_right Or.inl
  -- the object's record
  | «seal» oid epoch =>
    simp only [exec, «seal»] at hk
    split at hk
    · exact Or.inl hk
    · split at hk
      · exact Or.inl hk
      · split at hk
        · exact (mem_put.mp hk).symm
        · split at hk
          · exact Or.inl hk
          · exact (mem_put.mp hk).symm
        · exact Or.inl hk

end LMDBBackend

namespace DbItem

/-- The call is about records of the backend: the head object or a data object of a log. -/
def Addresses : {α : Type} → Call ν α → Prop
  | _, .uniqueId hoid => ∃ uuid, Lib.DotFree uuid ∧ hoid = headName uuid
  | _, .proposeView hoid _ _ => ∃ uuid, Lib.DotFree uuid ∧ hoid = headName uuid
  | _, .write oid _ _ _ => ∃ uuid s i, Lib.DotFree uuid ∧ oid = objectName uuid s i
  | _, .fill oid _ _ => ∃ uuid s i, Lib.DotFree uuid ∧ oid = objectName uuid s i
  | _, .trim oid _ _ _ _ => ∃ uuid s i, Lib.DotFree uuid ∧ oid = objectName uuid s i
  | _, .seal oid _ => ∃ uuid s i, Lib.DotFree uuid ∧ oid = objectName uuid s i
  | _, _ => True

/-- An id without dots makes a key without ambiguity. -/
theorem dotFree_some {x : DbItem} {uuid : String} (hu : Lib.DotFree uuid)
    (hx : x.uuid? = some uuid) : x.DotFree := by
  intro v hv
  rw [hx] at hv
  cases hv
  exact hu

/-- **The backend stores nothing else.** -/
theorem Keyed.exec {b : LMDBBackend ν} (h : Keyed b) {α : Type} {c : Call ν α}
    (hc : Addresses c) : Keyed (b.exec c).2 := by
  -- the keys of entries and maxima belong to the object that is addressed
  have hentry : ∀ {oid : String} (p : Nat) {k : String},
      (∃ uuid s i, Lib.DotFree uuid ∧ oid = objectName uuid s i) →
      k = LMDBBackend.logEntryKey oid p ∨ k = LMDBBackend.maxPosKey oid →
      ∃ x : DbItem, x.DotFree ∧ k = x.key := by
    rintro oid p k ⟨uuid, s, i, hu, rfl⟩ (rfl | rfl)
    · exact ⟨.entry uuid s i p, dotFree_some hu rfl, rfl⟩
    · exact ⟨.maxPos uuid s i, dotFree_some hu rfl, rfl⟩
  -- and so does the object's own key
  have hobject : ∀ {oid k : String},
      (∃ uuid s i, Lib.DotFree uuid ∧ oid = objectName uuid s i) → k = oid →
      ∃ x : DbItem, x.DotFree ∧ k = x.key := by
    rintro oid k ⟨uuid, s, i, hu, rfl⟩ rfl
    exact ⟨.object uuid s i, dotFree_some hu rfl, rfl⟩
  intro k hk
  rcases b.mem_exec c hk with hk | hputs
  · exact h k hk
  · -- each call puts keys of the log or object that it addresses
    cases c with
    | uniqueId hoid =>
      obtain ⟨uuid, hu, rfl⟩ := hc
      exact ⟨.head uuid, dotFree_some hu rfl, hputs⟩
    | proposeView hoid epoch view =>
      obtain ⟨uuid, hu, rfl⟩ := hc
      rcases hputs with hk | hk
      · exact ⟨.head uuid, dotFree_some hu rfl, hk⟩
      · exact ⟨.projection uuid epoch, dotFree_some hu rfl, hk⟩
    | write oid data epoch position => exact hentry position hc hputs
    | fill oid epoch position => exact hentry position hc hputs
    | trim oid epoch position trimLimit trimFull =>
      rcases hputs with hk | hk
      · exact hobject hc hk
      · exact hentry position hc hk
    | «seal» oid epoch => exact hobject hc hputs
    | _ => exact hputs.elim

/-- `CreateLog` puts a head object, its first view and a link. -/
theorem Keyed.createLog {b : LMDBBackend ν} (h : Keyed b) (name : String) (view : ν)
    {uuid : String} (hu : Lib.DotFree uuid) : Keyed (b.createLog name view uuid).2 := by
  unfold LMDBBackend.createLog
  split
  · exact h
  · dsimp only
    split
    · exact h
    · next b₁ h₁ =>
      split
      · exact h
      · next b₂ h₂ =>
        split
        · exact h
        · next b₃ h₃ =>
          obtain ⟨-, rfl⟩ := LMDBBackend.putNew_eq_some.mp h₁
          obtain ⟨-, rfl⟩ := LMDBBackend.putNew_eq_some.mp h₂
          obtain ⟨-, rfl⟩ := LMDBBackend.putNew_eq_some.mp h₃
          -- the three keys, and those that were there
          intro k hk
          rcases LMDBBackend.mem_put.mp hk with rfl | hk
          · refine ⟨.link name, ?_, rfl⟩
            intro v hv
            cases hv
          · rcases LMDBBackend.mem_put.mp hk with rfl | hk
            · exact ⟨.projection uuid 1, dotFree_some hu rfl, rfl⟩
            · rcases LMDBBackend.mem_put.mp hk with rfl | hk
              · exact ⟨.head uuid, dotFree_some hu rfl, rfl⟩
              · exact h k hk

end DbItem

/-! ## Runs -/

/-- What happens to the database: a log is created, or a call is made. -/
inductive DbOp (ν : Type) where
  | createLog (name : String) (view : ν) (uuid : String)
  | call {α : Type} (c : Call ν α)

/-- The ids in the arguments have no dots. -/
def DbOp.Addresses : DbOp ν → Prop
  | .createLog _ _ uuid => Lib.DotFree uuid
  | .call c => DbItem.Addresses c

/-- One operation on the database. -/
def LMDBBackend.apply (b : LMDBBackend ν) : DbOp ν → LMDBBackend ν
  | .createLog name view uuid => (b.createLog name view uuid).2
  | .call c => (b.exec c).2

/-- Whatever is done with such arguments, the keys stay those of the scheme. -/
theorem DbItem.Keyed.run {b : LMDBBackend ν} (h : Keyed b) {ops : List (DbOp ν)}
    (hops : ∀ op ∈ ops, op.Addresses) : Keyed (ops.foldl LMDBBackend.apply b) := by
  induction ops generalizing b with
  | nil => exact h
  | cons op ops ih =>
    have hop := hops op (List.mem_cons_self ..)
    refine ih ?_ fun op' hop' => hops op' (List.mem_cons_of_mem _ hop')
    cases op with
    | createLog name view uuid => exact h.createLog name view hop
    | call c => exact h.exec hop

/-- The name of an object has no NUL when its id has none. -/
theorem nulFree_objectName {uuid : String} (hu : '\x00' ∉ uuid.toList) (stripe index : Nat) :
    '\x00' ∉ (objectName uuid stripe index ++ ".entry.").toList := by
  have hs := nulFree_toString stripe
  have hi := nulFree_toString index
  simp only [Nat.toString_eq_repr, Nat.toList_repr] at hs hi
  simp [objectName, LogBackend.oid, dataPrefix, Stripe.oidAt, String.toList_append, hu, hs, hi]

/-- **The key space is unambiguous**: a key stands for one record, the backend stores such keys
    only, and in a database of such keys the scan for the entries of an object finds the keys of
    its entries, the scan for links the links, and `ListHeads` keeps the head objects. -/
theorem lmdb_keys_unambiguous :
    (∀ x y : DbItem, x.DotFree → y.DotFree → x.key = y.key → x = y) ∧
    (∀ ops : List (DbOp ν), (∀ op ∈ ops, op.Addresses) →
      DbItem.Keyed (ops.foldl LMDBBackend.apply {})) ∧
    ∀ b : LMDBBackend ν, DbItem.Keyed b →
      (∀ pfx, (b.getAll pfx).Nodup) ∧
      (∀ uuid stripe index, Lib.DotFree uuid → '\x00' ∉ uuid.toList → ∀ k,
        k ∈ b.getAll (objectName uuid stripe index ++ ".entry.") ↔
          k ∈ b.db ∧ ∃ position,
            k = LMDBBackend.logEntryKey (objectName uuid stripe index) position) ∧
      (∀ k, k ∈ b.getAll "head." ↔ k ∈ b.db ∧ ∃ name, k = "head." ++ name) ∧
      (∀ k, k ∈ b.listHeads ↔ k ∈ b.db ∧ ∃ uuid, Lib.DotFree uuid ∧ k = headName uuid) := by
  refine ⟨fun x y => DbItem.key_injective, ?_, ?_⟩
  · -- every sequence of operations keeps to the scheme, from an empty database on
    intro ops hops
    refine DbItem.Keyed.run ?_ hops
    intro k hk
    exact absurd hk (AList.notMem_empty k)
  · intro b hb
    refine ⟨?_, ?_, ?_, ?_⟩
    · -- a scan returns no key twice
      intro pfx
      exact b.db.nodupKeys.filter _
    · -- the entries of an object
      intro uuid s i hu hnul k
      unfold LMDBBackend.getAll
      rw [List.mem_filter, AList.mem_keys,
        LMDBBackend.startsWith_iff (nulFree_objectName hnul s i)]
      refine and_congr_right fun hk => ?_
      obtain ⟨x, hx, rfl⟩ := hb k hk
      constructor
      · intro hp
        obtain ⟨p, rfl⟩ := DbItem.prefix_entries hu hx hp
        exact ⟨p, rfl⟩
      · rintro ⟨p, hp⟩
        rw [hp]
        unfold LMDBBackend.logEntryKey
        rw [String.toList_append (s := objectName uuid s i ++ ".entry.")]
        exact List.prefix_append _ _
    · -- the links
      intro k
      have hlinks : k ∈ b.listLinks ↔ k ∈ b.db ∧ IsLinkKey k := LMDBBackend.mem_listLinks
      unfold LMDBBackend.listLinks at hlinks
      rw [hlinks]
      refine and_congr_right fun hk => ?_
      obtain ⟨x, hx, rfl⟩ := hb k hk
      rw [DbItem.isLinkKey_iff]
      constructor
      · rintro ⟨name, rfl⟩
        exact ⟨name, rfl⟩
      · rintro ⟨name, hname⟩
        rw [← DbItem.isLinkKey_iff, hname]
        exact isLinkKey_link name
    · -- the head objects
      intro k
      rw [LMDBBackend.mem_listHeads]
      refine and_congr_right fun hk => ?_
      obtain ⟨x, hx, rfl⟩ := hb k hk
      rw [DbItem.isHeadKey_iff hx]
      constructor
      · rintro ⟨uuid, rfl⟩
        exact ⟨uuid, hx uuid rfl, rfl⟩
      · rintro ⟨uuid, hu, heq⟩
        have hhead : (DbItem.head uuid).DotFree := DbItem.dotFree_some hu rfl
        exact ⟨uuid, DbItem.key_injective hx hhead heq⟩

/-- Entries of two objects whose names differ in the last digit. -/
def neighbours : List (DbOp Unit) :=
  [.createLog "log" () "u", .call (.seal (objectName "u" 0 1) 1), .call (.seal (objectName "u" 0 10) 1),
    .call (.write (objectName "u" 0 1) "a" 1 1), .call (.write (objectName "u" 0 10) "b" 1 10)]

/-- Object 10 is not scanned with object 1, although its name goes on from it. -/
theorem lmdb_keys_unambiguous_neighbours :
    LMDBBackend.logEntryKey (objectName "u" 0 10) 10 ∉
      (neighbours.foldl LMDBBackend.apply {}).getAll (objectName "u" 0 1 ++ ".entry.") := by
  obtain ⟨hinj, hrun, hscan⟩ := lmdb_keys_unambiguous (ν := Unit)
  have hfree : Lib.DotFree "u" := by decide
  have hops : ∀ op ∈ neighbours, op.Addresses := by
    intro op hop
    simp only [neighbours, List.mem_cons, List.not_mem_nil, or_false] at hop
    rcases hop with rfl | rfl | rfl | rfl | rfl
    · exact hfree
    · exact ⟨"u", 0, 1, hfree, rfl⟩
    · exact ⟨"u", 0, 10, hfree, rfl⟩
    · exact ⟨"u", 0, 1, hfree, rfl⟩
    · exact ⟨"u", 0, 10, hfree, rfl⟩
  intro hk
  obtain ⟨-, p, hp⟩ := ((hscan _ (hrun _ hops)).2.1 "u" 0 1 hfree (by decide) _).mp hk
  have heq := hinj (.entry "u" 0 10 10) (.entry "u" 0 1 p) (DbItem.dotFree_some hfree rfl)
    (DbItem.dotFree_some hfree rfl) hp
  cases heq

/-- Entries of two objects whose names agree up to a NUL. -/
def nulNeighbours : List (DbOp Unit) :=
  [.call (.seal (objectName "u\x00a" 0 0) 1), .call (.seal (objectName "u\x00b" 0 0) 1),
    .call (.write (objectName "u\x00b" 0 0) "b" 1 5)]

/-- **The scan stops at a NUL**: it compares with `strncmp`, so the entries of one object are found
    below the prefix of the other. -/
theorem scan_past_nul :
    (∀ op ∈ nulNeighbours, op.Addresses) ∧ Lib.DotFree "u\x00a" ∧
    LMDBBackend.logEntryKey (objectName "u\x00b" 0 0) 5 ∈
      (nulNeighbours.foldl LMDBBackend.apply {}).getAll (objectName "u\x00a" 0 0 ++ ".entry.") ∧
    ¬ ∃ position, LMDBBackend.logEntryKey (objectName "u\x00b" 0 0) 5 =
      LMDBBackend.logEntryKey (objectName "u\x00a" 0 0) position := by
  have ha : Lib.DotFree "u\x00a" := by decide
  have hb : Lib.DotFree "u\x00b" := by decide
  -- for `strncmp` the prefix ends at the NUL, so the entry of the other log matches
  refine ⟨?_, ha, by decide +kernel, ?_⟩
  · intro op hop
    simp only [nulNeighbours, List.mem_cons, List.not_mem_nil, or_false] at hop
    rcases hop with rfl | rfl | rfl
    · exact ⟨_, 0, 0, ha, rfl⟩
    · exact ⟨_, 0, 0, hb, rfl⟩
    · exact ⟨_, 0, 0, hb, rfl⟩
  · rintro ⟨p, hp⟩
    have heq := DbItem.key_injective (x := .entry "u\x00b" 0 0 5) (y := .entry "u\x00a" 0 0 p)
      (DbItem.dotFree_some hb rfl) (DbItem.dotFree_some ha rfl) hp
    exact absurd (DbItem.entry.inj heq).1 (by decide)

end ZLog
