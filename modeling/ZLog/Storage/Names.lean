import ZLog.Lib.Dotted

/-!
# Object names

`CreateLog` names the head object of a log after a random uuid and derives the prefix of its
data objects from the same uuid; `LogBackend` prepends that prefix to the names a stripe gives
its objects.
-/

namespace ZLog

/-- Numerals contain no NUL. -/
theorem nulFree_toString (n : Nat) : '\x00' ∉ (toString n).toList := by
  intro h
  have hd : Char.isDigit '\x00' = true := by
    refine Nat.isDigit_of_mem_toDigits (b := 10) (n := n) (by omega) (by omega) ?_
    simpa [← Nat.toList_repr] using h
  exact absurd hd (by decide)

/-- The text of a uuid: 36 hexadecimal digits and dashes. -/
structure Uuid where
  text : String
  length_eq : text.toList.length = 36
  chars : ∀ c ∈ text.toList, c = '-' ∨ c.isDigit = true ∨ ('a' ≤ c ∧ c ≤ 'f')
  deriving DecidableEq

namespace Uuid

/-- An id is its text. -/
@[ext] theorem ext {u v : Uuid} (h : u.text = v.text) : u = v := by
  cases u
  cases v
  cases h
  rfl

/-- Ids have no dots: they separate the parts of a name. -/
theorem dotFree (u : Uuid) : Lib.DotFree u.text := by
  intro h
  rcases u.chars _ h with hc | hc | hc
  · exact absurd hc (by decide)
  · exact absurd hc (by decide)
  · exact absurd hc (by decide)

/-- The name of the head object. -/
def hoid (u : Uuid) : String := "zlog.head." ++ u.text

/-- The prefix of the names of the data objects. -/
def pfx (u : Uuid) : String := "zlog.data." ++ u.text

/-- The uuid of zeros. -/
def zero : Uuid where
  text := "00000000-0000-0000-0000-000000000000"
  length_eq := by decide
  chars := by simp

/-- A second uuid. -/
def one : Uuid where
  text := "00000000-0000-0000-0000-000000000001"
  length_eq := by decide
  chars := by simp

/-- The name of a head object is not empty. -/
theorem hoid_ne_empty (u : Uuid) : u.hoid ≠ "" := by
  intro h
  have := congrArg String.length h
  simp [hoid, String.length_append] at this

/-- The prefix of a log is not empty. -/
theorem pfx_ne_empty (u : Uuid) : u.pfx ≠ "" := by
  intro h
  have := congrArg String.length h
  simp [pfx, String.length_append] at this

end Uuid

/-- The data object `index` of the stripe `stripe` of the log of `uuid`. -/
structure Oid where
  uuid : Uuid
  stripe : Nat
  index : Nat
  deriving DecidableEq

/-- The name of a data object as `LogBackend` passes it on. -/
def Oid.name (a : Oid) : String :=
  a.uuid.pfx ++ "." ++ (toString a.stripe ++ "." ++ toString a.index)

/-- The name of an object is not empty. -/
theorem Oid.name_ne_empty (a : Oid) : a.name ≠ "" := by
  intro h
  have := congrArg String.length h
  simp [name, Uuid.pfx, String.length_append] at this

/-! ## Keys

Flat stores keep several records for one object under names derived from its own.  All these
names are dotted, and two of them are the same only when they name the same record. -/

/-- What a derived name stands for. -/
inductive Key where
  | head (u : Uuid)
  | view (u : Uuid) (epoch : Nat)
  | object (a : Oid)
  | maxPos (a : Oid)
  | entry (a : Oid) (position : Nat)
  deriving DecidableEq

namespace Key

/-- The components of a key. -/
def components : Key → List String
  | .head u => ["zlog", "head", u.text]
  | .view u epoch => ["zlog", "head", u.text, toString epoch]
  | .object a => ["zlog", "data", a.uuid.text, toString a.stripe, toString a.index]
  | .maxPos a => ["zlog", "data", a.uuid.text, toString a.stripe, toString a.index, "maxpos"]
  | .entry a position =>
    ["zlog", "data", a.uuid.text, toString a.stripe, toString a.index, "entry", toString position]

/-- The key as stored. -/
def name (k : Key) : String := Lib.dotted k.components

/-- No part of a key has a dot in it, so the parts can be read back from the key. -/
theorem dotFree_components (k : Key) : ∀ s ∈ k.components, Lib.DotFree s := by
  -- the words of the names
  have hlit : ∀ s ∈ ["zlog", "head", "data", "maxpos", "entry"], Lib.DotFree s := by decide
  intro s hs
  -- ids and numbers are free of dots as well
  cases k with
  | head u =>
    simp only [components, List.mem_cons, List.not_mem_nil, or_false] at hs
    rcases hs with rfl | rfl | rfl
    · exact hlit _ (by simp)
    · exact hlit _ (by simp)
    · exact u.dotFree
  | view u e =>
    simp only [components, List.mem_cons, List.not_mem_nil, or_false] at hs
    rcases hs with rfl | rfl | rfl | rfl
    · exact hlit _ (by simp)
    · exact hlit _ (by simp)
    · exact u.dotFree
    · exact Lib.dotFree_repr e
  | object a =>
    simp only [components, List.mem_cons, List.not_mem_nil, or_false] at hs
    rcases hs with rfl | rfl | rfl | rfl | rfl
    · exact hlit _ (by simp)
    · exact hlit _ (by simp)
    · exact a.uuid.dotFree
    · exact Lib.dotFree_repr _
    · exact Lib.dotFree_repr _
  | maxPos a =>
    simp only [components, List.mem_cons, List.not_mem_nil, or_false] at hs
    rcases hs with rfl | rfl | rfl | rfl | rfl | rfl
    · exact hlit _ (by simp)
    · exact hlit _ (by simp)
    · exact a.uuid.dotFree
    · exact Lib.dotFree_repr _
    · exact Lib.dotFree_repr _
    · exact hlit _ (by simp)
  | entry a p =>
    simp only [components, List.mem_cons, List.not_mem_nil, or_false] at hs
    rcases hs with rfl | rfl | rfl | rfl | rfl | rfl | rfl
    · exact hlit _ (by simp)
    · exact hlit _ (by simp)
    · exact a.uuid.dotFree
    · exact Lib.dotFree_repr _
    · exact Lib.dotFree_repr _
    · exact hlit _ (by simp)
    · exact Lib.dotFree_repr _

/-- Every key has parts. -/
theorem components_ne_nil (k : Key) : k.components ≠ [] := by
  cases k <;> simp [components]

/-- An object is given by its id and two numbers. -/
private theorem oid_eq {a b : Oid} (hu : a.uuid.text = b.uuid.text)
    (hs : toString a.stripe = toString b.stripe) (hi : toString a.index = toString b.index) :
    a = b := by
  cases a
  cases b
  cases Uuid.ext hu
  cases Lib.toString_nat_injective hs
  cases Lib.toString_nat_injective hi
  rfl

/-- A key is given by its parts. -/
theorem components_injective {k l : Key} (h : k.components = l.components) : k = l := by
  have hne : ("head" : String) ≠ "data" := by decide
  cases k <;> cases l <;>
    simp only [components, List.cons.injEq, hne, hne.symm, true_and, and_true, reduceCtorEq,
      and_false] at h
  · rw [Uuid.ext h]
  · rw [Uuid.ext h.1, Lib.toString_nat_injective h.2]
  · rw [oid_eq h.1 h.2.1 h.2.2]
  · rw [oid_eq h.1 h.2.1 h.2.2]
  · rw [oid_eq h.1 h.2.1 h.2.2.1, Lib.toString_nat_injective h.2.2.2]

/-- **Keys do not collide.** -/
theorem name_injective {k l : Key} (h : k.name = l.name) : k = l :=
  components_injective (Lib.dotted_injective k.dotFree_components l.dotFree_components
    k.components_ne_nil l.components_ne_nil h)

/-- The key of a head object is its name. -/
theorem head_name (u : Uuid) : (head u).name = u.hoid := by
  apply String.toList_inj.mp
  simp [name, components, Lib.dotted, Uuid.hoid, String.toList_append]

/-- The key of a view is the name of the head object and the epoch. -/
theorem view_name (u : Uuid) (e : Nat) : (view u e).name = u.hoid ++ "." ++ toString e := by
  apply String.toList_inj.mp
  simp [name, components, Lib.dotted, Uuid.hoid, String.toList_append]

/-- The key of an object is its name. -/
theorem object_name (a : Oid) : (object a).name = a.name := by
  apply String.toList_inj.mp
  simp [name, components, Lib.dotted, Oid.name, Uuid.pfx, String.toList_append]

/-- The key of a maximum position is made from the object's name. -/
theorem maxPos_name (a : Oid) : (maxPos a).name = a.name ++ ".maxpos" := by
  apply String.toList_inj.mp
  simp [name, components, Lib.dotted, Oid.name, Uuid.pfx, String.toList_append]

/-- The key of an entry is made from the object's name and the position. -/
theorem entry_name (a : Oid) (p : Nat) : (entry a p).name = a.name ++ ".entry." ++ toString p := by
  apply String.toList_inj.mp
  simp [name, components, Lib.dotted, Oid.name, Uuid.pfx, String.toList_append]

/-- The keys below the entry directory of an object are its entries. -/
theorem prefix_entry_iff (a : Oid) (k : Key) :
    (a.name ++ ".entry.").toList <+: k.name.toList ↔ ∃ p, k = .entry a p := by
  have hdir : a.name ++ ".entry." = Lib.dotted ((object a).components ++ ["entry"]) ++ "." := by
    rw [Lib.dotted_append (components_ne_nil _) (by simp), ← name, object_name]
    simp [Lib.dotted, String.append_assoc]
  constructor
  · -- the prefix is a whole number of parts, so they are parts of the key
    intro h
    rw [hdir] at h
    have hfree : ∀ s ∈ (object a).components ++ ["entry"], Lib.DotFree s := by
      intro s hs
      rcases List.mem_append.mp hs with hs | hs
      · exact dotFree_components _ s hs
      · rw [List.mem_singleton.mp hs]
        decide
    obtain ⟨d, ds, hk⟩ := Lib.dotted_prefix hfree k.dotFree_components (by simp) h
    cases k with
    | entry b p =>
      simp only [components, List.cons_append, List.nil_append, List.cons.injEq, true_and] at hk
      exact ⟨p, by rw [oid_eq hk.1 hk.2.1 hk.2.2.1]⟩
    -- the other keys have other words at these places
    | head u => simp [components] at hk
    | view u e => simp [components] at hk
    | object b => simp [components] at hk
    | maxPos b =>
      simp only [components, List.cons_append, List.nil_append, List.cons.injEq, true_and] at hk
      exact absurd hk.2.2.2.1 (by decide)
  · rintro ⟨p, rfl⟩
    rw [entry_name]
    exact ⟨(toString p).toList, by simp [String.toList_append]⟩

end Key

/-- No two objects share a name. -/
theorem Oid.name_injective {a b : Oid} (h : a.name = b.name) : a = b := by
  rw [← Key.object_name, ← Key.object_name] at h
  cases Key.name_injective h
  rfl

/-- No two logs share a head object. -/
theorem Uuid.hoid_injective {u v : Uuid} (h : u.hoid = v.hoid) : u = v := by
  rw [← Key.head_name, ← Key.head_name] at h
  cases Key.name_injective h
  rfl

/-- A head object is no log object. -/
theorem Uuid.hoid_ne_oid (u : Uuid) (a : Oid) : u.hoid ≠ a.name := by
  rw [← Key.object_name, ← Key.head_name]
  intro h
  cases Key.name_injective h

/-- A link is stored under a name that no other record has. -/
theorem link_ne_key (name : String) (k : Key) : k.name ≠ "head." ++ name := by
  intro h
  have hl := congrArg String.toList h
  cases k <;> simp [Key.name, Key.components, Lib.dotted, String.toList_append] at hl

end ZLog
