import ZLog.Storage.Names
import ZLog.Storage.Ram
import ZLog.Storage.Lmdb
import ZLog.Storage.Ceph

/-!
# Creating logs and drawing ids

What the operations behind `CreateLog` and `uniqueId` do, one lemma for each, in terms of what is
bound before and after.
-/

namespace ZLog

variable {ν : Type}

/-! ## Links and head objects

A link is never stored under the name of a head object. -/

/-- The link of a name is not a head object. -/
theorem link_ne_hoid (name : String) (u : Uuid) : "head." ++ name ≠ u.hoid := by
  rw [← Key.head_name]
  exact (link_ne_key name _).symm

theorem linkObjectName_ne_hoid (name : String) (u : Uuid) :
    CephBackend.linkObjectName name ≠ u.hoid := by
  intro h
  have hl := congrArg String.toList h
  simp [CephBackend.linkObjectName, Uuid.hoid, String.toList_append] at hl

namespace RAMBackend

/-- The head object of a new log. -/
def newHead (u : Uuid) (view : ν) : Object ν :=
  .projection { epoch := 1, pfx := u.pfx, projections := .singleton 1 view }

/-- Binds a key of `objects_`. -/
def bind (b : RAMBackend ν) (key : String) (x : Object ν) : RAMBackend ν :=
  { b with objects := b.objects.insert key x }

theorem lookup_bind (b : RAMBackend ν) (key key' : String) (x : Object ν) :
    (b.bind key x).objects.lookup key' = if key' = key then some x else b.objects.lookup key' := by
  by_cases h : key' = key
  · rw [h, if_pos rfl]
    exact AList.lookup_insert _
  · rw [if_neg h]
    exact AList.lookup_insert_ne h

/-- `CreateLog`, first part: the head object must not exist. -/
theorem createHead_cases (b : RAMBackend ν) (u : Uuid) (view : ν) :
    (b.objects.lookup u.hoid ≠ none ∧ b.createHead u.text view = (.error .assertion, b)) ∨
    (b.objects.lookup u.hoid = none ∧
      b.createHead u.text view = (.ok (), b.bind u.hoid (newHead u view))) := by
  unfold createHead
  dsimp only
  rw [show "zlog.head." ++ u.text = u.hoid from rfl]
  cases b.objects.lookup u.hoid with
  | none => exact Or.inr ⟨rfl, rfl⟩
  | some x => exact Or.inl ⟨by simp, rfl⟩

/-- `CreateLog`, second part: the link decides who has created the log. -/
theorem createLink_cases (b : RAMBackend ν) (name : String) (u : Uuid) :
    (b.objects.lookup ("head." ++ name) ≠ none ∧
      b.createLink name u.text = (.error .eexist, b)) ∨
    (b.objects.lookup ("head." ++ name) = none ∧
      b.createLink name u.text = (.ok (), b.bind ("head." ++ name) (.link u.hoid))) := by
  unfold createLink
  cases b.objects.lookup ("head." ++ name) with
  | none => exact Or.inr ⟨rfl, rfl⟩
  | some x => exact Or.inl ⟨by simp, rfl⟩

/-- RAM counts the ids of all logs together. -/
theorem uniqueId_cases (b : RAMBackend ν) (hoid : String) :
    (hoid = "" ∧ b.uniqueId hoid = (.error .einval, b)) ∨
    (hoid ≠ "" ∧ b.uniqueId hoid =
      (.ok b.nextUniqueId, { b with nextUniqueId := b.nextUniqueId + 1 })) := by
  unfold uniqueId
  by_cases h : hoid = ""
  · exact Or.inl ⟨h, if_pos h⟩
  · exact Or.inr ⟨h, if_neg h⟩

end RAMBackend

namespace LMDBBackend

/-- The database with a new log. -/
def withLog (b : LMDBBackend ν) (name : String) (u : Uuid) (view : ν) : LMDBBackend ν :=
  ((b.put u.hoid (.projection 1 0 u.pfx)).put (projectionKey u.hoid 1) (.view view)).put
    ("head." ++ name) (.link u.hoid)

/-- A transaction that fails leaves the database alone; with a fresh uuid it fails only when the
    name is taken. -/
theorem createLog_cases (b : LMDBBackend ν) {name : String} (hname : name ≠ "") (u : Uuid)
    (view : ν) :
    (∃ e, b.createLog name view u.text = (.error e, b) ∧
      (b.get u.hoid = none → b.get (projectionKey u.hoid 1) = none →
        e = .eexist ∧ b.get ("head." ++ name) ≠ none)) ∨
    (b.get u.hoid = none ∧ b.get (projectionKey u.hoid 1) = none ∧
      b.get ("head." ++ name) = none ∧
      b.createLog name view u.text = (.ok (u.hoid, u.pfx), b.withLog name u view)) := by
  have hkey : projectionKey u.hoid 1 ≠ u.hoid := by
    rw [projectionKey, ← Key.view_name, ← Key.head_name]
    intro h
    cases Key.name_injective h
  have hlink : "head." ++ name ≠ u.hoid := by
    rw [← Key.head_name]
    exact (link_ne_key name _).symm
  have hlink' : "head." ++ name ≠ projectionKey u.hoid 1 := by
    rw [projectionKey, ← Key.view_name]
    exact (link_ne_key name _).symm
  unfold createLog
  rw [if_neg hname]
  dsimp only
  rw [show "zlog.head." ++ u.text = u.hoid from rfl]
  unfold putNew
  cases h₁ : b.get u.hoid with
  | some x => exact Or.inl ⟨.eio, rfl, fun hn => by cases hn⟩
  | none =>
    simp only [get_put_eq, hkey, if_false]
    cases h₂ : b.get (projectionKey u.hoid 1) with
    | some x => exact Or.inl ⟨.eexist, rfl, fun _ hn => by cases hn⟩
    | none =>
      simp only [get_put_eq, hlink, hlink', if_false]
      cases h₃ : b.get ("head." ++ name) with
      | some x => exact Or.inl ⟨.eexist, rfl, fun _ _ => ⟨rfl, by simp⟩⟩
      | none => exact Or.inr ⟨trivial, trivial, rfl, rfl⟩

/-- LMDB keeps a counter in every head object. -/
theorem uniqueId_cases (b : LMDBBackend ν) (hoid : String) :
    (∃ e, b.uniqueId hoid = (.error e, b)) ∨
    ∃ epoch id pfx, b.get hoid = some (.projection epoch id pfx) ∧
      b.uniqueId hoid = (.ok id, b.put hoid (.projection epoch (id + 1) pfx)) := by
  unfold uniqueId
  split
  · exact Or.inl ⟨_, rfl⟩
  · split
    · exact Or.inl ⟨_, rfl⟩
    · next epoch id pfx heq => exact Or.inr ⟨epoch, id, pfx, heq, rfl⟩
    · exact Or.inl ⟨_, rfl⟩

end LMDBBackend

end ZLog
