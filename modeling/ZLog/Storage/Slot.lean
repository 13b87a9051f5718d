import ZLog.Storage.Ram
import ZLog.Storage.Names
import Mathlib.Tactic

/-!
# What a log object says about a position

The state of a position is spread over the entry table, two flags of an entry and the trim
limit.  `LogObject.slot` reads them back as one of three values, and the lemmas here give each
operation of a log object in terms of it: the code the operation returns is a function of the
slot it addresses, and the slots after it are the slots before it with one or a range of them
changed.  Later modules never look inside the entry table again.
-/

namespace ZLog

/-- The abstract state of one position. -/
inductive Slot where
  | unwritten
  | written (data : String)
  | invalid
  deriving DecidableEq, Repr

namespace Slot

/-- The life cycle of a position: unwritten, then possibly written, then invalid. -/
inductive Le : Slot → Slot → Prop where
  | refl (s : Slot) : Le s s
  | write (data : String) : Le .unwritten (.written data)
  | fill : Le .unwritten .invalid
  | trim (data : String) : Le (.written data) .invalid

/-- The life cycle may be cut into stages. -/
theorem Le.trans {s t u : Slot} (h₁ : Le s t) (h₂ : Le t u) : Le s u := by
  cases h₁ with
  | refl => exact h₂
  | write data =>
    cases h₂ with
    | refl => exact .write data
    | trim => exact .fill
  | fill =>
    cases h₂
    exact .fill
  | trim data =>
    cases h₂
    exact .trim data

/-- Every position may end up invalid. -/
theorem Le.to_invalid (s : Slot) : Le s .invalid := by
  cases s with
  | unwritten => exact .fill
  | written data => exact .trim data
  | invalid => exact .refl _

/-- There is no way back from invalid. -/
theorem Le.eq_invalid {s : Slot} (h : Le .invalid s) : s = .invalid := by
  cases h
  rfl

/-- Written data stays, or it is trimmed; it is never replaced. -/
theorem Le.of_written {data : String} {s : Slot} (h : Le (.written data) s) :
    s = .written data ∨ s = .invalid := by
  cases h with
  | refl => exact Or.inl rfl
  | trim => exact Or.inr rfl

theorem Le.ne_unwritten {s t : Slot} (h : Le s t) (hs : s ≠ .unwritten) : t ≠ .unwritten := by
  cases h with
  | refl => exact hs
  | write => exact absurd rfl hs
  | fill => exact absurd rfl hs
  | trim => exact Slot.noConfusion

end Slot

namespace LogObject

/-- The state of a position in an object. -/
def slot (o : LogObject) (position : Nat) : Slot :=
  if o.belowTrimLimit position then .invalid
  else
    match o.entries.lookup position with
    | none => .unwritten
    | some entry => if entry.trimmed || entry.invalidated then .invalid else .written entry.data

@[simp] theorem slot_setEpoch (o : LogObject) (e p : Nat) :
    ({ o with epoch := e } : LogObject).slot p = o.slot p := rfl

/-- Below the trim limit the entry table does not count. -/
theorem slot_eq_invalid_of_below {o : LogObject} {p : Nat} (h : o.belowTrimLimit p = true) :
    o.slot p = .invalid := by
  simp [slot, h]

/-- The only evidence for a position is its entry or the trim limit. -/
theorem slot_eq_unwritten_iff {o : LogObject} {p : Nat} :
    o.slot p = .unwritten ↔ o.belowTrimLimit p = false ∧ p ∉ o.entries := by
  rw [← AList.lookup_eq_none]
  unfold slot
  cases hb : o.belowTrimLimit p with
  | true => simp
  | false =>
    cases hl : o.entries.lookup p with
    | none => simp
    | some e => cases ht : (e.trimmed || e.invalidated) <;> simp [ht]

/-! ## Each operation in terms of slots -/

/-- `Read` answers with the slot. -/
theorem read_eq (o : LogObject) (p : Nat) :
    o.read p = match o.slot p with
      | .unwritten => .error .erange
      | .written data => .ok data
      | .invalid => .error .enodata := by
  unfold read slot
  cases o.belowTrimLimit p with
  -- below the trim limit
  | true => simp
  | false =>
    cases o.entries.lookup p with
    | none => simp
    | some e => cases ht : (e.trimmed || e.invalidated) <;> simp [ht]

/-- The slots after the entry at `p` was set and nothing else. -/
private theorem slot_insert (o : LogObject) (p q m : Nat) (e : LogEntry) :
    ({ o with entries := o.entries.insert p e, maxpos := m } : LogObject).slot q =
      if o.belowTrimLimit q then .invalid
      else if q = p then (if e.trimmed || e.invalidated then .invalid else .written e.data)
      else o.slot q := by
  have hb : ({ o with entries := o.entries.insert p e, maxpos := m } : LogObject).belowTrimLimit q =
      o.belowTrimLimit q := rfl
  unfold slot
  rw [hb]
  cases hq : o.belowTrimLimit q with
  | true => simp
  | false =>
    by_cases hqp : q = p
    · -- the entry that was set, unless the trim limit hides it
      subst hqp
      simp [AList.lookup_insert]
    · simp [hqp, AList.lookup_insert_ne hqp]

/-- `Write` adds one entry at an unwritten position and raises the maximum position. -/
theorem write_of_unwritten {o : LogObject} {p : Nat} (h : o.slot p = .unwritten) (d : String) :
    o.write d p = (.ok (), { o with entries := o.entries.insert p { data := d },
                                    maxpos := max o.maxpos p }) := by
  have ⟨hb, hk⟩ := slot_eq_unwritten_iff.mp h
  simp [write, hb, AList.lookup_eq_none.mpr hk]

/-- Every other position is read-only for `Write`. -/
theorem write_of_ne_unwritten {o : LogObject} {p : Nat} (h : o.slot p ≠ .unwritten) (d : String) :
    o.write d p = (.error .erofs, o) := by
  unfold write
  cases hb : o.belowTrimLimit p with
  | true => simp
  | false =>
    cases hl : o.entries.lookup p with
    | none => exact absurd (slot_eq_unwritten_iff.mpr ⟨hb, AList.lookup_eq_none.mp hl⟩) h
    | some e => simp

/-- The slots after a write: only its own position changed. -/
theorem slot_write {o : LogObject} {p : Nat} (h : o.slot p = .unwritten) (d : String) (q : Nat) :
    (o.write d p).2.slot q = if q = p then .written d else o.slot q := by
  have ⟨hb, _⟩ := slot_eq_unwritten_iff.mp h
  rw [write_of_unwritten h]
  dsimp only
  rw [slot_insert]
  by_cases hqp : q = p
  · subst hqp
    simp [hb]
  · -- the trim limit of the other positions did not move
    cases hq : o.belowTrimLimit q with
    | true => simp [hqp, slot_eq_invalid_of_below hq]
    | false => simp [hqp]

/-- `Fill` adds the junk entry at an unwritten position, as `Write` adds data. -/
theorem fill_of_unwritten {o : LogObject} {p : Nat} (h : o.slot p = .unwritten) :
    o.fill p = (.ok (), { o with entries := o.entries.insert p junkEntry,
                                 maxpos := max o.maxpos p }) := by
  have ⟨hb, hk⟩ := slot_eq_unwritten_iff.mp h
  simp [fill, hb, AList.lookup_eq_none.mpr hk]

/-- Data cannot be filled over. -/
theorem fill_of_written {o : LogObject} {p : Nat} {d : String} (h : o.slot p = .written d) :
    o.fill p = (.error .erofs, o) := by
  unfold fill
  unfold slot at h
  cases hb : o.belowTrimLimit p with
  | true => simp [hb] at h
  | false =>
    cases hl : o.entries.lookup p with
    | none => simp [hb, hl] at h
    | some e => cases ht : (e.trimmed || e.invalidated) <;> simp [hb, hl, ht] at h ⊢

/-- A position that is invalid already counts as filled. -/
theorem fill_of_invalid {o : LogObject} {p : Nat} (h : o.slot p = .invalid) :
    o.fill p = (.ok (), o) := by
  unfold fill
  unfold slot at h
  cases hb : o.belowTrimLimit p with
  | true => simp
  | false =>
    cases hl : o.entries.lookup p with
    | none => simp [hb, hl] at h
    | some e => cases ht : (e.trimmed || e.invalidated) <;> simp [hb, hl, ht] at h ⊢

/-- The slots after a fill. -/
theorem slot_fill {o : LogObject} {p : Nat} (h : o.slot p = .unwritten) (q : Nat) :
    (o.fill p).2.slot q = if q = p then .invalid else o.slot q := by
  rw [fill_of_unwritten h]
  dsimp only
  rw [slot_insert]
  by_cases hqp : q = p
  · simp [hqp, junkEntry]
  · cases hq : o.belowTrimLimit q with
    | true => simp [hqp, slot_eq_invalid_of_below hq]
    | false => simp [hqp]

/-- A single-position trim invalidates its position. -/
theorem slot_trim_single (o : LogObject) (p q : Nat) :
    (o.trim p false false).slot q = if q = p then .invalid else o.slot q := by
  unfold trim
  simp only [Bool.false_eq_true, if_false]
  cases hb : o.belowTrimLimit p with
  | true =>
    -- covered by the trim limit: the trim changes nothing
    by_cases hqp : q = p
    · subst hqp
      simp [slot_eq_invalid_of_below hb]
    · simp [hqp]
  | false =>
    simp only [Bool.false_eq_true, if_false, trimEntry]
    cases hl : o.entries.lookup p with
    -- an unwritten position gets a junk entry
    | none =>
      dsimp only
      rw [slot_insert]
      by_cases hqp : q = p
      · simp [hqp, junkEntry]
      · cases hq : o.belowTrimLimit q with
        | true => simp [hqp, slot_eq_invalid_of_below hq]
        | false => simp [hqp]
    -- an entry is marked trimmed, its data erased
    | some e =>
      dsimp only
      rw [slot_insert]
      by_cases hqp : q = p
      · simp [hqp]
      · cases hq : o.belowTrimLimit q with
        | true => simp [hqp, slot_eq_invalid_of_below hq]
        | false => simp [hqp]

/-- Raising the limit covers the positions up to it, and those covered before. -/
theorem belowTrimLimit_raiseTrimLimit (o : LogObject) (p q : Nat) :
    (o.raiseTrimLimit p).belowTrimLimit q = (decide (q ≤ p) || o.belowTrimLimit q) := by
  unfold raiseTrimLimit belowTrimLimit
  cases o.trimLimit with
  | none => simp
  | some l => simp

@[simp] theorem entries_raiseTrimLimit (o : LogObject) (p : Nat) :
    (o.raiseTrimLimit p).entries = o.entries := by
  unfold raiseTrimLimit
  split <;> rfl

@[simp] theorem epoch_raiseTrimLimit (o : LogObject) (p : Nat) :
    (o.raiseTrimLimit p).epoch = o.epoch := by
  unfold raiseTrimLimit
  split <;> rfl

@[simp] theorem maxpos_raiseTrimLimit (o : LogObject) (p : Nat) :
    (o.raiseTrimLimit p).maxpos = o.maxpos := by
  unfold raiseTrimLimit
  split <;> rfl

/-- With `trim_limit` set, the limit itself covers the position: no entry is touched. -/
theorem trim_range (o : LogObject) (p : Nat) : o.trim p true false = o.raiseTrimLimit p := by
  simp [trim, belowTrimLimit_raiseTrimLimit]

/-- A range trim invalidates every position up to its argument. -/
theorem slot_trim_range (o : LogObject) (p q : Nat) :
    (o.trim p true false).slot q = if q ≤ p then .invalid else o.slot q := by
  rw [trim_range]
  unfold slot
  rw [belowTrimLimit_raiseTrimLimit, entries_raiseTrimLimit]
  by_cases hq : q ≤ p <;> simp [hq]

/-- A full trim deletes the entries.  When it covers all of them it does to the slots what the
    range trim does. -/
theorem slot_trim_full {o : LogObject} {p : Nat} (hp : ∀ k ∈ o.entries, k ≤ p) (q : Nat) :
    (o.trim p true true).slot q = if q ≤ p then .invalid else o.slot q := by
  unfold trim slot
  simp only [if_true]
  have hb : ({ o.raiseTrimLimit p with entries := ∅ } : LogObject).belowTrimLimit q =
      (decide (q ≤ p) || o.belowTrimLimit q) := belowTrimLimit_raiseTrimLimit o p q
  rw [hb]
  by_cases hq : q ≤ p
  · simp [hq]
  · -- above `p` there was no entry to delete
    have hk : q ∉ o.entries := fun h => hq (hp q h)
    simp [hq, AList.lookup_eq_none.mpr hk]

/-- Whether a trim with these flags covers a position. -/
def TrimCovers (p : Nat) (trimLimit : Bool) (q : Nat) : Prop :=
  if trimLimit then q ≤ p else q = p

instance (p : Nat) (trimLimit : Bool) (q : Nat) : Decidable (TrimCovers p trimLimit q) := by
  unfold TrimCovers
  infer_instance

/-- **Trim on slots**: exactly the covered positions become invalid. -/
theorem slot_trim {o : LogObject} {p : Nat} {l f : Bool} (hlf : f = true → l = true)
    (hfull : f = true → ∀ k ∈ o.entries, k ≤ p) (q : Nat) :
    (o.trim p l f).slot q = if TrimCovers p l q then .invalid else o.slot q := by
  cases l with
  | false =>
    cases f with
    | false => simpa [TrimCovers] using slot_trim_single o p q
    | true => exact absurd (hlf rfl) (by simp)
  | true =>
    cases f with
    | false => simpa [TrimCovers] using slot_trim_range o p q
    | true => simpa [TrimCovers] using slot_trim_full (hfull rfl) q

/-! ## What the operations leave alone -/

@[simp] theorem epoch_write (o : LogObject) (d : String) (p : Nat) :
    (o.write d p).2.epoch = o.epoch := by
  unfold write
  split
  · rfl
  · split <;> rfl

@[simp] theorem epoch_fill (o : LogObject) (p : Nat) : (o.fill p).2.epoch = o.epoch := by
  unfold fill
  split
  · rfl
  · split
    · rfl
    · split <;> rfl

@[simp] theorem epoch_trimEntry (o : LogObject) (p : Nat) : (o.trimEntry p).epoch = o.epoch := by
  unfold trimEntry
  split <;> rfl

@[simp] theorem epoch_trim (o : LogObject) (p : Nat) (l f : Bool) :
    (o.trim p l f).epoch = o.epoch := by
  unfold trim
  cases l <;> cases f <;> simp <;> split <;> simp

/-- No trim lowers the limit. -/
theorem belowTrimLimit_trim {o : LogObject} {p q : Nat} {l f : Bool}
    (h : o.belowTrimLimit q = true) : (o.trim p l f).belowTrimLimit q = true := by
  have hraise : (o.raiseTrimLimit p).belowTrimLimit q = true := by
    rw [belowTrimLimit_raiseTrimLimit, h, Bool.or_true]
  have hentry : ∀ o' : LogObject, o'.belowTrimLimit q = true →
      (o'.trimEntry p).belowTrimLimit q = true := by
    intro o' ho'
    unfold trimEntry
    split <;> exact ho'
  unfold trim
  cases l with
  | false =>
    cases f with
    | false =>
      simp only [Bool.false_eq_true, if_false]
      split
      · exact h
      · exact hentry o h
    | true => exact h
  | true =>
    cases f with
    | false =>
      simp only [if_true, Bool.false_eq_true, if_false]
      split
      · exact hraise
      · exact hentry _ hraise
    | true => exact hraise

/-! ## Which entries there are -/

/-- A write adds the key of its position. -/
theorem mem_entries_write {o : LogObject} {p : Nat} (h : o.slot p = .unwritten) (d : String)
    (k : Nat) : k ∈ (o.write d p).2.entries ↔ k = p ∨ k ∈ o.entries := by
  rw [write_of_unwritten h]
  exact AList.mem_insert _

theorem mem_entries_fill {o : LogObject} {p : Nat} (h : o.slot p = .unwritten) (k : Nat) :
    k ∈ (o.fill p).2.entries ↔ k = p ∨ k ∈ o.entries := by
  rw [fill_of_unwritten h]
  exact AList.mem_insert _

/-- Trimming an entry creates it when it is missing. -/
theorem mem_entries_trimEntry (o : LogObject) (p k : Nat) :
    k ∈ (o.trimEntry p).entries ↔ k = p ∨ k ∈ o.entries := by
  unfold trimEntry
  split <;> exact AList.mem_insert _

/-- A trim creates an entry only at the position of a single-position trim. -/
theorem mem_entries_trim {o : LogObject} {p k : Nat} {l f : Bool}
    (h : k ∈ (o.trim p l f).entries) : k ∈ o.entries ∨ (k = p ∧ l = false) := by
  cases l with
  | true =>
    cases f with
    -- a full trim leaves no entry
    | true => simp [trim] at h
    | false =>
      -- a range trim moves the limit only
      rw [trim_range, entries_raiseTrimLimit] at h
      exact Or.inl h
  | false =>
    cases f with
    | true => simp [trim] at h
    | false =>
      unfold trim at h
      simp only [Bool.false_eq_true, if_false] at h
      split at h
      · exact Or.inl h
      · rcases (mem_entries_trimEntry o p k).mp h with rfl | hk
        · exact Or.inr ⟨rfl, rfl⟩
        · exact Or.inl hk

end LogObject

/-! ## Backend calls in terms of slots -/

namespace RAMBackend

variable {ν : Type}

/-- The log object stored under a name. -/
def logAt (b : RAMBackend ν) (oid : String) : Option LogObject :=
  match b.objects.lookup oid with
  | some (.log o) => some o
  | _ => none

/-- The epoch stored in an object; 0 before it exists. -/
def epochAt (b : RAMBackend ν) (oid : String) : Nat :=
  match b.logAt oid with
  | some o => o.epoch
  | none => 0

/-- The state of a position of an object. -/
def slotAt (b : RAMBackend ν) (oid : String) (position : Nat) : Slot :=
  match b.logAt oid with
  | some o => o.slot position
  | none => .unwritten

theorem logAt_eq_some {b : RAMBackend ν} {oid : String} {o : LogObject} :
    b.logAt oid = some o ↔ b.objects.lookup oid = some (.log o) := by
  unfold logAt
  split
  · next o' h => simp [h]
  · next hn => simpa using hn o

/-- The stored epoch of an object that exists. -/
theorem epochAt_of_logAt {b : RAMBackend ν} {oid : String} {o : LogObject}
    (h : b.logAt oid = some o) : b.epochAt oid = o.epoch := by
  simp [epochAt, h]

/-- The slots of an object that exists are those of the log object. -/
theorem slotAt_of_logAt {b : RAMBackend ν} {oid : String} {o : LogObject}
    (h : b.logAt oid = some o) (p : Nat) : b.slotAt oid p = o.slot p := by
  simp [slotAt, h]

@[simp] theorem logAt_setLog (b : RAMBackend ν) (oid : String) (o : LogObject) :
    (b.setLog oid o).logAt oid = some o := by
  simp [logAt, setLog, AList.lookup_insert]

/-- Storing an object leaves the others alone. -/
theorem logAt_setLog_ne (b : RAMBackend ν) {oid oid' : String} (o : LogObject)
    (h : oid' ≠ oid) : (b.setLog oid o).logAt oid' = b.logAt oid' := by
  simp [logAt, setLog, AList.lookup_insert_ne h]

theorem lookup_setLog (b : RAMBackend ν) (oid oid' : String) (o : LogObject) :
    (b.setLog oid o).objects.lookup oid' =
      if oid' = oid then some (.log o) else b.objects.lookup oid' := by
  by_cases h : oid' = oid
  · subst h
    simp [setLog, AList.lookup_insert]
  · simp [setLog, h, AList.lookup_insert_ne h]

/-- Of two stores under one name the second counts. -/
theorem setLog_setLog (b : RAMBackend ν) (oid : String) (o o' : LogObject) :
    (b.setLog oid o).setLog oid o' = b.setLog oid o' := by
  simp [setLog, AList.insert_insert]

/-- When a request on entries passes its checks: names and epochs are not empty, the object exists
    and its epoch is not newer. -/
theorem checkIo_eq_ok {b : RAMBackend ν} {oid : String} {epoch : Nat} {o : LogObject} :
    b.checkIo oid epoch = .ok o ↔
      oid ≠ "" ∧ epoch ≠ 0 ∧ b.logAt oid = some o ∧ o.epoch ≤ epoch := by
  rw [logAt_eq_some]
  unfold checkIo checkEpoch
  by_cases ho : oid = ""
  · simp [ho]
  · by_cases he : epoch = 0
    · simp [he]
    · simp only [ho, he, if_false, ne_eq, not_false_eq_true, true_and]
      split
      · next h => simp [h]
      · -- the object exists: its epoch decides
        next o' h =>
        by_cases hlt : epoch < o'.epoch
        · simp only [Bool.false_eq_true, if_false, hlt, if_true, h]
          constructor
          · intro hc
            cases hc
          · rintro ⟨hc, hle⟩
            cases hc
            omega
        · simp only [Bool.false_eq_true, if_false, hlt, h]
          constructor
          · intro hc
            cases hc
            exact ⟨rfl, by omega⟩
          · rintro ⟨hc, -⟩
            cases hc
            rfl
      · -- a view list or a link under this name, or nothing
        next hn heq =>
        constructor
        · intro hc
          cases hc
        · rintro ⟨hc, -⟩
          exact absurd (Option.some.inj (heq.symm.trans hc)) (hn o)

/-- A read that passes its checks answers with the log object. -/
theorem read_of_checkIo {b : RAMBackend ν} {oid : String} {epoch : Nat} {o : LogObject}
    (h : b.checkIo oid epoch = .ok o) (p : Nat) : b.read oid epoch p = o.read p := by
  simp [read, h]

/-- What `Write` can do. -/
theorem write_cases (b : RAMBackend ν) (oid data : String) (epoch p : Nat) :
    (∃ e, b.checkIo oid epoch = .error e ∧ b.write oid data epoch p = (.error e, b)) ∨
    (∃ o, b.checkIo oid epoch = .ok o ∧ o.slot p ≠ .unwritten ∧
      b.write oid data epoch p = (.error .erofs, b)) ∨
    (∃ o, b.checkIo oid epoch = .ok o ∧ o.slot p = .unwritten ∧
      b.write oid data epoch p =
        (.ok (), b.setLog oid (o.write (if b.blackhole then "" else data) p).2)) := by
  unfold write
  cases hc : b.checkIo oid epoch with
  | error e => exact Or.inl ⟨e, rfl, rfl⟩
  | ok o =>
    by_cases hs : o.slot p = .unwritten
    · -- with `blackhole` the entry is made, but its data is dropped
      refine Or.inr (Or.inr ⟨o, rfl, hs, ?_⟩)
      simp only [LogObject.write_of_unwritten hs]
    · refine Or.inr (Or.inl ⟨o, rfl, hs, ?_⟩)
      simp only [LogObject.write_of_ne_unwritten hs]

/-- What `Fill` can do. -/
theorem fill_cases (b : RAMBackend ν) (oid : String) (epoch p : Nat) :
    (∃ e, b.checkIo oid epoch = .error e ∧ b.fill oid epoch p = (.error e, b)) ∨
    (∃ o d, b.checkIo oid epoch = .ok o ∧ o.slot p = .written d ∧
      b.fill oid epoch p = (.error .erofs, b)) ∨
    (∃ o, b.checkIo oid epoch = .ok o ∧ o.slot p = .invalid ∧
      b.fill oid epoch p = (.ok (), b.setLog oid o)) ∨
    (∃ o, b.checkIo oid epoch = .ok o ∧ o.slot p = .unwritten ∧
      b.fill oid epoch p = (.ok (), b.setLog oid (o.fill p).2)) := by
  unfold fill
  cases hc : b.checkIo oid epoch with
  | error e => exact Or.inl ⟨e, rfl, rfl⟩
  | ok o =>
    cases hs : o.slot p with
    | unwritten =>
      refine Or.inr (Or.inr (Or.inr ⟨o, rfl, hs, ?_⟩))
      simp only [LogObject.fill_of_unwritten hs]
    | written d =>
      refine Or.inr (Or.inl ⟨o, d, rfl, hs, ?_⟩)
      simp only [LogObject.fill_of_written hs]
    | invalid =>
      refine Or.inr (Or.inr (Or.inl ⟨o, rfl, hs, ?_⟩))
      simp only [LogObject.fill_of_invalid hs]

/-- What `Trim` can do. -/
theorem trim_cases (b : RAMBackend ν) (oid : String) (epoch p : Nat) (l f : Bool) :
    (f = true ∧ l = false ∧ b.trim oid epoch p l f = (.error .einval, b)) ∨
    (∃ e, b.checkIo oid epoch = .error e ∧ b.trim oid epoch p l f = (.error e, b)) ∨
    (∃ o, b.checkIo oid epoch = .ok o ∧ (f = true → l = true) ∧
      b.trim oid epoch p l f = (.ok (), b.setLog oid (o.trim p l f))) := by
  unfold trim
  cases l with
  | false =>
    cases f with
    -- a full trim without a limit is refused
    | true => exact Or.inl ⟨rfl, rfl, rfl⟩
    | false =>
      cases hc : b.checkIo oid epoch with
      | error e => exact Or.inr (Or.inl ⟨e, rfl, by simp⟩)
      | ok o => exact Or.inr (Or.inr ⟨o, rfl, by simp, by simp⟩)
  | true =>
    cases hc : b.checkIo oid epoch with
    | error e => exact Or.inr (Or.inl ⟨e, rfl, by simp⟩)
    | ok o => exact Or.inr (Or.inr ⟨o, rfl, by simp, by simp⟩)

/-- What `Seal` can do. -/
theorem seal_cases (b : RAMBackend ν) (oid : String) (epoch : Nat) :
    ((oid = "" ∨ epoch = 0) ∧ b.seal oid epoch = (.error .einval, b)) ∨
    (oid ≠ "" ∧ epoch ≠ 0 ∧ b.objects.lookup oid = none ∧
      b.seal oid epoch = (.ok (), b.setLog oid { epoch := epoch })) ∨
    (∃ o, b.logAt oid = some o ∧ epoch ≤ o.epoch ∧ b.seal oid epoch = (.error .espipe, b)) ∨
    (∃ o, b.logAt oid = some o ∧ o.epoch < epoch ∧ oid ≠ "" ∧
      b.seal oid epoch = (.ok (), b.setLog oid { o with epoch := epoch })) ∨
    ((∃ x, b.objects.lookup oid = some x) ∧ b.logAt oid = none ∧
      b.seal oid epoch = (.error .badKind, b)) := by
  unfold «seal»
  by_cases ho : oid = ""
  · exact Or.inl ⟨Or.inl ho, by simp [ho]⟩
  · by_cases he : epoch = 0
    · exact Or.inl ⟨Or.inr he, by simp [he]⟩
    · refine Or.inr ?_
      simp only [ho, he, if_false]
      cases hl : b.objects.lookup oid with
      -- sealing creates the object
      | none => exact Or.inl ⟨ho, he, rfl, rfl⟩
      | some x =>
        refine Or.inr ?_
        cases x with
        | link hoid => exact Or.inr (Or.inr ⟨⟨_, rfl⟩, by simp [logAt, hl], rfl⟩)
        | projection proj => exact Or.inr (Or.inr ⟨⟨_, rfl⟩, by simp [logAt, hl], rfl⟩)
        | log o =>
          have hlog : b.logAt oid = some o := logAt_eq_some.mpr hl
          by_cases hle : epoch ≤ o.epoch
          · exact Or.inl ⟨o, hlog, hle, by simp [hle]⟩
          · exact Or.inr (Or.inl ⟨o, hlog, by omega, ho, by simp [hle]⟩)

/-- What a successful `CreateLog` leaves behind. -/
theorem createLog_ok {r r' : RAMBackend ν} {name : String} {view : ν} {u : Uuid}
    {x : String × String} (h : r.createLog name view u.text = (.ok x, r')) :
    r.objects.lookup u.hoid = none ∧
    r' = { r with
      objects := AList.insert ("head." ++ name) (Object.link u.hoid)
        (AList.insert u.hoid (Object.projection
          { epoch := 1, pfx := u.pfx, projections := .singleton 1 view }) r.objects) } := by
  unfold createLog at h
  split at h
  · simp at h
  · unfold createHead at h
    cases hh : r.objects.lookup ("zlog.head." ++ u.text) with
    -- the head object exists already
    | some _ => simp [hh] at h
    | none =>
      refine ⟨hh, ?_⟩
      simp only [hh, createLink] at h
      split at h
      · simp at h
      · next heq =>
        split at heq
        · simp at heq
        · cases heq
          cases h
          rfl

end RAMBackend

end ZLog
