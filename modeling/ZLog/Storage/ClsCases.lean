import ZLog.Storage.Ceph

/-!
# What a successful method on a log object did

One lemma for each method of the class that writes: when it returns 0, which checks it passed
and which object it left behind.
-/

namespace ZLog

namespace Cls

variable {ν : Type}

/-- The header was read and lets calls of the epoch through. -/
structure Guarded (obj : RadosObject ν) (epoch : Nat) (header : LogObjectHeader) : Prop where
  read : LogObjectHeader.read (some obj) = .ok header
  pos : 1 ≤ epoch
  le : header.epoch ≤ epoch

theorem bind_eq_ok {α β : Type} {x : Ret α} {f : α → Ret β} {r : β} :
    x >>= f = .ok r ↔ ∃ a, x = .ok a ∧ f a = .ok r := by
  cases x with
  | error e => simp [bind, Except.bind]
  | ok a => simp [bind, Except.bind]

theorem epochGuard_eq_ok {header : LogObjectHeader} {epoch : Nat} :
    header.epochGuard epoch = .ok () ↔ 1 ≤ epoch ∧ header.epoch ≤ epoch := by
  unfold LogObjectHeader.epochGuard
  split
  · simp
    omega
  · split
    · simp
      omega
    · simp
      omega

/-- Reading the header and checking the epoch, as every entry method starts. -/
theorem guard_eq_ok {α : Type} {obj : RadosObject ν} {epoch : Nat} {k : LogObjectHeader → Ret α}
    {r : α} :
    (do let header ← LogObjectHeader.read (some obj); header.epochGuard epoch; k header) = .ok r ↔
      ∃ header, Guarded obj epoch header ∧ k header = .ok r := by
  simp only [bind_eq_ok]
  constructor
  · rintro ⟨header, hread, ⟨⟩, hguard, hk⟩
    obtain ⟨hpos, hle⟩ := epochGuard_eq_ok.mp hguard
    exact ⟨header, ⟨hread, hpos, hle⟩, hk⟩
  · rintro ⟨header, ⟨hread, hpos, hle⟩, hk⟩
    exact ⟨header, hread, (), epochGuard_eq_ok.mpr ⟨hpos, hle⟩, hk⟩

/-- The entry that a write starts from. -/
def LogEntry.fresh (junk : Indeterminate) : LogEntry := ⟨false, false, junk.bytestream, "", 0, 0⟩

/-- A write that returned 0 found no entry and stored one. -/
theorem logEntryWrite_ok {obj obj' : RadosObject ν} {epoch position : Nat} {data : String}
    {junk : Indeterminate} (h : logEntryWrite epoch position data junk (some obj) = .ok obj') :
    ∃ header, Guarded obj epoch header ∧ header.positionTrimmed position = false ∧
      obj.omap.find? (entryKey position) = none ∧
      obj' = LogObjectHeader.writeIf (header.updateMaxPos position)
        (((LogEntry.fresh junk).setData obj data header.omapMaxSize).1.write
          ((LogEntry.fresh junk).setData obj data header.omapMaxSize).2 position) := by
  obtain ⟨header, hguard, h⟩ := guard_eq_ok.mp h
  refine ⟨header, hguard, ?_⟩
  cases htrim : header.positionTrimmed position with
  | true => simp [htrim] at h
  | false =>
    simp only [htrim, Bool.false_eq_true, if_false, Option.getD_some, bind_eq_ok] at h
    obtain ⟨entry, hentry, h⟩ := h
    unfold LogEntry.read at hentry
    cases hfind : obj.omap.find? (entryKey position) with
    | none =>
      rw [hfind] at hentry
      cases hentry
      simp only [Bool.false_eq_true, if_false, Except.ok.injEq] at h
      exact ⟨rfl, rfl, h.symm⟩
    | some value =>
      rw [hfind] at hentry
      cases value with
      | entry table =>
        cases hentry
        simp at h
      | view data => cases hentry

/-- An invalidation of one position that returned 0 left the object alone, because the position
    was below the limit or invalid already, or it stored the entry it found with the mark set. -/
theorem logEntryInvalidate_ok {obj obj' : RadosObject ν} {epoch position : Nat} {force : Bool}
    {junk : Indeterminate}
    (h : logEntryInvalidate epoch position force false junk (some obj) = .ok obj') :
    ∃ header, Guarded obj epoch header ∧
      ((obj' = obj ∧ (header.positionTrimmed position = true ∨
          ∃ table, obj.omap.find? (entryKey position) = some (.entry table) ∧
            table.invalid = true)) ∨
        ∃ entry, LogEntry.read obj position junk = .ok entry ∧
          header.positionTrimmed position = false ∧
          (entry.exists = true → entry.invalid = false ∧ force = true) ∧
          obj' = LogObjectHeader.writeIf (header.updateMaxPos position)
            ({ entry with invalid := true }.write obj position)) := by
  obtain ⟨header, hguard, h⟩ := guard_eq_ok.mp h
  refine ⟨header, hguard, ?_⟩
  cases htrim : header.positionTrimmed position with
  | true =>
    simp only [htrim, Bool.false_eq_true, if_false, if_true, Option.getD_some,
      Except.ok.injEq] at h
    exact Or.inl ⟨h.symm, Or.inl rfl⟩
  | false =>
    simp only [htrim, Bool.false_eq_true, if_false, Option.getD_some, bind_eq_ok] at h
    obtain ⟨entry, hentry, h⟩ := h
    by_cases hdead : (entry.exists && entry.invalid) = true
    · rw [if_pos hdead] at h
      obtain ⟨hexists, hinvalid⟩ := Bool.and_eq_true_iff.mp hdead
      cases h
      refine Or.inl ⟨rfl, Or.inr ?_⟩
      unfold LogEntry.read at hentry
      split at hentry
      · cases hentry
        cases hexists
      · next table hfind =>
        cases hentry
        exact ⟨table, hfind, hinvalid⟩
      · cases hentry
    · rw [if_neg hdead] at h
      by_cases hkeep : (entry.exists && !force) = true
      · rw [if_pos hkeep] at h
        cases h
      · rw [if_neg hkeep] at h
        cases h
        refine Or.inr ⟨entry, hentry, rfl, ?_, rfl⟩
        intro hexists
        rw [hexists] at hdead hkeep
        simpa using And.intro hdead hkeep

/-- An invalidation up to a limit that returned 0 raised the limit. -/
theorem logEntryInvalidate_limit_ok {obj obj' : RadosObject ν} {epoch position : Nat}
    {junk : Indeterminate}
    (h : logEntryInvalidate epoch position true true junk (some obj) = .ok obj') :
    ∃ header, Guarded obj epoch header ∧
      obj' = LogObjectHeader.writeIf (header.updateTrimLimit position) obj := by
  obtain ⟨header, hguard, h⟩ := guard_eq_ok.mp h
  refine ⟨header, hguard, ?_⟩
  simpa [eq_comm] using h

/-- A seal that returned 0 created the header, or moved it to a later epoch. -/
theorem logEntrySeal_ok {obj : Option (RadosObject ν)} {obj' : RadosObject ν} {epoch : Nat}
    {size : Int} {junk : Indeterminate} (h : logEntrySeal epoch size junk obj = .ok obj') :
    1 ≤ epoch ∧
    ((obj = none ∧ obj' = { LogObjectHeader.new junk epoch with omapMaxSize_ := size }.write {}) ∨
      ∃ old header, obj = some old ∧ LogObjectHeader.read (some old) = .ok header ∧
        header.epoch < epoch ∧
        obj' = { header with omapMaxSize_ := size, epoch := epoch }.write old) := by
  unfold logEntrySeal at h
  split at h
  · cases h
  · next hpos =>
    refine ⟨by omega, ?_⟩
    cases obj with
    | none =>
      simp only [LogObjectHeader.read, Option.getD_none, Except.ok.injEq] at h
      exact Or.inl ⟨rfl, h.symm⟩
    | some old =>
      split at h
      · next header hread =>
        split at h
        · cases h
        · next hlt =>
          cases h
          exact Or.inr ⟨old, header, rfl, hread, by omega, rfl⟩
      · next hread =>
        unfold LogObjectHeader.read at hread
        grind
      · cases h

end Cls

end ZLog
