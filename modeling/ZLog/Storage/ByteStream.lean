import ZLog.Lib.Tiling
import ZLog.Lib.Transition
import ZLog.Storage.CephAgree
import ZLog.Storage.ClsCases

/-!
# The byte stream of a log object

Data that is large for the threshold of the last seal is appended to the byte stream of the
object, and the entry records where, in 32 bits each for the offset and the length.  As long as
both fit, the entries with data in the stream tile it, and every entry reads back what was
written.

## Main results

- `Streams.step`: a call that fits keeps the tiling and the data of every entry.
- `Streams.sound`: under the invariant the recorded ranges are disjoint and reads are exact.
- `streamSound_iff_fits`: the first call that does not fit breaks one or the other.
-/

namespace ZLog

namespace Cls

variable {ν : Type}

/-! ## Runs of class methods on one object -/

/-- The methods that write an object, as they are called. -/
inductive EntryOp where
  | seal (epoch : Nat) (omapMaxSize : Int)
  | write (epoch position : Nat) (data : String)
  | invalidate (epoch position : Nat) (force limit : Bool)

def EntryOp.run (op : EntryOp) (junk : Indeterminate) (obj : Option (RadosObject ν)) :
    Ret (RadosObject ν) :=
  match op with
  | .seal epoch omapMaxSize => logEntrySeal epoch omapMaxSize junk obj
  | .write epoch position data => logEntryWrite epoch position data junk obj
  | .invalidate epoch position force limit =>
    logEntryInvalidate epoch position force limit junk obj

/-- An object and the calls that returned 0 on it. -/
structure Stream (ν : Type) where
  obj : Option (RadosObject ν)
  done : List EntryOp := []

/-- A call that returns 0. -/
def Stream.step (s : Stream ν) (a : EntryOp × Indeterminate) : Option (Stream ν) :=
  match a.1.run a.2 s.obj with
  | .ok obj => some ⟨some obj, s.done ++ [a.1]⟩
  | .error _ => none

/-- The object does not exist, or a full trim emptied it. -/
def Emptied (obj : Option (RadosObject ν)) : Prop :=
  ∀ o, obj = some o → o.omap = .empty ∧ o.bytes = []

/-- Data that goes to the stream finds room below `2 ^ 32`, if there is any. -/
def StreamFits (s : Stream ν) (a : EntryOp × Indeterminate) : Prop :=
  match a.1 with
  | .write _ _ data =>
    ∀ obj header size, s.obj = some obj → LogObjectHeader.read s.obj = .ok header →
      header.omapMaxSize = some size → size ≤ data.toList.length → data ≠ "" →
      obj.bytes.length < 2 ^ 32 ∧ data.toList.length < 2 ^ 32
  | _ => True

/-- The entry recorded for a position. -/
def RadosObject.entryAt (obj : RadosObject ν) (p : Nat) : Option Fbs.LogEntry :=
  match obj.omap.find? (entryKey p) with
  | some (.entry table) => some table
  | _ => none

/-- The bytes that a table covers. -/
def Fbs.LogEntry.Covers (table : Fbs.LogEntry) (i : Nat) : Prop :=
  table.offset ≤ i ∧ i < table.offset + table.length

/-- What the users of an object rely on: the recorded ranges are disjoint, and every
    entry that can be read reads as it was written. -/
structure StreamSound (done : List EntryOp) (obj : RadosObject ν) : Prop where
  disjoint : ∀ p q t u, p ≠ q → obj.entryAt p = some t → obj.entryAt q = some u →
    t.bytestream = true → u.bytestream = true → ∀ i, ¬ (t.Covers i ∧ u.Covers i)
  reads : ∀ p t header epoch junk, obj.entryAt p = some t → t.invalid = false →
    Guarded obj epoch header → header.positionTrimmed p = false →
    (∃ e d, .write e p d ∈ done) ∧
    ∀ e d, .write e p d ∈ done → logEntryRead epoch p junk (some obj) = .ok d

/-! ## The invariant -/

/-- A piece of the stream and the position it belongs to. -/
structure Piece where
  position : Nat
  offset : Nat
  length : Nat

/-- A table holds data, in itself or in the stream `bytes`. -/
inductive Fbs.LogEntry.Holds (bytes : List Char) (data : String) : Fbs.LogEntry → Prop where
  | inline (invalid : Bool) : Holds bytes data ⟨invalid, false, data, 0, 0⟩
  | stream (invalid : Bool) (offset : Nat) :
      (bytes.drop offset).take data.toList.length = data.toList →
      Holds bytes data ⟨invalid, true, "", offset, data.toList.length⟩

/-- The invariant: the non-empty pieces tile the stream, and every entry holds what was written
    or was never written. -/
structure Streams (done : List EntryOp) (obj : RadosObject ν) : Prop where
  tiles : ∃ l : List Piece, Lib.Tiles Piece.offset Piece.length 0 l obj.bytes.length ∧
    ∀ x : Piece, x ∈ l ↔ 0 < x.length ∧ ∃ t, obj.entryAt x.position = some t ∧
      t.bytestream = true ∧ t.offset = x.offset ∧ t.length = x.length
  written : ∀ e p d, .write e p d ∈ done → ∃ t, obj.entryAt p = some t ∧ t.Holds obj.bytes d
  others : ∀ p t, obj.entryAt p = some t → (∃ e d, .write e p d ∈ done) ∨ t.invalid = true

/-- Data in the stream stays where it is when the stream grows. -/
theorem Fbs.LogEntry.Holds.append {bytes : List Char} {data : String} {t : Fbs.LogEntry}
    (h : t.Holds bytes data) (more : List Char) : t.Holds (bytes ++ more) data := by
  cases h with
  | inline invalid => exact .inline invalid
  | stream invalid offset heq =>
    apply Holds.stream
    rcases Nat.eq_zero_or_pos data.toList.length with h0 | hpos
    · rw [h0, List.take_zero, List.eq_nil_of_length_eq_zero h0]
    · have hlen := congrArg List.length heq
      simp only [List.length_take, List.length_drop] at hlen
      rw [List.drop_append_of_le_length (by omega), List.take_append_of_le_length (by simp; omega),
        heq]

/-- Marking an entry does not touch its data. -/
theorem Fbs.LogEntry.Holds.invalidate {bytes : List Char} {data : String} {t : Fbs.LogEntry}
    (h : t.Holds bytes data) : ({ t with invalid := true } : Fbs.LogEntry).Holds bytes data := by
  cases h with
  | inline invalid => exact .inline true
  | stream invalid offset heq => exact .stream true offset heq

/-- Reading the data of an entry. -/
theorem Fbs.LogEntry.Holds.readData {obj : RadosObject ν} {data : String} {t : Fbs.LogEntry}
    (h : t.Holds obj.bytes data) :
    LogEntry.readData ⟨true, t.invalid, t.bytestream, t.data, t.offset, t.length⟩ obj =
      .ok data := by
  cases h with
  | inline invalid => simp [LogEntry.readData]
  | stream invalid offset heq =>
    by_cases h0 : data.toList.length = 0
    · have hd : data = "" := String.toList_eq_nil_iff.mp (List.eq_nil_of_length_eq_zero h0)
      simp [LogEntry.readData, hd]
    · simp [LogEntry.readData, h0, heq]

/-- Storing an entry, and possibly the header. -/
theorem entryAt_write (change : Bool × LogObjectHeader) (entry : LogEntry)
    {obj₁ obj : RadosObject ν} (homap : obj₁.omap = obj.omap) (p q : Nat) :
    (LogObjectHeader.writeIf change (entry.write obj₁ p)).entryAt q =
      if q = p then some ⟨entry.invalid, entry.bytestream, entry.data, entry.offset, entry.length⟩
      else obj.entryAt q := by
  unfold RadosObject.entryAt
  rw [LogObjectHeader.omap_writeIf]
  simp only [LogEntry.write, Lib.OrderedMap.find?_set, homap]
  by_cases hq : q = p
  · rw [if_pos hq, if_pos (by rw [hq])]
  · rw [if_neg hq, if_neg (fun h => hq (entryKey_injective h))]

theorem entryAt_eq_none {obj : RadosObject ν} {p : Nat}
    (h : obj.omap.find? (entryKey p) = none) : obj.entryAt p = none := by
  simp [RadosObject.entryAt, h]

theorem entryAt_eq_some {obj : RadosObject ν} {p : Nat} {t : Fbs.LogEntry} :
    obj.entryAt p = some t ↔ obj.omap.find? (entryKey p) = some (.entry t) := by
  unfold RadosObject.entryAt
  split
  · next table h => simp [h]
  · next h =>
    constructor
    · intro hn
      cases hn
    · intro hf
      exact absurd hf (h t)

/-- Data that is large for the threshold goes to the stream. -/
theorem setData_stream (entry : LogEntry) (obj : RadosObject ν) {data : String} {size : Nat}
    (hle : size ≤ data.toList.length) :
    entry.setData obj data (some size) =
      ({ entry with bytestream := true, offset := obj.bytes.length % 2 ^ 32,
                    length := data.toList.length % 2 ^ 32 },
        { obj with
          bytes := LogEntry.writeBytes obj.bytes (obj.bytes.length % 2 ^ 32)
            (data.toList.take (data.toList.length % 2 ^ 32)) }) := by
  simp only [LogEntry.setData, hle, if_true]

theorem setData_cases (entry : LogEntry) (obj : RadosObject ν) (data : String)
    (omapMaxSize : Option Nat) :
    entry.setData obj data omapMaxSize = ({ entry with bytestream := false, data := data }, obj) ∨
    ∃ size, omapMaxSize = some size ∧ size ≤ data.toList.length := by
  unfold LogEntry.setData
  cases omapMaxSize with
  | none => exact Or.inl rfl
  | some size =>
    by_cases hle : size ≤ data.toList.length
    · exact Or.inr ⟨size, rfl, hle⟩
    · exact Or.inl (by simp only [hle, if_false])

theorem writeBytes_nil {bytes : List Char} {offset : Nat} (h : offset ≤ bytes.length) :
    LogEntry.writeBytes bytes offset [] = bytes := by
  unfold LogEntry.writeBytes
  rw [List.takeD_eq_take _ h, List.append_nil, List.length_nil, Nat.add_zero,
    List.take_append_drop]

theorem writeBytes_end (bytes data : List Char) :
    LogEntry.writeBytes bytes bytes.length data = bytes ++ data := by
  unfold LogEntry.writeBytes
  rw [List.takeD_eq_take _ le_rfl, List.take_length, List.drop_eq_nil_of_le (by omega),
    List.append_nil]

namespace Streams

variable {done : List EntryOp} {obj obj' : RadosObject ν}

/-- The invariant only looks at the entries and the stream. -/
theorem congr (hs : Streams done obj) (homap : obj'.omap = obj.omap)
    (hbytes : obj'.bytes = obj.bytes) : Streams done obj' := by
  have hentry : ∀ p, obj'.entryAt p = obj.entryAt p := by
    intro p
    simp only [RadosObject.entryAt, homap]
  constructor
  · simpa only [hentry, hbytes] using hs.tiles
  · simpa only [hentry, hbytes] using hs.written
  · simpa only [hentry] using hs.others

/-- A call that writes no data. -/
theorem skip (hs : Streams done obj) {op : EntryOp} (hop : ∀ e p d, op ≠ .write e p d) :
    Streams (done ++ [op]) obj := by
  have hmem : ∀ e p d, .write e p d ∈ done ++ [op] ↔ .write e p d ∈ done := by
    intro e p d
    constructor
    · intro h
      rcases List.mem_append.mp h with h | h
      · exact h
      · exact absurd (List.mem_singleton.mp h).symm (hop e p d)
    · exact List.mem_append_left _
  constructor
  · exact hs.tiles
  · simpa only [hmem] using hs.written
  · simpa only [hmem] using hs.others

theorem of_emptied {obj₀ : Option (RadosObject ν)} (he : Emptied obj₀) :
    Streams [] (obj₀.getD {}) := by
  -- a new object and an emptied one look alike
  have hobj : (obj₀.getD {}).omap = .empty ∧ (obj₀.getD {}).bytes = [] := by
    cases obj₀ with
    | none => exact ⟨rfl, rfl⟩
    | some o => exact he o rfl
  have hentry : ∀ p, (obj₀.getD {}).entryAt p = none := by
    intro p
    apply entryAt_eq_none
    rw [hobj.1]
    rfl
  refine ⟨⟨[], ?_, ?_⟩, ?_, ?_⟩
  · rw [hobj.2]
    exact .nil 0
  · intro x
    simp [hentry]
  · intro e p d h
    cases h
  · intro p t h
    rw [hentry] at h
    cases h

/-- Marking the entry of a position, or storing an entry that only carries the mark. -/
theorem mark (hs : Streams done obj) {p : Nat} {junk : Indeterminate} {entry : LogEntry}
    (hread : LogEntry.read obj p junk = .ok entry) (change : Bool × LogObjectHeader) :
    Streams done (LogObjectHeader.writeIf change ({ entry with invalid := true }.write obj p)) := by
  -- marking an entry writes no bytes
  have hbytes : (LogObjectHeader.writeIf change
      ({ entry with invalid := true }.write obj p)).bytes = obj.bytes := by
    rw [LogObjectHeader.bytes_writeIf]
    rfl
  obtain ⟨l, hl, hmem⟩ := hs.tiles
  unfold LogEntry.read at hread
  cases hfind : obj.omap.find? (entryKey p) with
  -- an entry that is not there is made, and is invalid from the start
  | none =>
    rw [hfind] at hread
    cases hread
    have hnone := entryAt_eq_none hfind
    refine ⟨⟨l, by rwa [hbytes], ?_⟩, ?_, ?_⟩
    · intro x
      rw [hmem, entryAt_write _ _ rfl]
      by_cases hx : x.position = p
      · -- the entry made has no bytes, so it is no piece
        subst hx
        simp only [hnone, if_true]
        constructor
        · rintro ⟨-, t, ht, -⟩
          cases ht
        · rintro ⟨hpos, t, ht, -, -, hlen⟩
          cases ht
          change 0 = x.length at hlen
          omega
      · rw [if_neg hx]
    · intro e q d hw
      obtain ⟨t, ht, hholds⟩ := hs.written e q d hw
      have hq : q ≠ p := by
        rintro rfl
        rw [hnone] at ht
        cases ht
      refine ⟨t, ?_, by rwa [hbytes]⟩
      rw [entryAt_write _ _ rfl, if_neg hq, ht]
    · intro q t ht
      rw [entryAt_write _ _ rfl] at ht
      by_cases hq : q = p
      · rw [if_pos hq] at ht
        cases ht
        exact Or.inr rfl
      · rw [if_neg hq] at ht
        exact hs.others q t ht
  -- an entry that is there keeps its range
  | some value =>
    rw [hfind] at hread
    cases value with
    | view data => cases hread
    | entry table =>
      cases hread
      have hsome := entryAt_eq_some.mpr hfind
      refine ⟨⟨l, by rwa [hbytes], ?_⟩, ?_, ?_⟩
      · intro x
        rw [hmem, entryAt_write _ _ rfl]
        by_cases hx : x.position = p
        · subst hx
          simp [hsome]
        · rw [if_neg hx]
      · intro e q d hw
        obtain ⟨t, ht, hholds⟩ := hs.written e q d hw
        rw [entryAt_write _ _ rfl, hbytes]
        by_cases hq : q = p
        · subst hq
          rw [hsome] at ht
          cases ht
          exact ⟨_, if_pos rfl, hholds.invalidate⟩
        · exact ⟨t, by rw [if_neg hq, ht], hholds⟩
      · intro q t ht
        rw [entryAt_write _ _ rfl] at ht
        by_cases hq : q = p
        · rw [if_pos hq] at ht
          cases ht
          exact Or.inr rfl
        · rw [if_neg hq] at ht
          exact hs.others q t ht

/-- Storing the entry of a new position; `more` is what the stream grows by. -/
theorem add (hs : Streams done obj) (more : List Char) {e p : Nat} {data : String}
    {t : Fbs.LogEntry} (hnone : obj.entryAt p = none)
    (hentry : ∀ q, obj'.entryAt q = if q = p then some t else obj.entryAt q)
    (hbytes : obj'.bytes = obj.bytes ++ more) (hholds : t.Holds (obj.bytes ++ more) data)
    (hpiece : t.bytestream = true → 0 < t.length →
      t.offset = obj.bytes.length ∧ t.length = more.length)
    (hmore : more ≠ [] → t.bytestream = true ∧ t.offset = obj.bytes.length ∧
      t.length = more.length) : Streams (done ++ [.write e p data]) obj' := by
  obtain ⟨l, hl, hmem⟩ := hs.tiles
  -- the pieces are those of the entries, and this position has none
  have hnotin : ∀ x ∈ l, x.position ≠ p := by
    intro x hx hxp
    obtain ⟨-, u, hu, -⟩ := (hmem x).mp hx
    rw [hxp, hnone] at hu
    cases hu
  refine ⟨?_, ?_, ?_⟩
  · rw [hbytes, List.length_append]
    -- nothing is written to the stream, so the pieces are the same
    by_cases hnil : more = []
    · refine ⟨l, by simpa [hnil] using hl, ?_⟩
      intro x
      rw [hmem, hentry]
      by_cases hx : x.position = p
      · rw [if_pos hx, hx, hnone]
        constructor
        · rintro ⟨-, u, hu, -⟩
          cases hu
        · rintro ⟨hpos, u, hu, hstream, -, hlen⟩
          cases hu
          have := (hpiece hstream (by omega)).2
          rw [hnil, List.length_nil] at this
          omega
      · rw [if_neg hx]
    · -- the new piece comes after all the others
      obtain ⟨hstream, hoff, hlen⟩ := hmore hnil
      have hmorepos : 0 < more.length := List.length_pos_iff.mpr hnil
      refine ⟨l ++ [⟨p, obj.bytes.length, more.length⟩], ?_, ?_⟩
      · exact hl.append (.cons rfl (.nil _))
      · intro x
        rw [List.mem_append, List.mem_singleton, hmem, hentry]
        by_cases hx : x.position = p
        · -- the new entry is exactly the new piece
          rw [if_pos hx, hx, hnone]
          constructor
          · rintro (⟨-, u, hu, -⟩ | rfl)
            · cases hu
            · exact ⟨hmorepos, t, rfl, hstream, hoff, hlen⟩
          · rintro ⟨-, u, hu, -, hoff', hlen'⟩
            cases hu
            right
            cases x
            simp_all
        · rw [if_neg hx]
          constructor
          · rintro (h | rfl)
            · exact h
            · exact absurd rfl hx
          · exact Or.inl
  · -- the older entries still hold their data, as bytes are only added
    intro e' q d hw
    rw [hentry, hbytes]
    rcases List.mem_append.mp hw with hw | hw
    · obtain ⟨u, hu, hholds'⟩ := hs.written e' q d hw
      have hq : q ≠ p := by
        rintro rfl
        rw [hnone] at hu
        cases hu
      exact ⟨u, by rw [if_neg hq, hu], hholds'.append more⟩
    · cases List.mem_singleton.mp hw
      exact ⟨t, if_pos rfl, hholds⟩
  · intro q u hu
    rw [hentry] at hu
    by_cases hq : q = p
    · subst hq
      exact Or.inl ⟨e, data, by simp⟩
    · rw [if_neg hq] at hu
      rcases hs.others q u hu with ⟨e', d, hw⟩ | hinvalid
      · exact Or.inl ⟨e', d, List.mem_append_left _ hw⟩
      · exact Or.inr hinvalid

/-- A write that fits appends its data, or stores it in the entry. -/
theorem write (hs : Streams done obj) {e p : Nat} {data : String} {junk : Indeterminate}
    (hrun : logEntryWrite e p data junk (some obj) = .ok obj')
    (hfits : ∀ header size, LogObjectHeader.read (some obj) = .ok header →
      header.omapMaxSize = some size → size ≤ data.toList.length → data ≠ "" →
      obj.bytes.length < 2 ^ 32 ∧ data.toList.length < 2 ^ 32) :
    Streams (done ++ [.write e p data]) obj' := by
  obtain ⟨header, hguard, -, hfind, rfl⟩ := logEntryWrite_ok hrun
  have hnone := entryAt_eq_none hfind
  -- the data goes into the entry, or into the stream
  rcases setData_cases (.fresh junk) obj data header.omapMaxSize with heq | ⟨size, hsize, hle⟩
  · rw [heq]
    apply hs.add [] hnone
    · exact entryAt_write _ _ rfl p
    · rw [LogObjectHeader.bytes_writeIf, List.append_nil]
      rfl
    · exact .inline false
    · intro hstream
      cases hstream
    · intro hnil
      exact absurd rfl hnil
  · rw [hsize, setData_stream _ _ hle]
    -- an empty string in the stream takes no bytes
    by_cases hd : data = ""
    · subst hd
      apply hs.add [] hnone
      · exact entryAt_write _ _ rfl p
      · rw [LogObjectHeader.bytes_writeIf, List.append_nil]
        exact writeBytes_nil (Nat.mod_le _ _)
      · exact .stream false _ rfl
      · intro _ hpos
        exact absurd hpos (by simp)
      · intro hnil
        exact absurd rfl hnil
    · -- within 32 bits the write is at the end of the stream and whole
      obtain ⟨hroom, hshort⟩ := hfits header size hguard.read hsize hle hd
      rw [Nat.mod_eq_of_lt hroom, Nat.mod_eq_of_lt hshort, List.take_length, writeBytes_end]
      apply hs.add data.toList hnone
      · exact entryAt_write _ _ rfl p
      · rw [LogObjectHeader.bytes_writeIf]
        rfl
      · apply Fbs.LogEntry.Holds.stream
        rw [List.drop_left, List.take_length]
      · intro _ _
        exact ⟨rfl, rfl⟩
      · intro _
        exact ⟨rfl, rfl, rfl⟩

/-- **Step lemma**: a call that returned 0 and fits keeps the invariant. -/
theorem step {s s' : Stream ν} {a : EntryOp × Indeterminate}
    (hs : Streams s.done (s.obj.getD {})) (hfits : StreamFits s a) (hstep : s.step a = some s') :
    Streams s'.done (s'.obj.getD {}) := by
  obtain ⟨op, junk⟩ := a
  obtain ⟨obj, done⟩ := s
  unfold Stream.step at hstep
  cases hrun : op.run junk obj with
  | error e =>
    rw [hrun] at hstep
    cases hstep
  | ok obj' =>
    rw [hrun] at hstep
    cases hstep
    show Streams (done ++ [op]) obj'
    -- by the method: sealing and raising the limit touch no entry
    cases op with
    | «seal» epoch size =>
      obtain ⟨-, ⟨rfl, rfl⟩ | ⟨old, header, rfl, -, -, rfl⟩⟩ := logEntrySeal_ok hrun
      · apply skip
        · exact hs.congr rfl rfl
        · intro e p d h
          cases h
      · apply skip
        · exact hs.congr rfl rfl
        · intro e p d h
          cases h
    | write epoch position data =>
      cases obj with
      | none => cases hrun
      | some obj =>
        exact hs.write hrun (fun header size hread hsize hle hd =>
          hfits obj header size rfl hread hsize hle hd)
    | invalidate epoch position force limit =>
      refine skip ?_ (fun e p d h => by cases h)
      cases obj with
      | none =>
        exfalso
        cases limit <;> cases force <;> cases hrun
      | some obj =>
        cases limit with
        -- without `force` it is refused
        | true =>
          cases force with
          | false => cases hrun
          | true =>
            obtain ⟨header, -, rfl⟩ := logEntryInvalidate_limit_ok hrun
            exact hs.congr (LogObjectHeader.omap_writeIf ..) (LogObjectHeader.bytes_writeIf ..)
        | false =>
          obtain ⟨header, -, ⟨rfl, -⟩ | ⟨entry, hread, -, -, rfl⟩⟩ := logEntryInvalidate_ok hrun
          · exact hs
          · exact hs.mark hread _

end Streams

/-! ## Soundness -/

/-- A read of an entry that is neither trimmed nor marked reads its data. -/
theorem logEntryRead_eq {obj : RadosObject ν} {epoch p : Nat} {header : LogObjectHeader}
    {t : Fbs.LogEntry} (hguard : Guarded obj epoch header)
    (htrim : header.positionTrimmed p = false) (ht : obj.entryAt p = some t)
    (hinvalid : t.invalid = false) (junk : Indeterminate) :
    logEntryRead epoch p junk (some obj) =
      LogEntry.readData ⟨true, t.invalid, t.bytestream, t.data, t.offset, t.length⟩ obj := by
  have hepoch : header.epochGuard epoch = .ok () :=
    epochGuard_eq_ok.mpr ⟨hguard.pos, hguard.le⟩
  simp [logEntryRead, hguard.read, hepoch, htrim, LogEntry.read, entryAt_eq_some.mp ht, hinvalid,
    bind, Except.bind]

theorem Fbs.LogEntry.Covers.length_pos {t : Fbs.LogEntry} {i : Nat} (h : t.Covers i) :
    0 < t.length := by
  have hle := h.1
  have hlt := h.2
  omega

/-- **Soundness**: under the invariant the ranges are disjoint and reads are exact. -/
theorem Streams.sound {done : List EntryOp} {obj : RadosObject ν} (hs : Streams done obj) :
    StreamSound done obj := by
  refine ⟨?_, ?_⟩
  · -- two entries that share a byte are one piece
    rintro p q t u hne ht hu hts hus i ⟨hti, hui⟩
    obtain ⟨l, hl, hmem⟩ := hs.tiles
    have hp : (⟨p, t.offset, t.length⟩ : Piece) ∈ l :=
      (hmem _).mpr ⟨hti.length_pos, t, ht, hts, rfl, rfl⟩
    have hq : (⟨q, u.offset, u.length⟩ : Piece) ∈ l :=
      (hmem _).mpr ⟨hui.length_pos, u, hu, hus, rfl, rfl⟩
    exact hne (congrArg Piece.position (hl.unique hp hq hti hui))
  · intro p t header epoch junk ht hinvalid hguard htrim
    refine ⟨?_, ?_⟩
    · -- an entry that is valid was written
      rcases hs.others p t ht with hw | hdead
      · exact hw
      · rw [hinvalid] at hdead
        cases hdead
    · intro e d hw
      obtain ⟨u, hu, hholds⟩ := hs.written e p d hw
      cases ht.symm.trans hu
      rw [logEntryRead_eq hguard htrim ht hinvalid]
      exact hholds.readData

/-! ## Data that does not fit -/

/-- The limit that is read back after `t` was written. -/
def storedLimit (t : Option Nat) : Option Nat :=
  let limit : Int :=
    match t with
    | some n => toInt64 n
    | none => -1
  if 0 ≤ limit then some (toUInt64 limit) else none

theorem read_write_eq (h : LogObjectHeader) (obj : RadosObject ν) :
    LogObjectHeader.read (some (h.write obj)) = .ok { h with trimLimit := storedLimit h.trimLimit } :=
  rfl

/-- A limit of 64 bits is read back as it was or not at all. -/
theorem eq_of_storedLimit {t : Option Nat} {m : Nat} (ht : ∀ n, t = some n → n < 2 ^ 64)
    (h : storedLimit t = some m) : t = some m := by
  cases t with
  | none => simp [storedLimit] at h
  | some n =>
    have hn := ht n rfl
    by_cases hlt : n < 2 ^ 63
    · simpa [storedLimit, toInt64_of_lt hlt, toUInt64_of_lt hlt] using h
    · have hneg : ¬ 0 ≤ toInt64 n := by
        unfold toInt64
        rw [Int.bmod_def]
        omega
      simp [storedLimit, hneg] at h

theorem trimLimit_lt {obj : RadosObject ν} {header : LogObjectHeader}
    (hread : LogObjectHeader.read (some obj) = .ok header) :
    ∀ n, header.trimLimit = some n → n < 2 ^ 64 := by
  intro n hn
  simp only [LogObjectHeader.read] at hread
  split at hread
  · cases hread
  · cases hread
    simp only at hn
    split at hn
    · cases hn
      unfold toUInt64
      omega
    · cases hn

/-- The header after a call that moved the maximum position still lets the position through. -/
theorem read_updateMaxPos {obj : RadosObject ν} {header : LogObjectHeader} {p : Nat}
    (hread : LogObjectHeader.read (some obj) = .ok header)
    (htrim : header.positionTrimmed p = false) :
    ∃ header', header'.epoch = header.epoch ∧ header'.positionTrimmed p = false ∧
      ∀ obj' : RadosObject ν, obj'.dataHeader = obj.dataHeader →
        LogObjectHeader.read (some (LogObjectHeader.writeIf (header.updateMaxPos p) obj')) =
          .ok header' := by
  obtain ⟨hepoch, hlimit, -⟩ := LogObjectHeader.updateMaxPos_eq header p
  unfold LogObjectHeader.writeIf
  -- with or without a new header, the limit is that of before
  cases hchange : (header.updateMaxPos p).1 with
  | false =>
    refine ⟨header, rfl, htrim, ?_⟩
    intro obj' hdata
    rw [if_neg (by simp), ← hread]
    simp only [LogObjectHeader.read, hdata]
  | true =>
    refine ⟨{ (header.updateMaxPos p).2 with
        trimLimit := storedLimit (header.updateMaxPos p).2.trimLimit }, hepoch, ?_,
      fun obj' _ => by rw [if_pos rfl, read_write_eq]⟩
    unfold LogObjectHeader.positionTrimmed at htrim ⊢
    rw [hlimit]
    split
    · next m hm =>
      rw [eq_of_storedLimit (trimLimit_lt hread) hm] at htrim
      exact htrim
    · rfl

/-- The data of an entry in the stream is no longer than the length recorded for it. -/
theorem length_readData_le {obj : RadosObject ν} {offset length : Nat} {d : String}
    (h : LogEntry.readData ⟨true, false, true, "", offset, length⟩ obj = .ok d) :
    d.toList.length ≤ length := by
  unfold LogEntry.readData at h
  by_cases h0 : length = 0
  · have hd : "" = d := by simpa [h0] using h
    simp [← hd]
  · have hd : String.ofList ((obj.bytes.drop offset).take length) = d := by simpa [h0] using h
    rw [← hd, String.toList_ofList]
    exact List.length_take_le ..

/-- What a write of large data records. -/
theorem write_large {obj obj' : RadosObject ν} {e p : Nat} {data : String} {junk : Indeterminate}
    (hrun : logEntryWrite e p data junk (some obj) = .ok obj') {header : LogObjectHeader}
    {size : Nat} (hread : LogObjectHeader.read (some obj) = .ok header)
    (hsize : header.omapMaxSize = some size) (hle : size ≤ data.toList.length) :
    obj.entryAt p = none ∧
    (∀ q, obj'.entryAt q =
      if q = p then
        some ⟨false, true, "", obj.bytes.length % 2 ^ 32, data.toList.length % 2 ^ 32⟩
      else obj.entryAt q) ∧
    ∃ header', Guarded obj' e header' ∧ header'.positionTrimmed p = false := by
  obtain ⟨header₁, hguard, htrim, hfind, rfl⟩ := logEntryWrite_ok hrun
  cases hread.symm.trans hguard.read
  rw [hsize, setData_stream _ _ hle]
  refine ⟨entryAt_eq_none hfind, ?_, ?_⟩
  · intro q
    exact entryAt_write _ _ rfl p q
  · -- the write may have stored a new greatest position
    obtain ⟨header', hepoch, htrim', hread'⟩ := read_updateMaxPos hread htrim
    refine ⟨header', ⟨hread' _ rfl, hguard.pos, ?_⟩, htrim'⟩
    rw [hepoch]
    exact hguard.le

/-- A write of data that does not fit overwrites an older piece, or its own entry reads less than
    was written. -/
theorem Streams.breaks {done : List EntryOp} {obj obj' : RadosObject ν} (hs : Streams done obj)
    {e p : Nat} {data : String} {junk : Indeterminate}
    (hrun : logEntryWrite e p data junk (some obj) = .ok obj') {header : LogObjectHeader}
    {size : Nat} (hread : LogObjectHeader.read (some obj) = .ok header)
    (hsize : header.omapMaxSize = some size) (hle : size ≤ data.toList.length) (hd : data ≠ "")
    (hlarge : ¬ (obj.bytes.length < 2 ^ 32 ∧ data.toList.length < 2 ^ 32)) :
    ¬ StreamSound (done ++ [.write e p data]) obj' := by
  intro hsound
  obtain ⟨hnone, hentry, header', hguard, htrim⟩ := write_large hrun hread hsize hle
  have hp := hentry p
  rw [if_pos rfl] at hp
  by_cases hlong : data.toList.length < 2 ^ 32
  · -- the recorded offset is inside the stream, where an older piece is
    have hpos : 0 < data.toList.length := List.length_pos_iff.mpr (by simpa using hd)
    have hoff : obj.bytes.length % 2 ^ 32 < obj.bytes.length := by omega
    obtain ⟨l, hl, hmem⟩ := hs.tiles
    obtain ⟨x, hx, hin⟩ := hl.covers (Nat.zero_le _) hoff
    obtain ⟨-, u, hu, hstream, hxoff, hxlen⟩ := (hmem x).mp hx
    have hne : p ≠ x.position := by
      intro heq
      rw [← heq, hnone] at hu
      cases hu
    have hu' := hentry x.position
    rw [if_neg hne.symm, hu] at hu'
    apply hsound.disjoint p x.position _ u hne hp hu' rfl hstream (obj.bytes.length % 2 ^ 32)
    refine ⟨⟨le_rfl, ?_⟩, ?_⟩
    · show obj.bytes.length % 2 ^ 32 < obj.bytes.length % 2 ^ 32 + data.toList.length % 2 ^ 32
      rw [Nat.mod_eq_of_lt hlong]
      omega
    · unfold Fbs.LogEntry.Covers
      rw [hxoff, hxlen]
      exact hin
  · -- the recorded length is shorter than the data
    have hback := (hsound.reads p _ header' e junk hp rfl hguard htrim).2 e data (by simp)
    rw [logEntryRead_eq hguard htrim hp rfl] at hback
    have hlen : data.toList.length ≤ data.toList.length % 2 ^ 32 := length_readData_le hback
    have hlt := Nat.mod_lt data.toList.length (show 0 < 2 ^ 32 by decide)
    omega

/-! ## Whole runs -/

/-- Every object of a run whose calls fit is sound. -/
theorem streams_run {obj₀ : Option (RadosObject ν)} (he : Emptied obj₀) {s : Stream ν}
    (hrun : Lib.Run Stream.step StreamFits ⟨obj₀, []⟩ s) : Streams s.done (s.obj.getD {}) :=
  hrun.invariant (I := fun s => Streams s.done (s.obj.getD {}))
    (fun _ _ _ hs hfits hstep => hs.step hfits hstep) (.of_emptied he)

/-- In every run from an empty object whose calls fit, the recorded ranges are disjoint and every
    entry reads back; the first call that does not fit breaks that. -/
theorem streamSound_iff_fits {obj₀ : Option (RadosObject ν)} (he : Emptied obj₀) :
    (∀ s obj, Lib.Run Stream.step StreamFits ⟨obj₀, []⟩ s → s.obj = some obj →
      StreamSound s.done obj) ∧
    ∀ s s' obj a, Lib.Run Stream.step StreamFits ⟨obj₀, []⟩ s → s.step a = some s' →
      s'.obj = some obj → (StreamSound s'.done obj ↔ StreamFits s a) := by
  refine ⟨?_, ?_⟩
  · intro s obj hrun hobj
    have hs := streams_run he hrun
    rw [hobj] at hs
    exact hs.sound
  · intro s s' obj a hrun hstep hobj
    have hs := streams_run he hrun
    constructor
    · -- the other direction: a call that does not fit breaks what held before it
      intro hsound
      by_contra hfits
      obtain ⟨op, junk⟩ := a
      -- only a write can fail to fit
      cases op with
      | «seal» epoch size => exact hfits trivial
      | invalidate epoch position force limit => exact hfits trivial
      | write epoch position data =>
        simp only [StreamFits, not_forall] at hfits
        obtain ⟨old, header, size, hold, hread, hsize, hle, hd, hlarge⟩ := hfits
        obtain ⟨o, done⟩ := s
        cases hold
        simp only [Stream.step, EntryOp.run] at hstep
        cases hrun' : logEntryWrite epoch position data junk (some old) with
        | error e =>
          rw [hrun'] at hstep
          cases hstep
        -- a write beyond 32 bits records a wrapped range
        | ok new =>
          rw [hrun'] at hstep
          cases hstep
          cases hobj
          exact hs.breaks hrun' hread hsize hle hd hlarge hsound
    · intro hfits
      have hs' := hs.step hfits hstep
      rw [hobj] at hs'
      exact hs'.sound

/-! ## A stream of four gigabytes -/

/-- The object after a seal with the threshold 0 and `n` writes of `chunk` at the positions below
    `n`. -/
structure Filled (chunk : String) (n : Nat) (s : Stream ν) (obj : RadosObject ν) : Prop where
  run : Lib.Run Stream.step StreamFits ⟨none, []⟩ s
  stored : s.obj = some obj
  header : ∃ header, LogObjectHeader.read (some obj) = .ok header ∧ header.epoch = 1 ∧
    header.omapMaxSize = some 0 ∧ header.trimLimit = none
  bytes : obj.bytes.length = n * chunk.toList.length
  free : ∀ q, n ≤ q → obj.omap.find? (entryKey q) = none

def noJunk : Indeterminate := ⟨0, false⟩

theorem Filled.start (chunk : String) : ∃ (s : Stream ν) (obj : RadosObject ν),
    Filled chunk 0 s obj := by
  refine ⟨⟨some ({ LogObjectHeader.new noJunk 1 with omapMaxSize_ := 0 }.write {}), [.seal 1 0]⟩, _,
    ?_, rfl, ⟨_, rfl, rfl, rfl, rfl⟩, by simp [LogObjectHeader.write], fun q _ => rfl⟩
  exact .tail (a := (.seal 1 0, noJunk)) .refl trivial rfl

/-- A write at the next position returns 0. -/
theorem Filled.write {chunk : String} {n : Nat} {s : Stream ν} {obj : RadosObject ν}
    (h : Filled chunk n s obj) (data : String) :
    ∃ obj', logEntryWrite 1 n data noJunk (some obj) = .ok obj' := by
  obtain ⟨header, hread, hepoch, -, hlimit⟩ := h.header
  have htrim : header.positionTrimmed n = false := by
    simp [LogObjectHeader.positionTrimmed, hlimit]
  have hguard : header.epochGuard 1 = .ok () := epochGuard_eq_ok.mpr ⟨le_rfl, by omega⟩
  simp [logEntryWrite, hread, hguard, htrim, LogEntry.read, h.free n le_rfl, bind, Except.bind]

theorem omapMaxSize_updateMaxPos (header : LogObjectHeader) (p : Nat) :
    (header.updateMaxPos p).2.omapMaxSize = header.omapMaxSize := by
  unfold LogObjectHeader.updateMaxPos
  split
  · rfl
  · split <;> rfl

theorem Filled.next {chunk : String} {n : Nat} {s : Stream ν} {obj : RadosObject ν}
    (h : Filled chunk n s obj) (hchunk : chunk.toList.length < 2 ^ 32)
    (hroom : n * chunk.toList.length < 2 ^ 32) :
    ∃ (s' : Stream ν) (obj' : RadosObject ν), Filled chunk (n + 1) s' obj' := by
  obtain ⟨obj', hrun⟩ := h.write chunk
  obtain ⟨header, hread, hepoch, hsize, hlimit⟩ := h.header
  obtain ⟨header', hguard, -, -, hobj'⟩ := logEntryWrite_ok hrun
  cases hread.symm.trans hguard.read
  rw [hsize, setData_stream _ _ (Nat.zero_le _), h.bytes, Nat.mod_eq_of_lt hroom,
    Nat.mod_eq_of_lt hchunk, List.take_length, ← h.bytes, writeBytes_end] at hobj'
  refine ⟨⟨some obj', s.done ++ [.write 1 n chunk]⟩, obj', ?_, rfl, ?_, ?_, ?_⟩
  · apply h.run.tail (a := (.write 1 n chunk, noJunk))
    · -- the next chunk still fits
      intro o hd size ho hr hs' hle hne
      rw [h.stored] at ho
      cases ho
      exact ⟨by rw [h.bytes]; exact hroom, hchunk⟩
    · simp [Stream.step, EntryOp.run, h.stored, hrun]
  · obtain ⟨hepoch', hlimit', hsame⟩ := LogObjectHeader.updateMaxPos_eq header n
    refine ⟨(header.updateMaxPos n).2, ?_, ?_, ?_, ?_⟩
    · rw [hobj']
      apply LogObjectHeader.read_writeIf
      · exact hread
      · exact hsame
      · simp [hlimit', hlimit]
    · rw [hepoch', hepoch]
    · rw [← hsize]
      exact omapMaxSize_updateMaxPos header n
    · rw [hlimit', hlimit]
  · rw [hobj', LogObjectHeader.bytes_writeIf]
    show (obj.bytes ++ chunk.toList).length = _
    rw [List.length_append, h.bytes, Nat.succ_mul]
  · intro q hq
    rw [hobj', LogObjectHeader.omap_writeIf]
    simp only [LogEntry.write, Lib.OrderedMap.find?_set]
    rw [if_neg (fun heq => by have := entryKey_injective heq; omega)]
    exact h.free q (by omega)

/-- As many chunks as end within `2 ^ 32` bytes. -/
theorem exists_filled {chunk : String} (hpos : 0 < chunk.toList.length)
    (hchunk : chunk.toList.length < 2 ^ 32) (n : Nat) (hroom : n * chunk.toList.length ≤ 2 ^ 32) :
    ∃ (s : Stream ν) (obj : RadosObject ν), Filled chunk n s obj := by
  induction n with
  | zero => exact Filled.start chunk
  | succ n ih =>
    rw [Nat.succ_mul] at hroom
    obtain ⟨s, obj, h⟩ := ih (by omega)
    exact h.next hchunk (by omega)

theorem streamSound_iff_fits_two : ∃ (s : Stream Unit) (obj : RadosObject Unit),
    Filled "ab" 2 s obj ∧ StreamSound s.done obj := by
  obtain ⟨s, obj, h⟩ := exists_filled (ν := Unit) (show 0 < "ab".toList.length by decide)
    (by decide) 2 (by decide)
  exact ⟨s, obj, h, (streamSound_iff_fits (fun _ ho => by cases ho)).1 s obj h.run h.stored⟩

/-- Data of `n` bytes. -/
def chunkOf (n : Nat) : String := String.ofList (List.replicate n 'x')

theorem length_chunkOf (n : Nat) : (chunkOf n).toList.length = n := by
  rw [chunkOf, String.toList_ofList, List.length_replicate]

/-- After 4096 writes of a megabyte a write of one byte lands on the first of them. -/
theorem stream_overlaps :
    ¬ ∀ (obj₀ : Option (RadosObject Unit)), Emptied obj₀ → ∀ s obj,
      Lib.Reaches Stream.step ⟨obj₀, []⟩ s → s.obj = some obj → StreamSound s.done obj := by
  intro hall
  have hlen := length_chunkOf (2 ^ 20)
  obtain ⟨s, obj, h⟩ : ∃ (s : Stream Unit) (obj : RadosObject Unit),
      Filled (chunkOf (2 ^ 20)) 4096 s obj :=
    exists_filled (by omega) (by omega) 4096 (by omega)
  obtain ⟨obj', hrun⟩ := h.write "y"
  obtain ⟨header, hread, -, hsize, -⟩ := h.header
  have hs : Streams s.done obj := by
    have hs := streams_run (fun _ ho => by cases ho) h.run
    rwa [h.stored] at hs
  apply hs.breaks hrun hread hsize (Nat.zero_le _) (by decide)
  · rw [h.bytes, hlen]
    omega
  · refine hall none (fun _ ho => by cases ho) ⟨some obj', s.done ++ [.write 1 4096 "y"]⟩ obj' ?_ rfl
    apply Lib.Run.tail (a := (.write 1 4096 "y", noJunk)) (h.run.mono (fun _ _ _ => trivial)) trivial
    simp [Stream.step, EntryOp.run, h.stored, hrun]

end Cls

end ZLog
